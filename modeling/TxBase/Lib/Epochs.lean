import Mathlib.Data.List.Chain

/-! Versions of numbered rows.  A history is a sequence of images of a list of rows.  Rows
keep their numbers within an epoch; a new epoch numbers them anew and retires the rows of
the one before.  Only what an image changes is logged, and what a log says of a row is its
last entry. -/
namespace TxBase.Lib.Epochs
open List

structure Entry (ρ : Type) where
  epoch : Nat
  number : Nat
  row : ρ

structure Image (ρ : Type) where
  epoch : Nat
  rows : List ρ

variable {ρ : Type}

def Entry.isOf (epoch number : Nat) (entry : Entry ρ) : Bool :=
  entry.epoch = epoch && entry.number = number

/-- What a log says of a row. -/
def latest (log : List (Entry ρ)) (epoch number : Nat) : Option (Entry ρ) :=
  (log.filter (Entry.isOf epoch number)).getLast?

def numbered (epoch : Nat) (rows : List ρ) : List (Entry ρ) :=
  rows.mapIdx fun index row => ⟨epoch, index + 1, row⟩

theorem latest_append (log more : List (Entry ρ)) (epoch number : Nat) :
    latest (log ++ more) epoch number = (latest more epoch number).or (latest log epoch number) := by
  simp [latest, getLast?_append]

theorem filter_numbered_ne {epoch other : Nat} (number : Nat) (rows : List ρ)
    (hne : epoch ≠ other) : (numbered epoch rows).filter (Entry.isOf other number) = [] := by
  rw [filter_eq_nil_iff]
  intro entry hentry
  obtain ⟨index, hindex, rfl⟩ := mem_mapIdx.mp hentry
  simp [Entry.isOf, hne]

theorem filter_numbered (epoch number : Nat) (rows : List ρ) :
    (numbered epoch rows).filter (Entry.isOf epoch (number + 1)) =
      (rows[number]?.map (Entry.mk epoch (number + 1))).toList := by
  induction rows using List.reverseRecOn with
  | nil => rfl
  | append_singleton rows row ih =>
    have hnumbered : numbered epoch (rows ++ [row]) =
        numbered epoch rows ++ [⟨epoch, rows.length + 1, row⟩] := by
      simp [numbered, mapIdx_append]
    rw [hnumbered, filter_append, ih]
    rcases Nat.lt_trichotomy number rows.length with hlt | heq | hgt
    · rw [getElem?_append_left hlt]
      simp [Entry.isOf, Nat.ne_of_gt hlt]
    · subst heq
      simp [Entry.isOf]
    · rw [getElem?_eq_none (by omega), getElem?_eq_none (by simp; omega)]
      simp [Entry.isOf, Nat.ne_of_lt hgt]

theorem latest_numbered_ne {epoch other : Nat} (number : Nat) (rows : List ρ)
    (hne : epoch ≠ other) : latest (numbered epoch rows) other number = none := by
  rw [latest, filter_numbered_ne number rows hne, getLast?_nil]

theorem latest_numbered (epoch number : Nat) (rows : List ρ) :
    latest (numbered epoch rows) epoch (number + 1) =
      rows[number]?.map (Entry.mk epoch (number + 1)) := by
  rw [latest, filter_numbered]
  cases rows[number]? <;> rfl

section Log
variable [DecidableEq ρ] (retire : ρ → ρ)

/-- Whether the row of an entry was otherwise before. -/
def isNew (rows : List ρ) (entry : Entry ρ) : Bool :=
  rows[entry.number - 1]? ≠ some entry.row

/-- What an image adds to the log. -/
def delta : Option (Image ρ) → Image ρ → List (Entry ρ)
  | none, next => numbered next.epoch next.rows
  | some last, next =>
      if last.epoch = next.epoch then (numbered next.epoch next.rows).filter (isNew last.rows)
      else numbered last.epoch (last.rows.map retire) ++ numbered next.epoch next.rows

def deltas (last : Option (Image ρ)) : List (Image ρ) → List (List (Entry ρ))
  | [] => []
  | image :: rest => delta retire last image :: deltas (some image) rest

theorem deltas_append (images : List (Image ρ)) (next : Image ρ) (last : Option (Image ρ)) :
    deltas retire last (images ++ [next]) =
      deltas retire last images ++ [delta retire (images.getLast?.or last) next] := by
  induction images generalizing last with
  | nil => rfl
  | cons image rest ih =>
    have hlast : (image :: rest).getLast?.or last = rest.getLast?.or (some image) := by
      rw [getLast?_cons]
      cases rest.getLast? <;> rfl
    rw [cons_append, deltas, ih, hlast]
    rfl

/-- An image may come after another: in the same epoch no row is lost. -/
def Follows (last next : Image ρ) : Prop :=
  last.epoch = next.epoch ∧ last.rows.length ≤ next.rows.length ∨ last.epoch < next.epoch

theorem latest_delta_same {last next : Image ρ} (hepoch : last.epoch = next.epoch)
    (number : Nat) :
    latest (delta retire (some last) next) next.epoch (number + 1) =
      if last.rows[number]? = next.rows[number]? then none
      else next.rows[number]?.map (Entry.mk next.epoch (number + 1)) := by
  rw [latest, delta, if_pos hepoch, filter_comm, filter_numbered]
  cases hrow : next.rows[number]? with
  | none => simp
  | some row =>
    by_cases hsame : last.rows[number]? = some row
    · simp [isNew, hsame]
    · simp [isNew, hsame]

theorem latest_delta_ne {last next : Image ρ} {epoch : Nat} (number : Nat)
    (hlast : last.epoch ≠ epoch) (hnext : next.epoch ≠ epoch) :
    latest (delta retire (some last) next) epoch number = none := by
  rw [delta]
  split
  · rw [latest, filter_comm, filter_numbered_ne number _ hnext]
    rfl
  · rw [latest_append, latest_numbered_ne number _ hnext, latest_numbered_ne number _ hlast]
    rfl

/-- What the log of a history says, by its last image. -/
structure Says (images : List (Image ρ)) (image : Image ρ) (log : List (Entry ρ)) : Prop where
  present : ∀ number, latest log image.epoch (number + 1) =
    image.rows[number]?.map (Entry.mk image.epoch (number + 1))
  later : ∀ epoch number, image.epoch < epoch → latest log epoch number = none
  retired : ∀ epoch number entry, epoch < image.epoch →
    latest log epoch (number + 1) = some entry → ∃ row, entry.row = retire row
  kept : ∀ earlier ∈ images, ∀ number < earlier.rows.length,
    (latest log earlier.epoch (number + 1)).isSome

theorem says_first (image : Image ρ) : Says retire [image] image (delta retire none image) := by
  refine ⟨fun number => latest_numbered _ _ _, ?_, ?_, ?_⟩
  · intro epoch number hlt
    exact latest_numbered_ne _ _ (Nat.ne_of_lt hlt)
  · intro epoch number entry hlt hlatest
    rw [delta, latest_numbered_ne _ _ (Nat.ne_of_gt hlt)] at hlatest
    cases hlatest
  · intro earlier hmem number hnumber
    rw [mem_singleton] at hmem
    subst hmem
    rw [delta, latest_numbered, getElem?_eq_getElem hnumber]
    rfl

theorem Says.next {images : List (Image ρ)} {last next : Image ρ} {log : List (Entry ρ)}
    (h : Says retire images last log) (hfollows : Follows last next) :
    Says retire (images ++ [next]) next (log ++ delta retire (some last) next) := by
  rcases hfollows with ⟨hepoch, hlength⟩ | hepoch
  · have hpresent : ∀ number,
        latest (log ++ delta retire (some last) next) next.epoch (number + 1) =
          next.rows[number]?.map (Entry.mk next.epoch (number + 1)) := by
      intro number
      rw [latest_append, latest_delta_same retire hepoch, ← hepoch, h.present]
      split
      · rename_i hsame
        rw [hsame]
        rfl
      · rename_i hchanged
        cases hrow : next.rows[number]? with
        | some row => rfl
        | none =>
          have hlast : last.rows[number]? = none := by
            rw [getElem?_eq_none_iff] at hrow ⊢
            omega
          exact absurd (hlast.trans hrow.symm) hchanged
    have hother : ∀ epoch number, next.epoch ≠ epoch →
        latest (log ++ delta retire (some last) next) epoch number = latest log epoch number := by
      intro epoch number hne
      rw [latest_append, latest_delta_ne retire number (hepoch ▸ hne) hne]
      rfl
    refine ⟨hpresent, ?_, ?_, ?_⟩
    · intro epoch number hlt
      rw [hother epoch number (Nat.ne_of_lt hlt)]
      exact h.later epoch number (hepoch ▸ hlt)
    · intro epoch number entry hlt hlatest
      rw [hother epoch _ (Nat.ne_of_gt hlt)] at hlatest
      exact h.retired epoch number entry (hepoch ▸ hlt) hlatest
    · intro earlier hmem number hnumber
      rw [latest_append]
      rcases mem_append.mp hmem with hmem | hmem
      · rw [Option.isSome_or, h.kept earlier hmem number hnumber, Bool.or_true]
      · rw [mem_singleton] at hmem
        subst hmem
        rw [← latest_append, hpresent, getElem?_eq_getElem hnumber]
        rfl
  · have hdelta : delta retire (some last) next =
        numbered last.epoch (last.rows.map retire) ++ numbered next.epoch next.rows := by
      rw [delta, if_neg (Nat.ne_of_lt hepoch)]
    have hpresent : ∀ number,
        latest (log ++ delta retire (some last) next) next.epoch (number + 1) =
          next.rows[number]?.map (Entry.mk next.epoch (number + 1)) := by
      intro number
      rw [hdelta, latest_append, latest_append, latest_numbered,
        latest_numbered_ne _ _ (Nat.ne_of_lt hepoch), h.later _ _ hepoch, Option.or_none,
        Option.or_none]
    refine ⟨hpresent, ?_, ?_, ?_⟩
    · intro epoch number hlt
      rw [latest_append, latest_delta_ne retire number (by omega) (by omega),
        h.later _ _ (by omega)]
      rfl
    · intro epoch number entry hlt hlatest
      rw [hdelta, latest_append, latest_append, latest_numbered_ne _ _ (Nat.ne_of_gt hlt),
        Option.none_or] at hlatest
      -- A row of the last epoch is retired now; a row of an epoch before it was already.
      by_cases hlast : last.epoch = epoch
      · subst hlast
        rw [latest_numbered, h.present] at hlatest
        cases hrow : last.rows[number]? with
        | none => simp [hrow] at hlatest
        | some row =>
          simp only [getElem?_map, hrow, Option.map_some, Option.some_or,
            Option.some.injEq] at hlatest
          exact ⟨row, by rw [← hlatest]⟩
      · rw [latest_numbered_ne _ _ hlast, Option.none_or] at hlatest
        rcases Nat.lt_or_gt_of_ne hlast with hgt | hlt
        · rw [h.later _ _ hgt] at hlatest
          cases hlatest
        · exact h.retired epoch number entry hlt hlatest
    · intro earlier hmem number hnumber
      rcases mem_append.mp hmem with hmem | hmem
      · rw [latest_append, Option.isSome_or, h.kept earlier hmem number hnumber, Bool.or_true]
      · rw [mem_singleton] at hmem
        subst hmem
        rw [hpresent, getElem?_eq_getElem hnumber]
        rfl

theorem says_of_chain {images : List (Image ρ)} {image : Image ρ}
    (hchain : (images ++ [image]).IsChain Follows) :
    Says retire (images ++ [image]) image (deltas retire none (images ++ [image])).flatten := by
  induction images using List.reverseRecOn generalizing image with
  | nil =>
    have hfirst := says_first retire image
    simpa [deltas] using hfirst
  | append_singleton images last ih =>
    rw [deltas_append, flatten_append, flatten_singleton, getLast?_concat,
      Option.some_or]
    rw [isChain_append] at hchain
    obtain ⟨hbefore, -, hlink⟩ := hchain
    exact (ih hbefore).next retire (hlink last (by simp) image (by simp))

end Log

section Entries
theorem mem_numbered {epoch : Nat} {rows : List ρ} {entry : Entry ρ} :
    entry ∈ numbered epoch rows ↔ entry.epoch = epoch ∧ 0 < entry.number ∧
      rows[entry.number - 1]? = some entry.row := by
  rw [numbered, mem_mapIdx]
  constructor
  · rintro ⟨index, hindex, rfl⟩
    exact ⟨rfl, Nat.succ_pos _, List.getElem?_eq_getElem hindex⟩
  · rintro ⟨rfl, hpos, hrow⟩
    obtain ⟨hindex, hget⟩ := List.getElem?_eq_some_iff.mp hrow
    refine ⟨entry.number - 1, hindex, ?_⟩
    rw [hget, Nat.sub_add_cancel hpos]

theorem numbered_ne_nil (epoch : Nat) {rows : List ρ} (h : rows ≠ []) :
    ∃ entry ∈ numbered epoch rows, entry.epoch = epoch := by
  cases rows with
  | nil => exact absurd rfl h
  | cons row rest => exact ⟨⟨epoch, 1, row⟩, mem_numbered.mpr ⟨rfl, Nat.one_pos, rfl⟩, rfl⟩

variable [DecidableEq ρ] (retire : ρ → ρ) {next : Image ρ}

theorem epoch_of_mem_delta {last : Option (Image ρ)} {entry : Entry ρ}
    (h : entry ∈ delta retire last next) :
    entry.epoch = next.epoch ∨ ∃ image ∈ last, entry.epoch = image.epoch := by
  cases last with
  | none => exact .inl (mem_numbered.mp h).1
  | some last =>
    rw [delta] at h
    split at h
    · exact .inl (mem_numbered.mp (mem_filter.mp h).1).1
    · rcases mem_append.mp h with h | h
      · exact .inr ⟨last, rfl, (mem_numbered.mp h).1⟩
      · exact .inl (mem_numbered.mp h).1

variable {last : Image ρ}

theorem delta_of_empty (h : last.rows = []) :
    delta retire (some last) next = numbered next.epoch next.rows := by
  rw [delta, h]
  split
  · rw [filter_eq_self]
    intro entry _
    rfl
  · rfl

theorem numbered_subset_delta (h : last.epoch ≠ next.epoch) :
    numbered next.epoch next.rows ⊆ delta retire (some last) next := by
  intro entry hentry
  rw [delta, if_neg h]
  exact mem_append_right _ hentry

def Entry.key (entry : Entry ρ) : Nat × Nat := (entry.epoch, entry.number)

omit [DecidableEq ρ] in
theorem nodup_numbered (epoch : Nat) (rows : List ρ) :
    ((numbered epoch rows).map Entry.key).Nodup := by
  rw [nodup_iff_pairwise_ne, pairwise_map, pairwise_iff_getElem]
  intro i j hi hj hlt
  simp only [numbered, getElem_mapIdx, Entry.key]
  intro heq
  simp only [Prod.mk.injEq] at heq
  omega

theorem nodup_delta (last : Option (Image ρ)) (next : Image ρ) :
    ((delta retire last next).map Entry.key).Nodup := by
  cases last with
  | none => exact nodup_numbered _ _
  | some last =>
    rw [delta]
    split
    · exact (nodup_numbered _ _).sublist (filter_sublist.map _)
    · rename_i hne
      rw [map_append, nodup_append]
      refine ⟨nodup_numbered _ _, nodup_numbered _ _, ?_⟩
      intro left hleft right hright heq
      obtain ⟨entry, hentry, rfl⟩ := mem_map.mp hleft
      obtain ⟨other, hother, rfl⟩ := mem_map.mp hright
      have hepoch := congrArg Prod.fst heq
      simp only [Entry.key, (mem_numbered.mp hentry).1, (mem_numbered.mp hother).1] at hepoch
      exact hne hepoch

/-- The same entries, in any order. -/
def SameEntries (left right : List (Entry ρ)) : Prop := ∀ entry, entry ∈ left ↔ entry ∈ right

/-- If what an image adds is all its rows in the epoch `1`, that is its epoch, unless it has
no rows. -/
theorem epoch_of_baseline {last : Option (Image ρ)}
    (h : SameEntries (delta retire last next) (numbered 1 next.rows)) (hrows : next.rows ≠ []) :
    next.epoch = 1 := by
  have hone : ∀ entry ∈ delta retire last next, entry.epoch = 1 := fun entry hentry =>
    (mem_numbered.mp ((h entry).mp hentry)).1
  obtain ⟨first, hfirst, -⟩ := numbered_ne_nil 1 hrows
  cases last with
  | none =>
    obtain ⟨entry, hentry, hepoch⟩ := numbered_ne_nil next.epoch hrows
    rw [← hepoch]
    exact hone entry hentry
  | some last =>
    by_cases hsame : last.epoch = next.epoch
    · rcases epoch_of_mem_delta retire ((h first).mpr hfirst) with hepoch | ⟨_, ⟨⟩, hepoch⟩
      · rw [← hepoch]
        exact hone _ ((h first).mpr hfirst)
      · rw [← hsame, ← hepoch]
        exact hone _ ((h first).mpr hfirst)
    · obtain ⟨entry, hentry, hepoch⟩ := numbered_ne_nil next.epoch hrows
      rw [← hepoch]
      exact hone entry (numbered_subset_delta retire hsame hentry)

/-- Epochs rise by at most one from an image to the next. -/
def Steps (last next : Image ρ) : Prop := next.epoch = last.epoch ∨ next.epoch = last.epoch + 1

/-- An image whose epoch is not above its position. -/
def renumbered (position : Nat) (image : Image ρ) : Image ρ :=
  ⟨min image.epoch position, image.rows⟩

/-- Epochs counted anew from a position: each image in its own epoch until the old numbers
are reached. -/
def renumber (position : Nat) : List (Image ρ) → List (Image ρ)
  | [] => []
  | image :: rest => renumbered position image :: renumber (position + 1) rest

/-- The first image with rows has an epoch that its position has reached. -/
def CountsFrom (position : Nat) : List (Image ρ) → Prop
  | [] => True
  | image :: rest => (image.rows = [] → CountsFrom (position + 1) rest) ∧
      (image.rows ≠ [] → image.epoch ≤ position)

variable {images : List (Image ρ)}

omit [DecidableEq ρ] in
theorem renumber_eq_self {position : Nat} (hchain : (last :: images).IsChain Steps)
    (h : last.epoch ≤ position) :
    renumber (position + 1) images = images := by
  induction images generalizing position last with
  | nil => rfl
  | cons image rest ih =>
    rw [isChain_cons_cons] at hchain
    have hepoch : image.epoch ≤ position + 1 := by
      rcases hchain.1 with heq | heq <;> omega
    rw [renumber, ih hchain.2 hepoch, renumbered, Nat.min_eq_left hepoch]

omit [DecidableEq ρ] in
theorem sameEntries_numbered {left right : Nat} {rows : List ρ} (h : rows ≠ []) :
    SameEntries (numbered left rows) (numbered right rows) ↔ left = right := by
  constructor
  · intro hsame
    obtain ⟨entry, hentry, hepoch⟩ := numbered_ne_nil left h
    rw [← hepoch]
    exact (mem_numbered.mp ((hsame entry).mp hentry)).1
  · rintro rfl entry
    exact Iff.rfl

/-- After an image without rows, counting anew changes nothing in the log exactly when the
count has caught up with the first image that has rows. -/
theorem deltas_renumber_of_empty {position : Nat} (hchain : (last :: images).IsChain Steps)
    (hrows : last.rows = []) :
    List.Forall₂ SameEntries (deltas retire (some last) images)
        (deltas retire (some (renumbered position last)) (renumber (position + 1) images)) ↔
      CountsFrom (position + 1) images := by
  induction images generalizing position last with
  | nil => simp [deltas, renumber, CountsFrom]
  | cons image rest ih =>
    rw [isChain_cons_cons] at hchain
    rw [deltas, renumber, deltas, forall₂_cons, delta_of_empty retire hrows,
      delta_of_empty retire (show (renumbered position last).rows = [] from hrows), CountsFrom]
    by_cases himage : image.rows = []
    · rw [ih hchain.2 himage]
      simp [himage, renumbered, SameEntries, numbered]
    · have hsame : SameEntries (numbered image.epoch image.rows)
          (numbered (renumbered (position + 1) image).epoch (renumbered (position + 1) image).rows) ↔
            image.epoch ≤ position + 1 := by
        rw [show (renumbered (position + 1) image).rows = image.rows from rfl,
          sameEntries_numbered himage, renumbered]
        dsimp only
        omega
      rw [hsame]
      simp only [himage, ne_eq, false_implies, not_false_eq_true, true_implies, true_and]
      refine ⟨And.left, fun hepoch => ⟨hepoch, ?_⟩⟩
      rw [renumber_eq_self hchain.2 hepoch, renumbered, Nat.min_eq_left hepoch]
      exact forall₂_same.mpr fun _ _ _ => Iff.rfl

/-- Counting the epochs of a history anew, with its first image as a baseline, leaves the log
alone exactly when the first image recorded all its rows in the epoch `1` and nothing else,
and the count has caught up with the first image that has rows. -/
theorem deltas_renumber {before : Option (Image ρ)} {first : Image ρ}
    (hchain : (first :: images).IsChain Steps)
    (hpos : 0 < first.epoch) :
    List.Forall₂ SameEntries (deltas retire before (first :: images))
        (deltas retire none (renumber 1 (first :: images))) ↔
      SameEntries (delta retire before first) (numbered 1 first.rows) ∧
        CountsFrom 1 (first :: images) := by
  have hone : (renumbered 1 first).epoch = 1 := Nat.min_eq_right hpos
  rw [deltas, renumber, deltas, forall₂_cons, delta, hone]
  refine and_congr_right fun hfirst => ?_
  by_cases hrows : first.rows = []
  · rw [deltas_renumber_of_empty retire hchain hrows, CountsFrom]
    simp [hrows]
  · have hepoch := epoch_of_baseline retire hfirst hrows
    rw [renumber_eq_self hchain (Nat.le_of_eq hepoch), renumbered, hepoch, Nat.min_self, CountsFrom]
    simp only [hrows, false_implies, ne_eq, not_false_eq_true, true_implies, true_and, hepoch,
      Nat.le_refl, iff_true]
    have hself : (⟨1, first.rows⟩ : Image ρ) = first := by rw [← hepoch]
    rw [hself]
    exact forall₂_same.mpr fun _ _ _ => Iff.rfl

end Entries

end TxBase.Lib.Epochs
