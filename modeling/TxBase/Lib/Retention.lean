import Mathlib.Data.Finset.Card

/-! Collecting a history of states.  A history says what was recorded of each key at each
time; the state of a key at a time is the last one recorded.  A collection rebuilds what is
recorded from some time on, and of what was recorded before it keeps the newest entries of
each key.  The main result says exactly when no state that can still be asked for changes. -/
namespace TxBase.Lib.Retention
open List

variable {κ σ : Type} {answer : Option (Nat × σ)}

abbrev Records (κ σ : Type) := Nat → κ → Option σ

/-- The answer to a question for a key at a time, with the time when it was recorded. -/
def IsAt (records : Records κ σ) (time : Nat) (key : κ) : Option (Nat × σ) → Prop
  | none => ∀ t ≤ time, records t key = none
  | some (t, state) => t ≤ time ∧ records t key = some state ∧
      ∀ u, t < u → u ≤ time → records u key = none

section Answers
variable {records : Records κ σ} {time : Nat} {key : κ}

theorem isAt_self {state : σ} (h : records time key = some state) :
    IsAt records time key (some (time, state)) :=
  ⟨Nat.le_refl _, h, fun _ hlt hle => absurd hle (Nat.not_le.mpr hlt)⟩

theorem IsAt.congr {other : Records κ σ} (h : IsAt records time key answer)
    (heq : ∀ t ≤ time, other t key = records t key) : IsAt other time key answer := by
  match answer with
  | none => exact fun t ht => (heq t ht).trans (h t ht)
  | some (t, state) =>
    obtain ⟨ht, hstate, hlater⟩ := h
    exact ⟨ht, (heq t ht).trans hstate, fun u htu hu => (heq u hu).trans (hlater u htu hu)⟩

theorem exists_isAt (records : Records κ σ) (time : Nat) (key : κ) :
    ∃ answer, IsAt records time key answer := by
  induction time with
  | zero =>
    cases hzero : records 0 key with
    | none => exact ⟨none, fun t ht => by rwa [Nat.le_zero.mp ht]⟩
    | some state => exact ⟨_, isAt_self hzero⟩
  | succ time ih =>
    cases hnext : records (time + 1) key with
    | some state => exact ⟨_, isAt_self hnext⟩
    | none =>
      have hkept : ∀ {P : Nat → Prop}, P (time + 1) → (∀ t ≤ time, P t) → ∀ t ≤ time + 1, P t := by
        intro P hlast hrest t ht
        rcases Nat.lt_or_eq_of_le ht with hlt | rfl
        · exact hrest t (by omega)
        · exact hlast
      obtain ⟨answer, hanswer⟩ := ih
      refine ⟨answer, ?_⟩
      cases answer with
      | none => exact hkept hnext hanswer
      | some pair =>
        obtain ⟨hle, hstate, hlater⟩ := hanswer
        exact ⟨by omega, hstate, fun u hlt hu =>
          hkept (P := fun u => pair.1 < u → records u key = none) (fun _ => hnext)
            (fun u hu hlt => hlater u hlt hu) u hu hlt⟩

theorem IsAt.unique {other : Option (Nat × σ)} (h : IsAt records time key answer)
    (h' : IsAt records time key other) :
    answer = other := by
  match answer, other with
  | none, none => rfl
  | none, some (t, state) => exact absurd ((h t h'.1).symm.trans h'.2.1) (by simp)
  | some (t, state), none => exact absurd ((h' t h.1).symm.trans h.2.1) (by simp)
  | some (t, state), some (u, state') =>
    obtain ⟨hle, hstate, hlater⟩ := h
    obtain ⟨hle', hstate', hlater'⟩ := h'
    rcases Nat.lt_trichotomy t u with hlt | rfl | hlt
    · rw [hlater u hlt hle'] at hstate'
      cases hstate'
    · rw [hstate] at hstate'
      cases hstate'
      rfl
    · rw [hlater' t hlt hle] at hstate
      cases hstate

end Answers

section Between
variable (records : Records κ σ) (key : κ) (first : Nat)

/-- How often a key is recorded behind a time and before `first`. -/
def between (t : Nat) : Nat :=
  ((Finset.range first).filter fun u => t < u ∧ (records u key).isSome).card

variable {u t : Nat}

theorem between_mono (h : t ≤ u) : between records key first u ≤ between records key first t := by
  apply Finset.card_le_card
  intro v hv
  simp only [Finset.mem_filter, Finset.mem_range] at hv ⊢
  exact ⟨hv.1, by omega, hv.2.2⟩

theorem between_lt (hlt : t < u) (hfirst : u < first) (hrecorded : records u key ≠ none) :
    between records key first u < between records key first t := by
  apply Finset.card_lt_card
  rw [Finset.ssubset_iff_of_subset]
  · refine ⟨u, ?_, ?_⟩
    · simp [hfirst, hlt, Option.isSome_iff_ne_none, hrecorded]
    · simp
  · intro v hv
    simp only [Finset.mem_filter, Finset.mem_range] at hv ⊢
    exact ⟨hv.1, by omega, hv.2.2⟩

theorem between_eq_zero (h : ∀ u, t < u → u < first → records u key = none) :
    between records key first t = 0 := by
  rw [between, Finset.card_eq_zero, Finset.filter_eq_empty_iff]
  intro u hu hrecorded
  rw [Finset.mem_range] at hu
  simp [h u hrecorded.1 hu] at hrecorded

theorem between_congr (hle : t ≤ u) (h : ∀ v, t < v → v ≤ u → records v key = none) :
    between records key first t = between records key first u := by
  apply Nat.le_antisymm ?_ (between_mono records key first hle)
  apply Finset.card_le_card
  intro v hv
  simp only [Finset.mem_filter, Finset.mem_range] at hv ⊢
  refine ⟨hv.1, ?_, hv.2.2⟩
  by_contra hnot
  simp [h v hv.2.1 (by omega)] at hv

end Between

/-- The records after a collection: rebuilt from `first` on, and before it only where fewer
than `keep` records of the key follow. -/
def collected (records rebuilt : Records κ σ) (first keep : Nat) : Records κ σ := fun t key =>
  if t < first then if between records key first t < keep then records t key else none
  else rebuilt t key

/-- The times that can be asked for: those retained as a whole, and those before `first`
with a record that is kept. -/
def Askable (records : Records κ σ) (whole : Nat → Prop) (first keep t : Nat) : Prop :=
  whole t ∨ t < first ∧ ∃ key, records t key ≠ none ∧ between records key first t < keep

section Collected
variable {records rebuilt : Records κ σ} {whole : Nat → Prop} {first keep : Nat} {key : κ} {t : Nat}

theorem collected_before (ht : t < first) :
    collected records rebuilt first keep t key =
      if between records key first t < keep then records t key else none := if_pos ht

theorem collected_behind (ht : first ≤ t) :
    collected records rebuilt first keep t key = rebuilt t key := if_neg (Nat.not_lt.mpr ht)

theorem collected_later {u : Nat} (htu : t < u) (hu : u < first)
    (hkept : between records key first t < keep)
    (hrecorded : records u key ≠ none) :
    collected records rebuilt first keep u key ≠ none := by
  have hless := between_lt records key first htu hu hrecorded
  rwa [collected_before hu, if_pos (by omega)]

theorem exists_last {time : Nat} (hle : t ≤ time) (h : records t key ≠ none) :
    ∃ u ≤ time, records u key ≠ none ∧ ∀ v, u < v → v ≤ time → records v key = none := by
  obtain ⟨answer, hanswer⟩ := exists_isAt records time key
  cases answer with
  | none => exact absurd (hanswer t hle) h
  | some pair =>
    obtain ⟨hle, hstate, hlater⟩ := hanswer
    exact ⟨pair.1, hle, by simp [hstate], hlater⟩

/-- What a collection must meet to change no answer. -/
structure Harmless (records rebuilt : Records κ σ) (whole : Nat → Prop) (first keep : Nat) :
    Prop where
  rebuilt : ∀ t, whole t → ∀ key, rebuilt t key = records t key
  older : 0 < keep ∨ ∀ t key, t < first → records t key ≠ none → records first key ≠ none
  kept : ∀ t < first, (∃ other, records t other ≠ none ∧ between records other first t < keep) →
    ∀ u key, u ≤ t → records u key ≠ none → between records key first t < keep

theorem harmless_of_same (hfirst : whole first) (hwhole : ∀ t, whole t → first ≤ t)
    (h : ∀ t, Askable records whole first keep t → ∀ key answer,
      IsAt (collected records rebuilt first keep) t key answer → IsAt records t key answer) :
    Harmless records rebuilt whole first keep := by
  have hrebuilt : ∀ t, whole t → ∀ key, rebuilt t key = records t key := by
    intro t ht key
    have hcollected : collected records rebuilt first keep t key = rebuilt t key :=
      collected_behind (hwhole t ht)
    cases hstate : records t key with
    | some state =>
      -- The answer is what was recorded at this very time.
      obtain ⟨answer, hanswer⟩ := exists_isAt (collected records rebuilt first keep) t key
      have hsame := (h t (.inl ht) key answer hanswer).unique (isAt_self hstate)
      subst hsame
      rw [← hcollected]
      exact hanswer.2.1
    | none =>
      cases hother : rebuilt t key with
      | none => rfl
      | some state =>
        have hanswer := h t (.inl ht) key _ (isAt_self (hcollected.trans hother))
        rw [hanswer.2.1] at hstate
        cases hstate
  refine ⟨hrebuilt, ?_, ?_⟩
  · rcases Nat.eq_zero_or_pos keep with rfl | hpos
    · right
      intro t key ht hrecorded hmissing
      have hnone : IsAt (collected records rebuilt first 0) first key none := by
        intro u hu
        rcases Nat.lt_or_eq_of_le hu with hlt | rfl
        · rw [collected_before hlt, if_neg (Nat.not_lt_zero _)]
        · rw [collected_behind (Nat.le_refl _), hrebuilt _ hfirst, hmissing]
      exact hrecorded (h first (.inl hfirst) key none hnone t (Nat.le_of_lt ht))
    · exact .inl hpos
  · intro t ht hasked u key hu hrecorded
    by_contra hfew
    have hnone : IsAt (collected records rebuilt first keep) t key none := by
      intro v hv
      have hmore := between_mono records key first hv
      rw [collected_before (by omega), if_neg (by omega)]
    exact hrecorded (h t (.inr ⟨ht, hasked⟩) key none hnone u hu)

theorem Harmless.same (h : Harmless records rebuilt whole first keep)
    (hwhole : ∀ t, whole t → first ≤ t)
    (hnothing : ∀ t key, first ≤ t → ¬whole t → rebuilt t key = none ∧ records t key = none)
    (ht : Askable records whole first keep t)
    (hanswer : IsAt (collected records rebuilt first keep) t key answer) :
    IsAt records t key answer := by
  have hbehind : ∀ u, first ≤ u →
      collected records rebuilt first keep u key = records u key := by
    intro u hu
    rw [collected_behind hu]
    by_cases hu' : whole u
    · exact h.rebuilt u hu' key
    · rw [(hnothing u key hu hu').1, (hnothing u key hu hu').2]
  match answer with
  | none =>
    intro v hv
    by_contra hrecorded
    -- The last record of the key up to this time was not kept.
    obtain ⟨u, hu, hstate, hlater⟩ := exists_last hv hrecorded
    have hgone := hanswer u hu
    rcases Nat.lt_or_ge u first with hlt | hge
    · have hmany : ¬between records key first u < keep := by
        intro hfew
        rw [collected_before hlt, if_pos hfew] at hgone
        exact hstate hgone
      rcases ht with ht | ⟨ht, hasked⟩
      · have hnone := between_eq_zero records key first fun w huw hw =>
          hlater w huw (Nat.le_trans (Nat.le_of_lt hw) (hwhole t ht))
        rcases h.older with hpos | holder
        · omega
        · exact holder u key hlt hstate (hlater first hlt (hwhole t ht))
      · have hfew := h.kept t ht hasked u key hu hstate
        rw [between_congr records key first hu hlater] at hmany
        exact hmany hfew
    · rw [hbehind u hge] at hgone
      exact hstate hgone
  | some (u, state) =>
    obtain ⟨hu, hstate, hlater⟩ := hanswer
    rcases Nat.lt_or_ge u first with hlt | hge
    · rw [collected_before hlt, Option.ite_none_right_eq_some] at hstate
      refine ⟨hu, hstate.2, fun v huv hv => ?_⟩
      rcases Nat.lt_or_ge v first with hvlt | hvge
      · by_contra hrecorded
        exact collected_later huv hvlt hstate.1 hrecorded (hlater v huv hv)
      · rw [← hbehind v hvge]
        exact hlater v huv hv
    · rw [hbehind u hge] at hstate
      refine ⟨hu, hstate, fun v huv hv => ?_⟩
      rw [← hbehind v (by omega)]
      exact hlater v huv hv

theorem same_iff_harmless (hfirst : whole first) (hwhole : ∀ t, whole t → first ≤ t)
    (hnothing : ∀ t key, first ≤ t → ¬whole t → rebuilt t key = none ∧ records t key = none) :
    (∀ t, Askable records whole first keep t → ∀ key answer,
      IsAt (collected records rebuilt first keep) t key answer → IsAt records t key answer) ↔
        Harmless records rebuilt whole first keep :=
  ⟨harmless_of_same hfirst hwhole,
    fun h _ ht _ _ hanswer => h.same hwhole hnothing ht hanswer⟩

end Collected

theorem mem_take_reverse {α : Type} {time : α → Nat} {items : List α}
    (h : items.Pairwise fun left right => time left < time right) (keep : Nat) {item : α} :
    item ∈ items.reverse.take keep ↔
      item ∈ items ∧ (items.filter fun other => time item < time other).length < keep := by
  induction items using List.reverseRecOn generalizing keep with
  | nil => simp
  | append_singleton front last ih =>
    rw [pairwise_append] at h
    have hlast : ∀ other ∈ front, time other < time last := fun other hother =>
      h.2.2 other hother last mem_cons_self
    rw [reverse_append, reverse_singleton, singleton_append, mem_append,
      mem_singleton, filter_append]
    cases keep with
    | zero => simp
    | succ keep =>
      rw [take_succ_cons, mem_cons, ih h.1]
      by_cases hitem : item ∈ front
      · have hne : item ≠ last := fun heq => Nat.lt_irrefl _ (heq ▸ hlast item hitem)
        simp [hitem, hne, hlast item hitem]
      · have hnone : front.filter (fun other => decide (time last < time other)) = [] := by
          rw [filter_eq_nil_iff]
          intro other hother
          simpa using Nat.le_of_lt (hlast other hother)
        constructor
        · rintro (rfl | ⟨hmem, -⟩)
          · simp [hnone]
          · exact absurd hmem hitem
        · rintro ⟨hmem | rfl, -⟩
          · exact absurd hmem hitem
          · exact .inl rfl

end TxBase.Lib.Retention
