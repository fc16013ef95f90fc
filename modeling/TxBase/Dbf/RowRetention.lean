import TxBase.Dbf.CommittedRows
import TxBase.Lib.Retention

/-! Which older versions of rows a collection keeps, `detached_history` of
`src/dbf/row_mvcc.rs`, in terms of what each transaction recorded of each row. -/
namespace TxBase.Dbf
open Lib List
open Retention (Records IsAt between)
open OrderedMap (Ascending get? mem_foldl_push)
variable {changes : OrderedMap Nat (List RowChange)} {txn : Nat} {change : RowChange}

def RowChange.state (change : RowChange) : RowState :=
  (change.deleted, canonicalValues change.values)

/-- What a read answers, up to `==`: the transaction and the state of the row. -/
def RowVersion.answer (version : RowVersion) : Nat × RowState :=
  (version.transactionId, version.deleted, canonicalValues version.values)

def changeOf (changes : List RowChange) (id : RowId) : Option RowChange :=
  changes.find? fun change => change.id = id

/-- What each transaction recorded of each row. -/
def recordedBy (changes : OrderedMap Nat (List RowChange)) : Records RowId RowState :=
  fun transactionId id =>
    ((changes.get? transactionId).bind fun own => changeOf own id).map RowChange.state

/-- The transactions rise, and each records a row at most once. -/
structure Orderly (changes : OrderedMap Nat (List RowChange)) : Prop where
  ascending : Ascending changes
  distinct : ∀ entry ∈ changes, (entry.2.map RowChange.id).Nodup

section Answers

theorem changeOf_eq_some {changes : List RowChange} (h : (changes.map RowChange.id).Nodup)
    {id : RowId} :
    changeOf changes id = some change ↔ change ∈ changes ∧ change.id = id := by
  constructor
  · intro hfind
    exact ⟨mem_of_find?_eq_some hfind, by simpa using find?_some hfind⟩
  · rintro ⟨hmem, rfl⟩
    cases hfind : changeOf changes change.id with
    | none =>
      have hnone := find?_eq_none.mp hfind change hmem
      simp at hnone
    | some other =>
      have hother : other.id = change.id := by simpa using find?_some hfind
      rw [inj_on_of_nodup_map h (mem_of_find?_eq_some hfind) hmem hother]

theorem changeOf_cons (change : RowChange) (rest : List RowChange) (id : RowId) :
    changeOf (change :: rest) id = if change.id = id then some change else changeOf rest id := by
  rw [changeOf, find?_cons]
  by_cases hid : change.id = id <;> simp [hid, changeOf]

theorem foldl_noteChange_distinct {changes : List RowChange} (h : (changes.map RowChange.id).Nodup)
    (id : RowId) (txn : Nat) (current : Option RowVersion) :
    changes.foldl (noteChange id txn) current =
      ((changeOf changes id).map (toVersion txn)).or current := by
  induction changes generalizing current with
  | nil => rfl
  | cons change rest ih =>
    rw [map_cons, nodup_cons] at h
    rw [foldl_cons, ih h.2, noteChange, changeOf_cons]
    by_cases hid : change.id = id
    · have hnone : changeOf rest id = none := by
        rw [changeOf, find?_eq_none]
        intro other hother
        simp only [decide_eq_true_eq]
        rintro rfl
        exact h.1 (hid ▸ mem_map_of_mem hother)
      rw [hnone, if_pos hid, if_pos hid]
      rfl
    · rw [if_neg hid, if_neg hid]

variable {entry : Nat × List RowChange}

theorem Orderly.front {front : OrderedMap Nat (List RowChange)} (h : Orderly (front ++ [entry])) :
    Orderly front ∧ (∀ other ∈ front, other.1 < entry.1) ∧ (entry.2.map RowChange.id).Nodup := by
  obtain ⟨hascending, hdistinct⟩ := h
  rw [Ascending, pairwise_append] at hascending
  refine ⟨⟨hascending.1, fun other hother => hdistinct other (mem_append_left _ hother)⟩, ?_,
    hdistinct entry (mem_append_right _ mem_cons_self)⟩
  intro other hother
  exact hascending.2.2 other hother entry mem_cons_self

theorem recordedBy_append {front : OrderedMap Nat (List RowChange)}
    (h : ∀ other ∈ front, other.1 < entry.1)
    (txn : Nat) (id : RowId) :
    recordedBy (front ++ [entry]) txn id =
      if txn = entry.1 then (changeOf entry.2 id).map RowChange.state
      else recordedBy front txn id := by
  obtain ⟨last, own⟩ := entry
  rw [recordedBy, OrderedMap.get?_append]
  by_cases heq : txn = last
  · subst heq
    have hnone := OrderedMap.get?_eq_none fun other hother => Nat.ne_of_lt (h other hother)
    simp [hnone, get?]
  · rw [if_neg heq]
    simp [get?, Ne.symm heq, recordedBy]

theorem recordedBy_eq_none (h : ∀ entry ∈ changes, entry.1 ≠ txn) (id : RowId) :
    recordedBy changes txn id = none := by
  rw [recordedBy, OrderedMap.get?_eq_none h]
  rfl

theorem versionAt_isAt (h : Orderly changes) (txn : Nat) (id : RowId) :
    IsAt (recordedBy changes) txn id ((versionAt changes txn id).map RowVersion.answer) := by
  induction changes using List.reverseRecOn with
  | nil => exact fun _ _ => rfl
  | append_singleton front entry ih =>
    obtain ⟨hfront, hlast, hdistinct⟩ := h.front
    have hrecorded := recordedBy_append hlast
    by_cases hle : entry.1 ≤ txn
    · have hversion : versionAt (front ++ [entry]) txn id =
          ((changeOf entry.2 id).map (toVersion entry.1)).or (versionAt front txn id) := by
        simp only [versionAt, filter_append, filter_cons, hle, decide_true, if_true,
          filter_nil, foldl_append, foldl_cons, foldl_nil,
          foldl_noteChange_distinct hdistinct]
      rw [hversion]
      cases hchange : changeOf entry.2 id with
      | some change =>
        show IsAt _ _ _ (some (entry.1, change.state))
        refine ⟨hle, by rw [hrecorded, if_pos rfl, hchange]; rfl, fun u hlt _ => ?_⟩
        rw [hrecorded, if_neg (Nat.ne_of_gt hlt)]
        exact recordedBy_eq_none (fun other hother => by
          have hbefore := hlast other hother
          omega) id
      | none =>
        refine (ih hfront).congr fun u _ => ?_
        rw [hrecorded, hchange]
        split
        · rename_i heq
          subst heq
          exact (recordedBy_eq_none (fun other hother => Nat.ne_of_lt (hlast other hother)) id).symm
        · rfl
    · have hversion : versionAt (front ++ [entry]) txn id =
          versionAt front txn id := by
        simp [versionAt, hle]
      rw [hversion]
      refine (ih hfront).congr fun u hu => ?_
      rw [hrecorded, if_neg (by omega)]

end Answers

section Detached

def flatChanges (changes : OrderedMap Nat (List RowChange)) : List (Nat × RowChange) :=
  changes.flatMap fun entry => entry.2.map (Prod.mk entry.1)

theorem mem_flatChanges :
    (txn, change) ∈ flatChanges changes ↔ ∃ own, (txn, own) ∈ changes ∧ change ∈ own := by
  simp only [flatChanges, mem_flatMap, mem_map, Prod.mk.injEq, Prod.exists]
  constructor
  · rintro ⟨_, own, hown, _, hchange, rfl, rfl⟩
    exact ⟨own, hown, hchange⟩
  · rintro ⟨own, hown, hchange⟩
    exact ⟨txn, own, hown, change, hchange, rfl, rfl⟩

variable {id : RowId}

theorem Orderly.recordedBy_eq_some (h : Orderly changes) {state : RowState} :
    recordedBy changes txn id = some state ↔
      ∃ change, (txn, change) ∈ flatChanges changes ∧ change.id = id ∧
        change.state = state := by
  have hget : ∀ {own : List RowChange}, changes.get? txn = some own ↔
      (txn, own) ∈ changes := fun {own} =>
    ⟨OrderedMap.mem_of_get?, OrderedMap.get?_of_mem h.ascending.nodup⟩
  simp only [recordedBy, Option.map_eq_some_iff, Option.bind_eq_some_iff, hget, mem_flatChanges]
  constructor
  · rintro ⟨change, ⟨own, hown, hchange⟩, rfl⟩
    rw [changeOf_eq_some (h.distinct _ hown)] at hchange
    exact ⟨change, ⟨own, hown, hchange.1⟩, hchange.2, rfl⟩
  · rintro ⟨change, ⟨own, hown, hchange⟩, hid, rfl⟩
    exact ⟨change, ⟨own, hown, (changeOf_eq_some (h.distinct _ hown)).mpr ⟨hchange, hid⟩⟩, rfl⟩

theorem Orderly.isSome_recordedBy (h : Orderly changes) :
    (recordedBy changes txn id).isSome ↔
      ∃ change, (txn, change) ∈ flatChanges changes ∧ change.id = id := by
  rw [Option.isSome_iff_exists]
  constructor
  · rintro ⟨state, hstate⟩
    obtain ⟨change, hmem, hid, -⟩ := h.recordedBy_eq_some.mp hstate
    exact ⟨change, hmem, hid⟩
  · rintro ⟨change, hmem, hid⟩
    exact ⟨_, h.recordedBy_eq_some.mpr ⟨change, hmem, hid, rfl⟩⟩

theorem Orderly.pairwise_row (h : Orderly changes) (id : RowId) :
    ((flatChanges changes).filter fun entry => entry.2.id = id).Pairwise
      fun left right => left.1 < right.1 := by
  induction changes using List.reverseRecOn with
  | nil => exact .nil
  | append_singleton front entry ih =>
    obtain ⟨hfront, hlast, hdistinct⟩ := h.front
    have hflat : flatChanges (front ++ [entry]) =
        flatChanges front ++ entry.2.map (Prod.mk entry.1) := by simp [flatChanges]
    rw [hflat, filter_append, pairwise_append]
    refine ⟨ih hfront, ?_, ?_⟩
    · rw [filter_map, pairwise_map]
      -- A transaction records the row at most once.
      rw [nodup_iff_pairwise_ne, pairwise_map] at hdistinct
      refine (hdistinct.filter _).imp_of_mem ?_
      intro left right hleft hright hne
      have hleft := (mem_filter.mp hleft).2
      have hright := (mem_filter.mp hright).2
      simp only [Function.comp_apply, decide_eq_true_eq] at hleft hright
      exact absurd (hleft.trans hright.symm) hne
    · intro left hleft right hright
      obtain ⟨own, hown, -⟩ := mem_flatChanges.mp (mem_filter.mp hleft).1
      obtain ⟨change, -, rfl⟩ := mem_map.mp (mem_filter.mp hright).1
      exact hlast _ hown

variable {firstRetained : Nat}

/-- The part of the history before a transaction. -/
def beforeFirst (changes : OrderedMap Nat (List RowChange)) (firstRetained : Nat) :
    OrderedMap Nat (List RowChange) :=
  changes.filter fun entry => entry.1 < firstRetained

theorem Orderly.filter (h : Orderly changes) (p : Nat × List RowChange → Bool) :
    Orderly (changes.filter p) :=
  ⟨h.ascending.filter p, fun entry hentry => h.distinct entry (mem_filter.mp hentry).1⟩

variable {entry : Nat × RowChange}

theorem mem_flatChanges_before :
    entry ∈ flatChanges (beforeFirst changes firstRetained) ↔
      entry ∈ flatChanges changes ∧ entry.1 < firstRetained := by
  obtain ⟨txn, change⟩ := entry
  simp only [mem_flatChanges, beforeFirst, mem_filter, decide_eq_true_eq]
  constructor
  · rintro ⟨own, ⟨hown, hlt⟩, hchange⟩
    exact ⟨⟨own, hown, hchange⟩, hlt⟩
  · rintro ⟨⟨own, hown, hchange⟩, hlt⟩
    exact ⟨own, ⟨hown, hlt⟩, hchange⟩

theorem changesByRow_eq (changes : OrderedMap Nat (List RowChange)) (firstRetained : Nat) :
    changesByRow changes firstRetained =
      (flatChanges (beforeFirst changes firstRetained)).foldl
        (fun byRow entry => OrderedMap.push entry.2.id entry byRow) [] := by
  simp only [changesByRow, flatChanges, beforeFirst, foldl_flatMap, foldl_map]

def versionsOf (changes : OrderedMap Nat (List RowChange)) (firstRetained : Nat) (id : RowId) :
    List (Nat × RowChange) :=
  (flatChanges (beforeFirst changes firstRetained)).filter fun entry => entry.2.id = id

theorem mem_changesByRow {versions : List (Nat × RowChange)} :
    (id, versions) ∈ changesByRow changes firstRetained ↔
      versions ≠ [] ∧ versions = versionsOf changes firstRetained id := by
  rw [changesByRow_eq,
    mem_foldl_push (fun entry : Nat × RowChange => entry.2.id) fun entry => entry,
    map_id']
  rfl

theorem Orderly.pairwise_versions (h : Orderly changes) (id : RowId) :
    (versionsOf changes firstRetained id).Pairwise fun left right => left.1 < right.1 :=
  (h.filter fun entry => entry.1 < firstRetained).pairwise_row id

theorem length_later (h : Orderly changes) (id : RowId) (txn : Nat) :
    ((versionsOf changes firstRetained id).filter fun entry => txn < entry.1).length =
      between (recordedBy changes) id firstRetained txn := by
  have hnodup : (((versionsOf changes firstRetained id).filter fun entry =>
      txn < entry.1).map Prod.fst).Nodup := by
    rw [nodup_iff_pairwise_ne, pairwise_map]
    exact ((h.pairwise_versions id).filter _).imp Nat.ne_of_lt
  rw [between, ← length_map Prod.fst, ← toFinset_card_of_nodup hnodup]
  congr 1
  ext u
  simp only [mem_toFinset, mem_map, mem_filter, Finset.mem_filter, Finset.mem_range,
    versionsOf, mem_flatChanges_before, h.isSome_recordedBy, decide_eq_true_eq, Prod.exists]
  constructor
  · rintro ⟨_, change, ⟨⟨⟨hmem, hlt⟩, hid⟩, hlater⟩, rfl⟩
    exact ⟨hlt, hlater, change, hmem, hid⟩
  · rintro ⟨hlt, hlater, change, hmem, hid⟩
    exact ⟨u, change, ⟨⟨⟨hmem, hlt⟩, hid⟩, hlater⟩, rfl⟩

variable {keep : Nat}

/-- The versions that are kept: those that fewer than `keep` versions of their row follow. -/
theorem mem_selected (h : Orderly changes) :
    entry ∈ (changesByRow changes firstRetained).flatMap (fun row => row.2.reverse.take keep) ↔
      entry ∈ flatChanges changes ∧ entry.1 < firstRetained ∧
        between (recordedBy changes) entry.2.id firstRetained entry.1 < keep := by
  have htake : ∀ id, entry ∈ (versionsOf changes firstRetained id).reverse.take keep ↔
      entry ∈ versionsOf changes firstRetained id ∧
        between (recordedBy changes) id firstRetained entry.1 < keep := by
    intro id
    rw [Retention.mem_take_reverse (h.pairwise_versions id), ← length_later h]
  simp only [mem_flatMap, Prod.exists, mem_changesByRow]
  constructor
  · rintro ⟨id, _, ⟨-, rfl⟩, hentry⟩
    obtain ⟨hmem, hfew⟩ := (htake id).mp hentry
    obtain ⟨hmem, hid⟩ := mem_filter.mp hmem
    rw [decide_eq_true_eq] at hid
    obtain ⟨hmem, hlt⟩ := mem_flatChanges_before.mp hmem
    exact ⟨hmem, hlt, hid ▸ hfew⟩
  · rintro ⟨hmem, hlt, hfew⟩
    have hversion : entry ∈ versionsOf changes firstRetained entry.2.id :=
      mem_filter.mpr ⟨mem_flatChanges_before.mpr ⟨hmem, hlt⟩, by simp⟩
    exact ⟨entry.2.id, _, ⟨ne_nil_of_mem hversion, rfl⟩, (htake _).mpr ⟨hversion, hfew⟩⟩

theorem mem_detached {own : List RowChange} :
    (txn, own) ∈ detachedHistory changes firstRetained keep ↔ own ≠ [] ∧
      own = ((((changesByRow changes firstRetained).flatMap fun row =>
        row.2.reverse.take keep).insertionSort detachedBefore).filter fun entry =>
          entry.1 = txn).map Prod.snd :=
  mem_foldl_push (fun entry : Nat × RowChange => entry.1) Prod.snd _

theorem detached_ascending (changes : OrderedMap Nat (List RowChange)) (firstRetained keep : Nat) :
    Ascending (detachedHistory changes firstRetained keep) :=
  OrderedMap.Ascending.foldl_push (fun entry : Nat × RowChange => entry.1) Prod.snd _
    List.Pairwise.nil

section
variable (h : Orderly changes)
include h

theorem mem_flatChanges_detached :
    entry ∈ flatChanges (detachedHistory changes firstRetained keep) ↔
      entry ∈ flatChanges changes ∧ entry.1 < firstRetained ∧
        between (recordedBy changes) entry.2.id firstRetained entry.1 < keep := by
  rw [← mem_selected h]
  obtain ⟨txn, change⟩ := entry
  simp only [mem_flatChanges, mem_detached]
  have hmem : ∀ {own : List RowChange}, own = ((((changesByRow changes firstRetained).flatMap
      fun row => row.2.reverse.take keep).insertionSort detachedBefore).filter fun entry =>
        entry.1 = txn).map Prod.snd →
      (change ∈ own ↔ (txn, change) ∈ (changesByRow changes firstRetained).flatMap
        fun row => row.2.reverse.take keep) := by
    rintro own rfl
    simp only [mem_map, mem_filter, mem_insertionSort, decide_eq_true_eq,
      Prod.exists]
    constructor
    · rintro ⟨_, _, ⟨hselected, rfl⟩, rfl⟩
      exact hselected
    · intro hselected
      exact ⟨txn, change, ⟨hselected, rfl⟩, rfl⟩
  constructor
  · rintro ⟨own, ⟨-, hown⟩, hchange⟩
    exact (hmem hown).mp hchange
  · intro hselected
    have hchange := (hmem rfl).mpr hselected
    exact ⟨_, ⟨ne_nil_of_mem hchange, rfl⟩, hchange⟩

theorem pairwise_selected (firstRetained keep : Nat) :
    ((changesByRow changes firstRetained).flatMap fun row => row.2.reverse.take keep).Pairwise
      fun left right => left.1 = right.1 → left.2.id ≠ right.2.id := by
  have hascending : Ascending (changesByRow changes firstRetained) := by
    rw [changesByRow_eq]
    exact OrderedMap.Ascending.foldl_push (fun entry : Nat × RowChange => entry.2.id)
      (fun entry => entry) _ List.Pairwise.nil
  have hversions : ∀ row ∈ changesByRow changes firstRetained,
      row.2 = versionsOf changes firstRetained row.1 := fun row hrow => (mem_changesByRow.mp hrow).2
  have hid : ∀ row ∈ changesByRow changes firstRetained, ∀ entry ∈ row.2.reverse.take keep,
      entry.2.id = row.1 := by
    intro row hrow entry hentry
    have hmem := mem_reverse.mp (mem_of_mem_take hentry)
    rw [hversions row hrow] at hmem
    simpa using (mem_filter.mp hmem).2
  rw [pairwise_flatMap]
  constructor
  · intro row hrow
    have hpairwise : (versionsOf changes firstRetained row.1).Pairwise _ :=
      h.pairwise_versions row.1
    rw [← hversions row hrow] at hpairwise
    refine ((pairwise_reverse.mpr hpairwise).sublist (take_sublist _ _)).imp ?_
    intro left right hlt heq
    omega
  · refine hascending.imp_of_mem ?_
    intro left right hleft hright hlt entry hentry other hother _ heq
    rw [hid left hleft entry hentry, hid right hright other hother] at heq
    exact absurd heq (ne_of_lt hlt)

theorem detached_orderly (firstRetained keep : Nat) :
    Orderly (detachedHistory changes firstRetained keep) := by
  refine ⟨detached_ascending changes firstRetained keep, ?_⟩
  rintro ⟨txn, own⟩ hentry
  obtain ⟨-, rfl⟩ := mem_detached.mp hentry
  have hpairwise := (perm_insertionSort detachedBefore _).symm.pairwise
    (pairwise_selected h firstRetained keep) (fun hne heq => Ne.symm (hne heq.symm))
  rw [map_map, nodup_iff_pairwise_ne, pairwise_map]
  refine (hpairwise.filter _).imp_of_mem ?_
  intro left right hleft hright hne
  have hleft := (mem_filter.mp hleft).2
  have hright := (mem_filter.mp hright).2
  simp only [decide_eq_true_eq] at hleft hright
  exact hne (hleft.trans hright.symm)

theorem recordedBy_detached (firstRetained keep txn : Nat)
    (id : RowId) :
    recordedBy (detachedHistory changes firstRetained keep) txn id =
      if txn < firstRetained ∧
          between (recordedBy changes) id firstRetained txn < keep then
        recordedBy changes txn id
      else none := by
  apply Option.ext
  intro state
  rw [(detached_orderly h firstRetained keep).recordedBy_eq_some, Option.ite_none_right_eq_some,
    h.recordedBy_eq_some]
  simp only [mem_flatChanges_detached h]
  constructor
  · rintro ⟨change, ⟨hmem, hlt, hfew⟩, rfl, hstate⟩
    exact ⟨⟨hlt, hfew⟩, change, hmem, rfl, hstate⟩
  · rintro ⟨⟨hlt, hfew⟩, change, hmem, rfl, hstate⟩
    exact ⟨change, ⟨hmem, hlt, hfew⟩, rfl, hstate⟩

end

end Detached

end TxBase.Dbf
