import TxBase.Dbf.GarbageCollection

/-! Which collections leave the reads of rows alone. -/
namespace TxBase.Dbf
open Lib Json List
open Outcome (lift lift_eq_ok)
open Retention (Records IsAt between Askable)
open OrderedMap (get? Ascending)
open Serde (Keeps listed RefusesEmpty)
open Epochs (SameEntries Steps)
variable {changes left right older kept : OrderedMap Nat (List RowChange)} {id : RowId}
  {txn keepLast : Nat} {log after : LogFile} {keepRows : Option Nat} {records : List MvccRecord}
  {snapshots : OrderedMap Nat Snapshot} {rebuilt retained : List (Nat × Snapshot)}
  {first : Nat × Snapshot}
  {own : List RowChange}

theorem changeOf_state (changes : List RowChange) (id : RowId) :
    (changeOf changes id).map RowChange.state =
      ((changes.map RowChange.entry).find? fun entry =>
        entry.epoch = id.epoch ∧ entry.number = id.recordNumber).map Epochs.Entry.row := by
  induction changes with
  | nil => rfl
  | cons change rest ih =>
    have hid : change.id = id ↔
        change.entry.epoch = id.epoch ∧ change.entry.number = id.recordNumber := by
      obtain ⟨epoch, number⟩ := id
      simp [RowChange.id, RowChange.entry]
    rw [changeOf_cons, map_cons, find?_cons]
    by_cases hsame : change.id = id
    · rw [if_pos hsame]
      simp only [hid.mp hsame, and_self, decide_true]
      rfl
    · rw [if_neg hsame, ih]
      simp only [mt hid.mpr hsame, decide_false]

def SameRows (left right : Nat × List RowChange) : Prop :=
  right.1 = left.1 ∧ right.2.map RowChange.entry = left.2.map RowChange.entry

theorem recordedBy_congr (h : List.Forall₂ SameRows left right) :
    recordedBy right = recordedBy left := by
  funext txn id
  unfold recordedBy
  induction h with
  | nil => rfl
  | @cons first second _ _ hfirst _ ih =>
    obtain ⟨hid, hentries⟩ := hfirst
    obtain ⟨firstId, own⟩ := first
    obtain ⟨secondId, other⟩ := second
    dsimp only at hid hentries
    subst hid
    simp only [get?] at ih ⊢
    by_cases heq : secondId = txn
    · simp only [heq, if_true, Option.bind_some, changeOf_state, hentries]
    · simpa only [heq, if_false] using ih

theorem recordedBy_of_get? (h : changes.get? txn = some own)
    (hdistinct : (own.map RowChange.id).Nodup)
    {state : RowState} :
    recordedBy changes txn id = some state ↔
      ⟨id.epoch, id.recordNumber, state⟩ ∈ own.map RowChange.entry := by
  rw [recordedBy, h, Option.bind_some, Option.map_eq_some_iff, mem_map]
  simp only [changeOf_eq_some hdistinct]
  constructor
  · rintro ⟨change, ⟨hmem, rfl⟩, rfl⟩
    exact ⟨change, hmem, rfl⟩
  · rintro ⟨change, hmem, hentry⟩
    obtain ⟨epoch, number⟩ := id
    cases hentry
    exact ⟨change, ⟨hmem, rfl⟩, rfl⟩

theorem recordedBy_append_of_lt {front back : OrderedMap Nat (List RowChange)} {first : Nat}
    (hfront : ∀ entry ∈ front, entry.1 < first) (hback : ∀ entry ∈ back, first ≤ entry.1)
    (txn : Nat) (id : RowId) :
    recordedBy (front ++ back) txn id =
      if txn < first then recordedBy front txn id
      else recordedBy back txn id := by
  rw [recordedBy, OrderedMap.get?_append]
  split
  · have hnone : back.get? txn = none := OrderedMap.get?_eq_none fun entry hentry => by
      have := hback entry hentry
      omega
    rw [hnone, Option.or_none]
    rfl
  · have hnone : front.get? txn = none := OrderedMap.get?_eq_none fun entry hentry => by
      have := hfront entry hentry
      omega
    rw [hnone, Option.none_or]
    rfl

theorem recordedBy_detachedFor (h : Orderly changes)
    (hfirst : retained.head? = some first) (txn : Nat)
    (id : RowId) :
    recordedBy (detachedFor keepRows retained changes) txn id =
      if txn < first.1 ∧
          between (recordedBy changes) id first.1 txn < keepRows.getD 0 then
        recordedBy changes txn id
      else none := by
  cases keepRows with
  | none =>
    simp only [detachedFor]
    rw [if_neg (by simp)]
    rfl
  | some keep =>
    obtain ⟨firstRetained, snapshot⟩ := first
    simp only [detachedFor, hfirst]
    exact recordedBy_detached h firstRetained keep txn id

section Reads
theorem noteChange_id (changes : List RowChange) {current : Option RowVersion}
    (h : ∀ found ∈ current, found.id = id) :
    ∀ found ∈ changes.foldl (noteChange id txn) current, found.id = id := by
  induction changes generalizing current with
  | nil => exact h
  | cons change rest ih =>
    apply ih
    intro found hfound
    unfold noteChange at hfound
    split at hfound
    · rename_i hid
      cases hfound
      exact hid
    · exact h found hfound

theorem versionAt_id {version : RowVersion} (h : versionAt changes txn id = some version) :
    version.id = id := by
  have hfold : ∀ (entries : OrderedMap Nat (List RowChange)) (current : Option RowVersion),
      (∀ found ∈ current, found.id = id) →
      ∀ found ∈ entries.foldl (fun current entry =>
        entry.2.foldl (noteChange id entry.1) current) current, found.id = id := by
    intro entries
    induction entries with
    | nil => exact fun _ hcurrent => hcurrent
    | cons entry rest ih => exact fun current hcurrent => ih _ (noteChange_id entry.2 hcurrent)
  exact hfold _ none (by rintro _ ⟨⟩) version h

variable {more : OrderedMap Nat (List RowChange)}
  {before : Option (Epochs.Image RowState)} {run : List Commit}

theorem sameEntries_iff {other : List RowChange} {before after : RowId → Option RowState}
    (hbefore : ∀ id state, before id = some state ↔
      ⟨id.epoch, id.recordNumber, state⟩ ∈ own.map RowChange.entry)
    (hafter : ∀ id state, after id = some state ↔
      ⟨id.epoch, id.recordNumber, state⟩ ∈ other.map RowChange.entry) :
    SameEntries (own.map RowChange.entry) (other.map RowChange.entry) ↔
      ∀ id, after id = before id := by
  constructor
  · intro hsame id
    apply Option.ext
    intro state
    rw [hbefore, hafter]
    exact (hsame _).symm
  · rintro hsame ⟨epoch, number, state⟩
    have hid := hsame ⟨epoch, number⟩
    rw [← hbefore ⟨epoch, number⟩, ← hafter ⟨epoch, number⟩, hid]

theorem forall₂_sameEntries_iff {before after : Records RowId RowState}
    (h : List.Forall₂ Replaces retained rebuilt)
    (hbefore : ∀ entry ∈ retained, ∀ id state, before entry.1 id = some state ↔
      ⟨id.epoch, id.recordNumber, state⟩ ∈ entry.2.changes.map RowChange.entry)
    (hafter : ∀ entry ∈ rebuilt, ∀ id state, after entry.1 id = some state ↔
      ⟨id.epoch, id.recordNumber, state⟩ ∈ entry.2.changes.map RowChange.entry) :
    List.Forall₂ (fun left right => SameEntries (left.2.changes.map RowChange.entry)
        (right.2.changes.map RowChange.entry)) retained rebuilt ↔
      ∀ txn ∈ rebuilt.map Prod.fst, ∀ id,
        after txn id = before txn id := by
  induction h with
  | nil => simp
  | @cons left right _ _ hpair _ ih =>
    have hown := hbefore left mem_cons_self
    rw [← hpair.1] at hown
    rw [forall₂_cons, map_cons, forall_mem_cons,
      sameEntries_iff hown (hafter right mem_cons_self),
      ih (forall_mem_cons.mp hbefore).2
        (forall_mem_cons.mp hafter).2]

/-- Two versions of a row, with the `==` of values. -/
def RowVersion.eqv (left right : RowVersion) : Bool :=
  left.transactionId = right.transactionId && left.id = right.id &&
    left.deleted = right.deleted && sameValues left.values right.values

/-- The same answer of a read: the same version, or none, or the same error. -/
def SameRead (left right : Res (Option RowVersion)) : Prop :=
  match left, right with
  | .ok left, .ok right => eqvOption RowVersion.eqv left right = true
  | .error left, .error right => left = right
  | _, _ => False

theorem eqvOption_versionAt :
    eqvOption RowVersion.eqv (versionAt left txn id) (versionAt right txn id) =
        true ↔
      (versionAt left txn id).map RowVersion.answer =
        (versionAt right txn id).map RowVersion.answer := by
  cases hleft : versionAt left txn id with
  | none => cases hright : versionAt right txn id <;> simp [eqvOption]
  | some version =>
    cases hright : versionAt right txn id with
    | none => simp [eqvOption]
    | some other =>
      have hid : version.id = other.id := (versionAt_id hleft).trans (versionAt_id hright).symm
      simp [eqvOption, RowVersion.eqv, RowVersion.answer, hid, sameValues_iff, and_assoc]

/-- A row number and an epoch that a read accepts. -/
def RowId.Valid (id : RowId) : Prop := id.epoch ≠ 0 ∧ id.recordNumber ≠ 0

theorem rowAt_invalid (h : ¬id.Valid) (txn : Nat) :
    ∃ error, ∀ changes, rowAt changes txn id = .error error := by
  have hid : ∃ error, validateId id = .error error := by
    cases hvalid : validateId id with
    | error error => exact ⟨error, rfl⟩
    | ok accepted =>
      simp only [validateId, validateRecordNumber, bind_eq_ok, reject_eq_ok] at hvalid
      exact absurd ⟨hvalid.choose_spec.1, hvalid.choose_spec.2⟩ h
  obtain ⟨error, herror⟩ := hid
  by_cases hzero : txn = 0
  · exact ⟨_, fun changes => by rw [rowAt, reject, if_pos hzero]; rfl⟩
  · exact ⟨error, fun changes => by rw [rowAt, reject, if_neg hzero, herror]; rfl⟩

def Has (changes : OrderedMap Nat (List RowChange)) (transactionId : Nat) : Prop :=
  (changes.get? transactionId).isSome

theorem keys_of_sameRows (h : List.Forall₂ SameRows left right) :
    right.map Prod.fst = left.map Prod.fst := by
  induction h with
  | nil => rfl
  | cons hpair _ ih => rw [map_cons, map_cons, hpair.1, ih]

theorem has_iff {entries : OrderedMap Nat (List RowChange)} :
    Has entries txn ↔ txn ∈ entries.map Prod.fst := by
  rw [Has, Option.isSome_iff_ne_none, Ne, OrderedMap.get?_eq_none_iff, not_not]

theorem mem_keys_detachedFor (horderly : Orderly changes) :
    txn ∈ (detachedFor keepRows retained changes).map Prod.fst ↔
      ∃ id, recordedBy (detachedFor keepRows retained changes) txn id ≠ none := by
  have hdetached := detachedFor_orderly keepRows retained horderly
  constructor
  · intro hmem
    obtain ⟨entry, hentry, rfl⟩ := mem_map.mp hmem
    obtain ⟨-, hown, -⟩ := mem_detachedFor horderly hentry
    obtain ⟨change, hchange⟩ := exists_mem_of_ne_nil _ hown
    refine ⟨change.id, ?_⟩
    rw [← Option.isSome_iff_ne_none, hdetached.isSome_recordedBy]
    exact ⟨change, mem_flatChanges.mpr ⟨entry.2, hentry, hchange⟩, rfl⟩
  · rintro ⟨id, hrecorded⟩
    by_contra hnot
    refine hrecorded (recordedBy_eq_none (fun entry hentry heq => hnot ?_) id)
    exact heq ▸ mem_map_of_mem hentry

theorem Orderly.valid_of_recordedBy (h : Orderly changes)
    (hvalid : ∀ entry ∈ changes, ∀ change ∈ entry.2, change.Valid)
    (hrecorded : recordedBy changes txn id ≠ none) : id.Valid := by
  obtain ⟨change, hmem, rfl⟩ := h.isSome_recordedBy.mp (Option.isSome_iff_ne_none.mpr hrecorded)
  obtain ⟨own, hown, hchange⟩ := mem_flatChanges.mp hmem
  exact (hvalid _ hown change hchange).2

variable [Runtime] [Filters] [Serde]

/-- What a collection shall keep: the reads at the transactions whose snapshots it retains,
and those that still succeed at the other transactions. -/
structure ReadsKept (ids : List Nat) (log after : LogFile) : Prop where
  retained : ∀ transactionId ∈ ids, ∀ id,
    SameRead (mvccReadRow transactionId id log) (mvccReadRow transactionId id after)
  older : ∀ transactionId ∉ ids, ∀ id version, mvccReadRow transactionId id after = .ok version →
    SameRead (mvccReadRow transactionId id log) (.ok version)

def changesIn (log : LogFile) : Res (OrderedMap Nat (List RowChange)) := do
  let records ← lift (readMvccRecords log)
  committedRowChanges records

section
variable (h : changesIn log = .ok changes)
include h

theorem mvccReadRow_eq_ok {version : Option RowVersion} :
    mvccReadRow txn id log = .ok version ↔
      txn ≠ 0 ∧ id.Valid ∧ (changes.get? txn).isSome ∧
        version = versionAt changes txn id := by
  obtain ⟨records, hread, hchanges⟩ := bind_eq_ok.mp h
  simp only [mvccReadRow, bind_eq_ok, hread, hchanges, Except.ok.injEq, exists_eq_left', rowAt,
    lift_eq_ok, reject_eq_ok, validateId, validateRecordNumber, RowId.Valid]
  constructor
  · rintro ⟨-, hpositive, -, ⟨-, hepoch, hnumber⟩, -, hretained, rfl⟩
    exact ⟨hpositive, ⟨hepoch, hnumber⟩, by simpa [Option.isSome_iff_ne_none] using hretained, rfl⟩
  · rintro ⟨hpositive, ⟨hepoch, hnumber⟩, hretained, rfl⟩
    exact ⟨⟨⟩, hpositive, ⟨⟩, ⟨⟨⟩, hepoch, hnumber⟩, ⟨⟩,
      by simpa [Option.isSome_iff_ne_none] using hretained,
      rfl⟩

theorem mvccReadRow_invalid {other : LogFile}
    (hother : changesIn other = .ok more) (txn : Nat) (hid : ¬id.Valid) :
    SameRead (mvccReadRow txn id log) (mvccReadRow txn id other) := by
  obtain ⟨error, herror⟩ := rowAt_invalid hid txn
  have hread : ∀ {log changes}, changesIn log = .ok changes →
      mvccReadRow txn id log = Outcome.fail error := by
    intro log changes h
    obtain ⟨records, hread, hchanges⟩ := bind_eq_ok.mp h
    rw [mvccReadRow, hread]
    show (committedRowChanges records >>= fun changes => lift (rowAt changes txn id)) = _
    rw [hchanges]
    exact congrArg lift (herror changes)
  rw [hread h, hread hother]
  rfl

theorem readsKept_iff {ids : List Nat}
    (hafter : changesIn after = .ok more) (horderly : Orderly changes) (hmore : Orderly more)
    (hvalid : ∀ txn id, recordedBy changes txn id ≠ none ∨ recordedBy more txn id ≠ none → id.Valid)
    (hids : ∀ txn ∈ ids, Has more txn) (hhas : ∀ txn, Has more txn → Has changes txn ∧ txn ≠ 0) :
    ReadsKept ids log after ↔
      ∀ txn, Has more txn → ∀ id answer,
        IsAt (recordedBy more) txn id answer →
          IsAt (recordedBy changes) txn id answer := by
  have hok : ∀ {txn id}, Has more txn → id.Valid →
      mvccReadRow txn id log = .ok (versionAt changes txn id) ∧
        mvccReadRow txn id after = .ok (versionAt more txn id) := by
    intro txn id hretained hid
    obtain ⟨hbefore, hpositive⟩ := hhas txn hretained
    exact ⟨(mvccReadRow_eq_ok h).mpr ⟨hpositive, hid, hbefore, rfl⟩,
      (mvccReadRow_eq_ok hafter).mpr ⟨hpositive, hid, hretained, rfl⟩⟩
  constructor
  · intro hkept txn hretained id answer hanswer
    by_cases hid : id.Valid
    · obtain ⟨hbefore, hread⟩ := hok hretained hid
      have hsame : SameRead (mvccReadRow txn id log)
          (mvccReadRow txn id after) := by
        by_cases hmem : txn ∈ ids
        · exact hkept.retained txn hmem id
        · rw [hread]
          exact hkept.older txn hmem id _ hread
      rw [hbefore, hread] at hsame
      have hversion := versionAt_isAt hmore txn id
      rw [← eqvOption_versionAt.mp hsame] at hversion
      rw [hanswer.unique hversion]
      exact versionAt_isAt horderly txn id
    · -- No row has such a number, so nothing is recorded of it.
      have hnone : IsAt (recordedBy more) txn id none := fun t _ =>
        by_contra fun hrecorded => hid (hvalid t id (.inr hrecorded))
      rw [hanswer.unique hnone]
      exact fun t _ => by_contra fun hrecorded => hid (hvalid t id (.inl hrecorded))
  · intro hsame
    have hread : ∀ txn id, Has more txn → id.Valid →
        SameRead (mvccReadRow txn id log) (mvccReadRow txn id after) := by
      intro txn id hretained hid
      obtain ⟨hbefore, hread⟩ := hok hretained hid
      rw [hbefore, hread]
      have hanswer := hsame txn hretained id _ (versionAt_isAt hmore txn id)
      exact eqvOption_versionAt.mpr ((versionAt_isAt horderly txn id).unique hanswer)
    refine ⟨fun txn hmem id => ?_, fun txn _ id version hversion => ?_⟩
    · by_cases hid : id.Valid
      · exact hread txn id (hids txn hmem) hid
      · exact mvccReadRow_invalid h hafter txn hid
    · obtain ⟨-, hid, hretained, -⟩ := (mvccReadRow_eq_ok hafter).mp hversion
      rw [← hversion]
      exact hread txn id hretained hid

end

/-- The epochs that a rebuilding gives: the first snapshot with rows has an epoch that its
position has reached. -/
def CountsUp (position : Nat) : List (Nat × Snapshot) → Prop
  | [] => True
  | entry :: rest => ∀ table, fromSnapshot entry.2 = .ok table →
      (table.records = [] → CountsUp (position + 1) rest) ∧
        (table.records ≠ [] → entry.2.rowEpoch ≤ position)

/-- The changes of the first retained snapshot are all its rows in the epoch 1. -/
def Baseline (snapshot : Snapshot) : Prop :=
  ∀ table, fromSnapshot snapshot = .ok table →
    SameEntries (snapshot.changes.map RowChange.entry)
      ((currentRows table 1).map RowChange.entry)

/-- What the history before a collection must meet, for the first snapshot that is retained. -/
structure SafeFor (changes : OrderedMap Nat (List RowChange)) (retained : List (Nat × Snapshot))
    (keepRows : Option Nat) (first : Nat × Snapshot) : Prop where
  baseline : Baseline first.2
  counts : CountsUp 1 retained
  older : keepRows.isSome ∨ ∀ transactionId < first.1, ∀ id,
    recordedBy changes transactionId id ≠ none → recordedBy changes first.1 id ≠ none
  kept : ∀ keep ∈ keepRows, ∀ transactionId < first.1,
    (∃ other, recordedBy changes transactionId other ≠ none ∧
      between (recordedBy changes) other first.1 transactionId < keep) →
    ∀ earlier ≤ transactionId, ∀ id, recordedBy changes earlier id ≠ none →
      between (recordedBy changes) id first.1 transactionId < keep

/-- A collection is safe for the reads of rows. -/
def SafeToCollect (changes : OrderedMap Nat (List RowChange)) (retained : List (Nat × Snapshot))
    (keepRows : Option Nat) : Prop :=
  ∀ first ∈ retained.head?, SafeFor changes retained keepRows first

theorem Chronicle.deltas (h : Chronicle before run) :
    run.map (fun commit => commit.snapshot.changes.map RowChange.entry) =
      Epochs.deltas retired before (run.map Commit.image) := by
  induction run generalizing before with
  | nil => rfl
  | cons commit rest ih =>
    have hrest : Chronicle (some commit.image) rest := (show Chronicle before ([commit] ++ rest)
      from h).behind
    rw [map_cons, map_cons, Epochs.deltas, ih hrest,
      (h.first commit rfl).rowChanges.2]

theorem NextTo.steps {last next : Commit} (hlast : Recorded before last.snapshot last.image)
    (h : NextTo last next) :
    Steps last.image next.image := by
  have hepoch : effectiveEpoch last.snapshot = last.image.epoch := by
    rw [effectiveEpoch, hlast.rowEpoch]
    exact Nat.max_eq_left hlast.positive
  obtain ⟨_, _, _, _, hsteps⟩ := h.followsOn
  rw [hepoch, h.recorded.rowEpoch] at hsteps
  exact hsteps.imp And.left id

theorem Chronicle.steps (h : Chronicle before run) : (run.map Commit.image).IsChain Steps := by
  rw [isChain_map]
  refine h.chain.imp_of_mem_imp fun last next hlast _ hnext => ?_
  obtain ⟨previous, hrecorded⟩ := h.recorded hlast
  exact hnext.steps hrecorded

theorem Chronicle.countsUp (h : Chronicle before run) (position : Nat) :
    CountsUp position (run.map Commit.entry) ↔
      Epochs.CountsFrom position (run.map Commit.image) := by
  induction run generalizing before position with
  | nil => exact Iff.rfl
  | cons commit rest ih =>
    have hrest : Chronicle (some commit.image) rest := (show Chronicle before ([commit] ++ rest)
      from h).behind
    have hown := h.first commit rfl
    obtain ⟨table, htable, himage⟩ := hown.shows
    have hrows : commit.image.rows = [] ↔ table.records = [] := by
      rw [himage]
      exact map_eq_nil_iff
    rw [map_cons, map_cons, CountsUp, Epochs.CountsFrom, ← ih hrest, ne_eq, hrows,
      ← hown.rowEpoch]
    constructor
    · exact fun hcounts => hcounts table htable
    · intro hcounts other hother
      cases htable.symm.trans hother
      exact hcounts

section After
/-- `serde_json` reads back the values of the changes that a history holds. -/
def KeepsChanges (changes : OrderedMap Nat (List RowChange)) : Prop :=
  ∀ entry ∈ changes, ∀ change ∈ entry.2, Keeps change.values

variable (h : Collects keepLast keepRows log after records snapshots changes rebuilt)
  (hsound : Sound records snapshots)
include h hsound

theorem Collects.changesIn_after (hserde : RefusesEmpty) (hkeeps : KeepsRows snapshots)
    (hchanges : KeepsChanges changes) :
    ∃ older kept, changesIn after = .ok (older ++ kept) ∧ Orderly (older ++ kept) ∧
      (∀ entry ∈ older ++ kept, ∀ change ∈ entry.2, change.Valid) ∧
      List.Forall₂ SameRows (detachedFor keepRows rebuilt changes) older ∧
      List.Forall₂ SameRows (changesOf rebuilt) kept := by
  have horderly := h.changes_orderly hsound
  have hretained : KeepsRows (retainedOf keepLast snapshots) := fun entry hentry =>
    hkeeps entry (h.retained_mem hentry).1
  have hdetached : ∀ entry ∈ detachedFor keepRows rebuilt changes, ∀ change ∈ entry.2,
      Keeps change.values := by
    intro entry hentry change hchange
    obtain ⟨own, hown, hmem⟩ :=
      mem_flatChanges.mp ((mem_detachedFor horderly hentry).2.2 change hchange)
    exact hchanges _ hown change hmem
  have hrebuilt : ∀ entry ∈ rebuilt, ∀ change ∈ entry.2.changes, Keeps change.values := by
    intro entry hentry change hchange
    obtain ⟨source, hsource, table, record, htable, hrecord, hvalues⟩ :=
      (h.writable entry hentry).values change hchange
    obtain ⟨other, hother, rfl⟩ := mem_map.mp hsource
    rw [hvalues]
    exact hretained other hother table htable record hrecord
  obtain ⟨olderPayloads, images, holderPayloads, himages, -⟩ := h.written
  obtain ⟨older, holder⟩ := exists_readsRows holderPayloads hdetached
  obtain ⟨kept, hkept⟩ := exists_readsSnapshots himages hrebuilt
  have hread := (h.read_after hsound hserde).mpr ⟨older, kept, holder, hkept, rfl⟩
  have hcollected := h.sound hsound holder hkept
  obtain ⟨hascending, hmore⟩ := h.orderly hsound holder hkept hcollected.current
  have hsnapshots := committedSnapshots_collected older hascending
  have hchangesAfter := hcollected.committedRowChanges hsnapshots
  have hwords := words_of_read hread hsnapshots
  rw [detachedOf_collected] at hchangesAfter hwords
  refine ⟨older, changesOf kept, ?_, hmore, fun entry hentry => (hwords entry hentry).2.2, ?_, ?_⟩
  · rw [changesIn, hread]
    exact hchangesAfter
  · have hall := (forall₂_and_left _ _).mpr ⟨hdetached, holder⟩
    exact hall.imp fun written read hpair => ⟨hpair.2.1, reads_entries hpair.2.2 hpair.1⟩
  · have hall := (forall₂_and_left _ _).mpr ⟨hrebuilt, hkept⟩
    rw [changesOf, changesOf, forall₂_map_left_iff, forall₂_map_right_iff]
    refine hall.imp fun written read hpair => ⟨hpair.2.1, ?_⟩
    obtain ⟨own, hown, heq⟩ := hpair.2.2
    rw [heq]
    exact reads_entries hown hpair.1

theorem Collects.collected (hfirst : rebuilt.head? = some first)
    (holder : List.Forall₂ SameRows (detachedFor keepRows rebuilt changes) older)
    (hkept : List.Forall₂ SameRows (changesOf rebuilt) kept) :
    recordedBy (older ++ kept) = Retention.collected (recordedBy changes)
        (recordedBy (changesOf rebuilt)) first.1 (keepRows.getD 0) ∧
      ∀ txn, Has (older ++ kept) txn ↔
        Askable (recordedBy changes) (· ∈ rebuilt.map Prod.fst) first.1
          (keepRows.getD 0) txn := by
  have horderly := h.changes_orderly hsound
  obtain ⟨others, hothers, hrun⟩ := h.chronicle hsound
  have hascending : Ascending rebuilt := hothers ▸ hrun.ascending
  have hkeysOlder := keys_of_sameRows holder
  have hkeysKept := keys_of_sameRows hkept
  have hbefore : ∀ entry ∈ older, entry.1 < first.1 := by
    intro entry hentry
    have hmem : entry.1 ∈ older.map Prod.fst := mem_map_of_mem hentry
    rw [hkeysOlder] at hmem
    obtain ⟨source, hsource, heq⟩ := mem_map.mp hmem
    obtain ⟨other, hother, hlt⟩ := (mem_detachedFor horderly hsource).1
    cases hfirst.symm.trans hother
    exact heq ▸ hlt
  have hbehind : ∀ entry ∈ kept, first.1 ≤ entry.1 := by
    intro entry hentry
    have hmem : entry.1 ∈ kept.map Prod.fst := mem_map_of_mem hentry
    rw [hkeysKept] at hmem
    obtain ⟨source, hsource, heq⟩ := mem_map.mp hmem
    obtain ⟨snapshot, hsnapshot, rfl⟩ := mem_map.mp hsource
    rw [← heq]
    exact hascending.head_le hfirst hsnapshot
  constructor
  · funext txn id
    rw [recordedBy_append_of_lt hbefore hbehind, recordedBy_congr holder, recordedBy_congr hkept,
      recordedBy_detachedFor horderly hfirst, Retention.collected]
    split <;> simp_all
  · intro txn
    have hkeys : (changesOf rebuilt).map Prod.fst = rebuilt.map Prod.fst := by
      simp [changesOf]
    rw [has_iff, map_append, mem_append, hkeysOlder, hkeysKept, hkeys,
      mem_keys_detachedFor horderly, Askable, or_comm]
    refine or_congr Iff.rfl ?_
    simp only [recordedBy_detachedFor horderly hfirst]
    constructor
    · rintro ⟨id, hrecorded⟩
      split at hrecorded
      · rename_i hcond
        exact ⟨hcond.1, id, hrecorded, hcond.2⟩
      · exact absurd rfl hrecorded
    · rintro ⟨hlt, id, hrecorded, hfew⟩
      exact ⟨id, by rwa [if_pos ⟨hlt, hfew⟩]⟩

/-- The rebuilt snapshots record what those in their place did exactly when the first one is
a baseline and the epochs count up from it. -/
theorem Collects.rebuilt_iff (hkeeps : KeepsRows snapshots)
    (hfirst : (retainedOf keepLast snapshots).head? = some first) :
    List.Forall₂ (fun left right => SameEntries (left.2.changes.map RowChange.entry)
        (right.2.changes.map RowChange.entry)) (retainedOf keepLast snapshots) rebuilt ↔
      Baseline first.2 ∧ CountsUp 1 (retainedOf keepLast snapshots) := by
  obtain ⟨images, hlinked⟩ := hsound.linked hkeeps
  obtain ⟨whole, hwhole, -, hchronicle⟩ := hlinked.chronicle
  obtain ⟨front, hfront⟩ := retainedOf_suffix keepLast snapshots
  rw [hfront, map_eq_append_iff] at hwhole
  obtain ⟨frontRun, run, rfl, -, hrun⟩ := hwhole
  have hbehind := hchronicle.behind
  have hcompacted := h.compacted
  rw [← hrun] at hcompacted hfirst ⊢
  obtain ⟨others, rfl, himages, hothers, -⟩ := rebuild hbehind hcompacted
  generalize (frontRun.getLast?.map Commit.image).or none = before at hbehind
  have hentries : List.Forall₂ SameEntries
      (run.map fun commit => commit.snapshot.changes.map RowChange.entry)
      (others.map fun commit => commit.snapshot.changes.map RowChange.entry) ↔ _ :=
    forall₂_map_left_iff.trans forall₂_map_right_iff
  rw [forall₂_map_left_iff, forall₂_map_right_iff]
  refine hentries.symm.trans ?_
  rw [hbehind.deltas, hothers.deltas, himages, hbehind.countsUp]
  cases run with
  | nil => cases hfirst
  | cons commit rest =>
    cases hfirst
    have hown := hbehind.first commit rfl
    rw [map_cons, Epochs.deltas_renumber retired hbehind.steps hown.positive,
      ← hown.rowChanges.2]
    refine and_congr ?_ Iff.rfl
    obtain ⟨table, htable, himage⟩ := hown.shows
    have hrows : (currentRows table 1).map RowChange.entry =
        Epochs.numbered 1 commit.image.rows := by
      rw [currentRows_entries (coherent_fromSnapshot htable).numbered, himage]
    rw [← hrows]
    constructor
    · intro hsame other hother
      cases htable.symm.trans hother
      exact hsame
    · exact fun hbaseline => hbaseline table htable

theorem Collects.nothing_between (hfirst : (retainedOf keepLast snapshots).head? = some first)
    (hbehind : first.1 ≤ txn) (hnot : txn ∉ rebuilt.map Prod.fst) (id : RowId) :
    recordedBy (changesOf rebuilt) txn id = none ∧ recordedBy changes txn id = none := by
  constructor
  · apply recordedBy_eq_none
    intro entry hentry heq
    obtain ⟨source, hsource, rfl⟩ := mem_map.mp hentry
    exact hnot (heq ▸ mem_map_of_mem hsource)
  · apply recordedBy_eq_none
    rintro entry hentry rfl
    obtain ⟨front, hfront⟩ := retainedOf_suffix keepLast snapshots
    have hascending := hsound.orderly.ascending
    rw [h.changes_eq hsound, hfront, changesOf, map_append, ← append_assoc] at hentry
    rw [hfront, changesOf, map_append, ← append_assoc, Ascending,
      pairwise_append] at hascending
    rcases mem_append.mp hentry with hentry | hentry
    · have hlt := hascending.2.2 entry hentry (first.1, first.2.changes)
        (mem_map.mpr ⟨first, mem_of_head? hfirst, rfl⟩)
      exact absurd hbehind (Nat.not_le.mpr hlt)
    · obtain ⟨source, hsource, rfl⟩ := mem_map.mp hentry
      obtain ⟨other, hother, hid, -⟩ := exists_of_forall₂ h.replaces.flip hsource
      exact hnot (hid ▸ mem_map_of_mem hother)

theorem Collects.harmless_iff (hkeeps : KeepsRows snapshots)
    (hfirst : (retainedOf keepLast snapshots).head? = some first) :
    Retention.Harmless (recordedBy changes) (recordedBy (changesOf rebuilt))
        (· ∈ rebuilt.map Prod.fst) first.1 (keepRows.getD 0) ↔
      SafeFor changes (retainedOf keepLast snapshots) keepRows first := by
  have horderly := h.changes_orderly hsound
  obtain ⟨others, hothers, hrun⟩ := h.chronicle hsound
  have hascending : Ascending (changesOf rebuilt) :=
    pairwise_map.mpr (hothers ▸ hrun.ascending)
  have hbefore : ∀ entry ∈ retainedOf keepLast snapshots, ∀ id state,
      recordedBy changes entry.1 id = some state ↔
        ⟨id.epoch, id.recordNumber, state⟩ ∈ entry.2.changes.map RowChange.entry := by
    intro entry hentry id state
    have hmem : (entry.1, entry.2.changes) ∈ changes := by
      rw [h.changes_eq hsound]
      exact mem_append_right _ (mem_map.mpr ⟨entry, (h.retained_mem hentry).1, rfl⟩)
    exact recordedBy_of_get? (OrderedMap.get?_of_mem horderly.ascending.nodup hmem)
      (horderly.distinct _ hmem)
  have hafter : ∀ entry ∈ rebuilt, ∀ id state,
      recordedBy (changesOf rebuilt) entry.1 id = some state ↔
        ⟨id.epoch, id.recordNumber, state⟩ ∈ entry.2.changes.map RowChange.entry := by
    intro entry hentry id state
    have hmem : (entry.1, entry.2.changes) ∈ changesOf rebuilt :=
      mem_map.mpr ⟨entry, hentry, rfl⟩
    have hdistinct : (entry.2.changes.map RowChange.id).Nodup := by
      rw [← hothers] at hentry
      obtain ⟨commit, hcommit, rfl⟩ := mem_map.mp hentry
      obtain ⟨previous, hrecorded⟩ := hrun.recorded hcommit
      exact hrecorded.distinct
    exact recordedBy_of_get? (OrderedMap.get?_of_mem hascending.nodup hmem) hdistinct
  have hrebuilt := (forall₂_sameEntries_iff h.replaces hbefore hafter).symm.trans
    (h.rebuilt_iff hsound hkeeps hfirst)
  have hrows : 0 < keepRows.getD 0 ↔ keepRows.isSome := by
    cases hkeep : keepRows with
    | none => simp
    | some keep =>
      have hpositive := h.positive.2
      rw [hkeep] at hpositive
      simpa [Nat.pos_iff_ne_zero] using hpositive
  have hgetD : ∀ keep ∈ keepRows, keepRows.getD 0 = keep := by
    rintro keep ⟨⟩
    rfl
  constructor
  · rintro ⟨hsame, holder, hkept⟩
    obtain ⟨hbaseline, hcounts⟩ := hrebuilt.mp hsame
    refine ⟨hbaseline, hcounts, holder.imp hrows.mp fun hall t ht id => hall t id ht, ?_⟩
    intro keep hkeep t ht hasked u hu id hrecorded
    rw [← hgetD keep hkeep] at hasked ⊢
    exact hkept t ht hasked u id hu hrecorded
  · rintro ⟨hbaseline, hcounts, holder, hkept⟩
    refine ⟨hrebuilt.mpr ⟨hbaseline, hcounts⟩,
      holder.imp hrows.mpr fun hall t id ht => hall t ht id, ?_⟩
    intro t ht hasked u id hu hrecorded
    cases hkeep : keepRows with
    | none =>
      rw [hkeep] at hasked
      obtain ⟨other, -, hfew⟩ := hasked
      exact absurd hfew (Nat.not_lt_zero _)
    | some keep =>
      rw [hkeep] at hasked
      exact hkept keep hkeep t ht hasked u hu id hrecorded

theorem Collects.has_before
    (holder : List.Forall₂ SameRows (detachedFor keepRows rebuilt changes) older)
    (hkept : List.Forall₂ SameRows (changesOf rebuilt) kept) (hhas : Has (older ++ kept) txn) :
    Has changes txn ∧ txn ≠ 0 := by
  have horderly := h.changes_orderly hsound
  have hkey : ∃ own, (txn, own) ∈ changes := by
    rw [has_iff, map_append, mem_append, keys_of_sameRows holder,
      keys_of_sameRows hkept] at hhas
    rcases hhas with hmem | hmem
    · obtain ⟨entry, hentry, rfl⟩ := mem_map.mp hmem
      obtain ⟨-, hown, hflat⟩ := mem_detachedFor horderly hentry
      obtain ⟨change, hchange⟩ := exists_mem_of_ne_nil _ hown
      obtain ⟨own, hmem, -⟩ := mem_flatChanges.mp (hflat change hchange)
      exact ⟨own, hmem⟩
    · obtain ⟨entry, hentry, rfl⟩ := mem_map.mp hmem
      obtain ⟨source, hsource, rfl⟩ := mem_map.mp hentry
      obtain ⟨snapshot, hsnapshot, heq⟩ := h.rebuilt_id hsource
      refine ⟨snapshot.2.changes, ?_⟩
      rw [h.changes_eq hsound]
      exact mem_append_right _
        (mem_map.mpr ⟨snapshot, (h.retained_mem hsnapshot).1, by rw [heq]⟩)
  obtain ⟨own, hown⟩ := hkey
  have hwords := h.changes_words hsound
  exact ⟨has_iff.mpr (mem_map.mpr ⟨_, hown, rfl⟩), (hwords _ hown).1⟩

theorem Collects.readsKept_iff (hserde : RefusesEmpty) (hkeeps : KeepsRows snapshots)
    (hchanges : KeepsChanges changes) :
    ReadsKept (rebuilt.map Prod.fst) log after ↔
      SafeToCollect changes (retainedOf keepLast snapshots) keepRows := by
  have horderly := h.changes_orderly hsound
  have hbefore : changesIn log = .ok changes := by
    rw [changesIn, h.read]
    exact h.recorded
  have hwords := h.changes_words hsound
  obtain ⟨older, kept, hafter, hmore, hvalid, holder, hkept⟩ :=
    h.changesIn_after hsound hserde hkeeps hchanges
  have hreads : ReadsKept (rebuilt.map Prod.fst) log after ↔ _ :=
    TxBase.Dbf.readsKept_iff hbefore hafter horderly hmore
    (fun txn id hrecorded => hrecorded.elim
      (horderly.valid_of_recordedBy fun entry hentry => (hwords entry hentry).2.2)
      (hmore.valid_of_recordedBy hvalid))
    (fun txn hmem => by
      rw [has_iff, map_append, keys_of_sameRows hkept, changesOf, map_map]
      exact mem_append_right _ hmem)
    (fun txn hhas => h.has_before hsound holder hkept hhas)
  rw [hreads]
  have hreplaces := h.replaces
  cases hhead : rebuilt with
  | nil =>
    -- No snapshot is there, and nothing was recorded.
    rw [hhead] at hreplaces holder hkept
    have hnone : detachedFor keepRows [] changes = [] := by cases keepRows <;> rfl
    rw [hnone] at holder
    cases holder
    cases hkept
    rw [forall₂_nil_right_iff] at hreplaces
    rw [hreplaces]
    constructor
    · rintro - _ ⟨⟩
    · intro _ txn hhas
      cases hhas
  | cons first rest =>
    have hfirst : rebuilt.head? = some first := by rw [hhead]; rfl
    obtain ⟨hcollected, hhas⟩ := h.collected hsound hfirst holder hkept
    have hretained : ∃ source, (retainedOf keepLast snapshots).head? = some source ∧
        source.1 = first.1 := by
      rw [hhead] at hreplaces
      cases hshape : retainedOf keepLast snapshots with
      | nil =>
        rw [hshape] at hreplaces
        cases hreplaces
      | cons source others =>
        rw [hshape] at hreplaces
        exact ⟨source, rfl, ((forall₂_cons.mp hreplaces).1).1.symm⟩
    obtain ⟨source, hsource, hid⟩ := hretained
    have hsafe : SafeToCollect changes (retainedOf keepLast snapshots) keepRows ↔
        SafeFor changes (retainedOf keepLast snapshots) keepRows source := by
      rw [SafeToCollect, hsource]
      exact ⟨fun hall => hall source rfl, by rintro hown _ ⟨⟩; exact hown⟩
    rw [hsafe, ← h.harmless_iff hsound hkeeps hsource, hid, hcollected]
    simp only [hhas]
    refine Retention.same_iff_harmless (mem_map_of_mem (mem_of_head? hfirst)) ?_ ?_
    · intro txn hmem
      obtain ⟨others, hothers, hrun⟩ := h.chronicle hsound
      have hascending : Ascending rebuilt := hothers ▸ hrun.ascending
      obtain ⟨entry, hentry, rfl⟩ := mem_map.mp hmem
      exact hascending.head_le hfirst hentry
    · intro txn id hbehind hnot
      exact h.nothing_between hsound hsource (hid ▸ hbehind) hnot id

end After

/-- A collection keeps the reads of rows exactly when it is safe: the first retained snapshot
recorded all its rows in the epoch 1 and nothing else, the epochs count up from it, no older
row goes without a version, and no transaction is kept for one row and pruned for another. -/
theorem collection_keeps_reads_iff_safe (hserde : RefusesEmpty) {log after : LogFile}
    (hgrown : Grown log) {keepLast : Nat} {keepRows : Option Nat} {ids : List Nat}
    (hgc : gcWithRowRetention keepLast keepRows log = .ok (ids, after))
    {snapshots : OrderedMap Nat Snapshot} (hsnapshots : snapshotsOf log = .ok snapshots)
    {changes : OrderedMap Nat (List RowChange)} (hchanges : changesIn log = .ok changes)
    (hkeeps : KeepsRows snapshots) (hkeepsChanges : KeepsChanges changes) :
    ReadsKept ids log after ↔ SafeToCollect changes (retainedOf keepLast snapshots) keepRows := by
  obtain ⟨records, committed, recorded, rebuilt, hcollects, rfl⟩ := collects_of_gc hgc
  cases hsnapshots.symm.trans (bind_eq_ok.mpr ⟨records, hcollects.read, hcollects.committed⟩)
  have hrecorded : changesIn log = .ok recorded := by
    rw [changesIn, hcollects.read]
    exact hcollects.recorded
  cases hchanges.symm.trans hrecorded
  have hsound := sound_of_grown hserde hgrown hcollects.read hcollects.committed
  exact hcollects.readsKept_iff hsound hserde hkeeps hkeepsChanges

end Reads

/-- The rows that each transaction recorded. -/
def rowsOf (changes : OrderedMap Nat (List RowChange)) : List (Nat × List RowId) :=
  changes.map fun entry => (entry.1, entry.2.map RowChange.id)

theorem recordedBy_ne_none :
    recordedBy changes txn id ≠ none ↔
      ∃ own, get? txn (rowsOf changes) = some own ∧ id ∈ own := by
  have hget : get? txn (rowsOf changes) =
      (changes.get? txn).map fun own => own.map RowChange.id := by
    induction changes with
    | nil => rfl
    | cons entry rest ih =>
      simp only [rowsOf, map_cons, get?] at ih ⊢
      split <;> simp_all
  rw [hget, recordedBy]
  cases changes.get? txn with
  | none => simp
  | some own => simp [changeOf]

theorem later_of_committed [Serde] {committed : OrderedMap Nat Snapshot}
    (h : snapshotsOf log = .ok committed)
    (hids : ∀ id ∈ committed.map Prod.fst, id < txn) (hsmall : txn < u64Size) :
    Later txn log := by
  refine ⟨hsmall, fun others hothers entry hentry => ?_⟩
  cases hothers.symm.trans h
  exact hids _ (mem_map_of_mem hentry)

attribute [local instance] Runtime.bare Filters.bare

/-- Two commits of a table with one row, which the second one changes: collecting the first
commit keeps the reads. -/
theorem collection_keeps_reads_iff_safe_updated :
    letI := listed [] [] [] [[("A", .string "x")], [("A", .string "y")]]
    ∃ log after, Grown log ∧ gcWithRowRetention 1 none log = .ok ([2], after) ∧
      ReadsKept [2] log after := by
  let := listed [] [] [] [[("A", .string "x")], [("A", .string "y")]]
  have hrun : (do
      let first ← (commitLog 1 (singleFieldImage 0x03 0x43 1 0 [[0x20, 0x78]]) none none
        false .absent).toOption
      let committed ← (snapshotsOf first).toOption
      let second ← (commitLog 2 (singleFieldImage 0x03 0x43 1 0 [[0x20, 0x79]]) none none false
        first).toOption
      let collected ← (gcWithRowRetention 1 none second).toOption
      let snapshots ← (snapshotsOf second).toOption
      let changes ← (changesIn second).toOption
      let last ← (retainedOf 1 snapshots).head?
      let table ← (fromSnapshot last.2).toOption
      if committed.map Prod.fst = [1] ∧ collected.1 = [2] ∧
          rowsOf changes = [(1, [RowId.mk 1 1]), (2, [RowId.mk 1 1])] ∧
          (retainedOf 1 snapshots).length = 1 ∧ last.1 = 2 ∧ last.2.rowEpoch = 1 ∧
          eqvList RowChange.eqv last.2.changes (currentRows table 1) = true
        then some () else none) = some () := by
    decide +kernel
  simp only [bind_eq_some, check_eq_some] at hrun
  obtain ⟨first, hfirst, committed, hcommitted, second, hsecond, ⟨ids, after⟩, hcollected, snapshots,
    hsnapshots, changes, hchanges, last, hlast, table, htable, hids, rfl, hrows, hlength, hlastId,
    hepoch, hbaseline⟩ := hrun
  have hgrown : Grown second := by
    refine .commit (.commit (.start rfl) ⟨by decide, ?_⟩ (eq_ok_of_toOption hfirst))
      (later_of_committed (eq_ok_of_toOption hcommitted) ?_ (by decide))
      (eq_ok_of_toOption hsecond)
    · rintro _ ⟨⟩ entry hentry
      cases hentry
    · rw [hids]
      decide
  have hkeeps : ∀ values : Map, Keeps values := fun values body hbody =>
    ⟨values, documentAt_of_position (by decide) hbody, sameValues_iff.mpr rfl⟩
  have hrefuses : RefusesEmpty := fun metadata hmetadata => by cases hmetadata
  refine ⟨second, after, hgrown, eq_ok_of_toOption hcollected,
    (collection_keeps_reads_iff_safe hrefuses hgrown (eq_ok_of_toOption hcollected)
      (eq_ok_of_toOption hsnapshots) (eq_ok_of_toOption hchanges)
      (fun _ _ _ _ record _ => hkeeps record.values)
      (fun _ _ change _ => hkeeps change.values)).mpr ?_⟩
  have hsafe : SafeFor changes (retainedOf 1 snapshots) none last := by
    refine ⟨?_, ?_, .inr ?_, by rintro _ ⟨⟩⟩
    · intro other hother
      cases (eq_ok_of_toOption htable).symm.trans hother
      rw [(eqvList_iff RowChange.eqv_iff).mp hbaseline]
      exact fun _ => Iff.rfl
    · obtain ⟨only, honly⟩ := length_eq_one_iff.mp hlength
      rw [honly] at hlast ⊢
      cases hlast
      exact fun _ _ => ⟨fun _ => trivial, fun _ => Nat.le_of_eq hepoch⟩
    · intro txn hlt id hrecorded
      rw [hlastId] at hlt ⊢
      rw [recordedBy_ne_none, hrows] at hrecorded ⊢
      have hone : txn = 1 ∨ txn = 0 := by omega
      rcases hone with rfl | rfl
      · exact hrecorded
      · obtain ⟨own, hown, -⟩ := hrecorded
        cases hown
  rintro _ hmem
  cases hlast.symm.trans hmem
  exact hsafe

/-- Two commits, the second of which packs the table.  A collection that retains the second
one starts its epochs anew, and the row that was there is not. -/
theorem packed_row_is_lost :
    letI := listed [] [] [] [[("A", .string "x")], [("A", .string "y")]]
    ∃ log after version, Grown log ∧ gcWithRowRetention 1 none log = .ok ([2], after) ∧
      mvccReadRow 2 ⟨2, 1⟩ log = .ok (some version) ∧ version.deleted = false ∧
      mvccReadRow 2 ⟨2, 1⟩ after = .ok none ∧ ¬ReadsKept [2] log after := by
  let := listed [] [] [] [[("A", .string "x")], [("A", .string "y")]]
  have hrun : (do
      let first ← (commitLog 1 (singleFieldImage 0x03 0x43 1 0 [[0x20, 0x78], [0x2a, 0x79]]) none none
        false .absent).toOption
      let committed ← (snapshotsOf first).toOption
      let second ← (commitLog 2 (singleFieldImage 0x03 0x43 1 0 [[0x20, 0x78]]) none none true
        first).toOption
      let collected ← (gcWithRowRetention 1 none second).toOption
      let found ← (mvccReadRow 2 ⟨2, 1⟩ second).toOption
      let version ← found
      let lost ← (mvccReadRow 2 ⟨2, 1⟩ collected.2).toOption
      if committed.map Prod.fst = [1] ∧ collected.1 = [2] ∧ version.deleted = false ∧
          lost.isNone = true then some () else none) = some () := by
    decide +kernel
  simp only [bind_eq_some, check_eq_some, Option.isNone_iff_eq_none] at hrun
  obtain ⟨first, hfirst, committed, hcommitted, second, hsecond, ⟨ids, after⟩, hcollected, _, hfound,
    version, rfl, _, hlost, hids, rfl, hdeleted, rfl⟩ := hrun
  have hread := eq_ok_of_toOption hfound
  have hgone := eq_ok_of_toOption hlost
  refine ⟨second, after, version, ?_, eq_ok_of_toOption hcollected, hread, hdeleted, hgone, ?_⟩
  · refine .commit (.commit (.start rfl) ⟨by decide, ?_⟩ (eq_ok_of_toOption hfirst))
      (later_of_committed (eq_ok_of_toOption hcommitted) ?_ (by decide))
      (eq_ok_of_toOption hsecond)
    · rintro _ ⟨⟩ entry hentry
      cases hentry
    · rw [hids]
      decide
  · intro hkept
    have hsame := hkept.retained 2 mem_cons_self ⟨2, 1⟩
    rw [hread, hgone] at hsame
    cases hsame

end TxBase.Dbf
