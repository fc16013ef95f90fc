import TxBase.Dbf.Compaction
import TxBase.Dbf.RowRetention

/-! What a collection writes is read back: the older versions that it keeps as row histories,
and the retained snapshots rebuilt. -/
namespace TxBase.Dbf
open Lib Json List
open Outcome (lift)

section Written
variable [Serde]

theorem Serde.Keeps.reads {values : Map} (h : Serde.Keeps values) {body : Bytes}
    (hbody : Serde.valuesToVec values = .ok body) : ∃ read, Serde.Reads values read := by
  obtain ⟨read, hread, -⟩ := h body hbody
  exact ⟨read, body, hbody, hread⟩

theorem exists_reads {changes : List RowChange} {encoded : Bytes}
    (h : appendRowChanges changes = .ok encoded)
    (hkeeps : ∀ change ∈ changes, Serde.Keeps change.values) :
    ∃ reads, List.Forall₂ RowChange.Reads changes reads := by
  induction changes generalizing encoded with
  | nil => exact ⟨[], .nil⟩
  | cons change rest ih =>
    simp only [appendRowChanges, bind_eq_ok] at h
    obtain ⟨first, hfirst, others, hothers, -⟩ := h
    obtain ⟨-, -, body, hbody, -⟩ := encodeRowChange_eq_ok.mp hfirst
    obtain ⟨values, hvalues⟩ := (hkeeps change mem_cons_self).reads hbody
    obtain ⟨reads, hreads⟩ := ih hothers (forall_mem_cons.mp hkeeps).2
    exact ⟨⟨change.epoch, change.recordNumber, change.deleted, values⟩ :: reads,
      .cons ⟨rfl, rfl, hvalues⟩ hreads⟩

/-- A history entry and what is read where it was written. -/
def ReadsRows (written read : Nat × List RowChange) : Prop :=
  read.1 = written.1 ∧ List.Forall₂ RowChange.Reads written.2 read.2

variable {records : List MvccRecord} {detached : OrderedMap Nat (List RowChange)}
  {payloads : List Bytes}

theorem rowHistoryRecords_read (h : rowHistoryRecords detached = .ok payloads)
    (hids : ∀ entry ∈ detached, entry.1 < u64Size)
    (hfits : ∀ entry ∈ detached, ∀ change ∈ entry.2, change.Fits) :
    payloads.mapM decodeRecord = .ok records ↔
      ∃ reads : OrderedMap Nat (List RowChange), List.Forall₂ ReadsRows detached reads ∧
        records = reads.map fun entry => .rowHistory entry.1 entry.2 := by
  induction detached generalizing payloads records with
  | nil =>
    cases h
    simp [pure, Except.pure, eq_comm]
  | cons entry rest ih =>
    obtain ⟨txn, changes⟩ := entry
    simp only [rowHistoryRecords, bind_eq_ok, Except.ok.injEq] at h
    obtain ⟨payload, hpayload, ⟨⟩, hsize, others, hothers, rfl⟩ := h
    have hdecoded : ∀ record, decodeRecord payload = .ok record ↔ _ := fun record =>
      decodeRecord_rowHistory hpayload (hids _ mem_cons_self)
        (lt_of_le_of_lt (checkRecordSize_eq_ok.mp hsize) (by decide)) (hfits _ mem_cons_self)
    have hrest : ∀ more, others.mapM decodeRecord = .ok more ↔ _ := fun more =>
      ih hothers (forall_mem_cons.mp hids).2
        (forall_mem_cons.mp hfits).2
    simp only [mapM_cons, bind_eq_ok, hdecoded, hrest, pure, Except.pure, Except.ok.injEq]
    constructor
    · rintro ⟨_, ⟨reads, hreads, rfl⟩, _, ⟨more, hmore, rfl⟩, rfl⟩
      exact ⟨(txn, reads) :: more, .cons ⟨rfl, hreads⟩ hmore, rfl⟩
    · rintro ⟨_, hreads, rfl⟩
      cases hreads with
      | @cons _ read _ more hread hmore =>
        obtain ⟨id, reads⟩ := read
        obtain ⟨rfl, hread⟩ := hread
        exact ⟨_, ⟨reads, hread, rfl⟩, _, ⟨more, hmore, rfl⟩, rfl⟩

/-- The records of committed snapshots. -/
def commitRecords (entries : OrderedMap Nat Snapshot) : List MvccRecord :=
  entries.flatMap fun entry => [.prepare entry.1 entry.2, .commit entry.1]

/-- A snapshot and what is read where it was written. -/
def ReadsSnapshot (written read : Nat × Snapshot) : Prop :=
  read.1 = written.1 ∧ written.2.Reads read.2

variable {retained : List (Nat × Snapshot)}

variable [Runtime] [Filters]

theorem snapshotRecords_read (hserde : Serde.RefusesEmpty) {sources : List Snapshot}
    (h : snapshotRecords retained = .ok payloads) (hids : ∀ entry ∈ retained, entry.1 < u64Size)
    (hwritable : ∀ entry ∈ retained, Writable sources entry.2) :
    payloads.mapM decodeRecord = .ok records ↔
      ∃ reads : OrderedMap Nat Snapshot, List.Forall₂ ReadsSnapshot retained reads ∧
        records = commitRecords reads := by
  induction retained generalizing payloads records with
  | nil =>
    cases h
    simp [pure, Except.pure, commitRecords, eq_comm]
  | cons entry rest ih =>
    obtain ⟨txn, snapshot⟩ := entry
    simp only [snapshotRecords, bind_eq_ok, Except.ok.injEq] at h
    obtain ⟨payload, hpayload, ⟨⟩, hsize, ⟨⟩, -, others, hothers, rfl⟩ := h
    have hentry := hwritable _ mem_cons_self
    have hid := hids _ mem_cons_self
    obtain ⟨table, htable⟩ := hentry.table
    obtain ⟨hpositive, -⟩ := encodePrepare_eq_ok.mp hpayload
    have hdecoded : ∀ record, decodeRecord payload = .ok record ↔ _ := fun record =>
      decodeRecord_prepare hpayload hid
        (lt_of_le_of_lt (checkRecordSize_eq_ok.mp hsize) (by decide)) hentry.small hentry.fits
        (schema_ne_empty hserde htable)
    have hcommit : ∀ record, decodeRecord (encodeCommit txn) = .ok record ↔
        record = .commit txn := fun record => by
      rw [decodeRecord_commit hid, and_iff_right hpositive]
    have hrest : ∀ more, others.mapM decodeRecord = .ok more ↔ _ := fun more =>
      ih hothers (forall_mem_cons.mp hids).2
        (forall_mem_cons.mp hwritable).2
    simp only [mapM_cons, bind_eq_ok, hdecoded, hcommit, hrest, pure, Except.pure,
      Except.ok.injEq]
    constructor
    · rintro ⟨_, ⟨read, hread, rfl⟩, _, ⟨_, rfl, _, ⟨more, hmore, rfl⟩, rfl⟩, rfl⟩
      exact ⟨(txn, read) :: more, .cons ⟨rfl, hread⟩ hmore, rfl⟩
    · rintro ⟨_, hreads, rfl⟩
      cases hreads with
      | @cons _ read _ more hread hmore =>
        obtain ⟨id, read⟩ := read
        obtain ⟨rfl, hread⟩ := hread
        exact ⟨_, ⟨read, hread, rfl⟩, _, ⟨_, rfl, _, ⟨more, hmore, rfl⟩, rfl⟩, rfl⟩

omit [Runtime] [Filters] in
theorem exists_readsRows (h : rowHistoryRecords detached = .ok payloads)
    (hkeeps : ∀ entry ∈ detached, ∀ change ∈ entry.2, Serde.Keeps change.values) :
    ∃ reads : OrderedMap Nat (List RowChange), List.Forall₂ ReadsRows detached reads := by
  induction detached generalizing payloads with
  | nil => exact ⟨[], .nil⟩
  | cons entry rest ih =>
    obtain ⟨txn, changes⟩ := entry
    simp only [rowHistoryRecords, bind_eq_ok, Except.ok.injEq] at h
    obtain ⟨payload, hpayload, -, -, others, hothers, -⟩ := h
    obtain ⟨-, -, -, encoded, hencoded, -⟩ := encodeRowHistory_eq_ok.mp hpayload
    obtain ⟨own, hown⟩ := exists_reads hencoded (hkeeps _ mem_cons_self)
    obtain ⟨reads, hreads⟩ := ih hothers (forall_mem_cons.mp hkeeps).2
    exact ⟨(txn, own) :: reads, .cons ⟨rfl, hown⟩ hreads⟩

omit [Runtime] [Filters] in
theorem exists_readsSnapshots (h : snapshotRecords retained = .ok payloads)
    (hkeeps : ∀ entry ∈ retained, ∀ change ∈ entry.2.changes, Serde.Keeps change.values) :
    ∃ reads : OrderedMap Nat Snapshot, List.Forall₂ ReadsSnapshot retained reads := by
  induction retained generalizing payloads with
  | nil => exact ⟨[], .nil⟩
  | cons entry rest ih =>
    obtain ⟨txn, snapshot⟩ := entry
    simp only [snapshotRecords, bind_eq_ok, Except.ok.injEq] at h
    obtain ⟨payload, hpayload, -, -, -, -, others, hothers, -⟩ := h
    obtain ⟨-, -, encoded, hencoded, -⟩ := encodePrepare_eq_ok.mp hpayload
    obtain ⟨own, hown⟩ := exists_reads hencoded (hkeeps _ mem_cons_self)
    obtain ⟨reads, hreads⟩ := ih hothers (forall_mem_cons.mp hkeeps).2
    let read : Snapshot :=
      { snapshot with rowEpoch := max snapshot.rowEpoch 1, rowChanges := some own }
    exact ⟨(txn, read) :: reads, .cons ⟨rfl, own, hown, rfl⟩ hreads⟩

end Written

section Shape

/-- The older versions that a history keeps as row histories. -/
def detachedOf (records : List MvccRecord) : OrderedMap Nat (List RowChange) :=
  records.filterMap fun
    | .rowHistory transactionId changes => some (transactionId, changes)
    | _ => none

theorem foldlM_noteRowHistory_ascending (records : List MvccRecord)
    (done rest : OrderedMap Nat (List RowChange))
    (h : OrderedMap.Ascending (done ++ detachedOf records ++ rest)) :
    records.foldlM noteRowHistory (done ++ rest) = .ok (done ++ detachedOf records ++ rest) := by
  induction records generalizing done with
  | nil => rw [detachedOf, filterMap_nil, append_nil]; rfl
  | cons record records ih =>
    cases record with
    | prepare id snapshot | commit id => exact ih done h
    | rowHistory id changes =>
      have hdetached : detachedOf (.rowHistory id changes :: records) =
          (id, changes) :: detachedOf records := rfl
      rw [hdetached, append_assoc] at h ⊢
      have hparts := pairwise_append.mp h
      have hcons := pairwise_cons.mp hparts.2.1
      have hdone : ∀ entry ∈ done, entry.1 < id := fun entry hentry =>
        hparts.2.2 entry hentry (id, changes) mem_cons_self
      have hrest : ∀ entry ∈ rest, id < entry.1 := fun entry hentry =>
        hcons.1 entry (mem_append_right _ hentry)
      have habsent : ((done ++ rest).get? id).isSome = false := by
        rw [OrderedMap.get?_eq_none fun entry hentry => (mem_append.mp hentry).elim
          (fun hentry => Nat.ne_of_lt (hdone entry hentry))
          fun hentry => Nat.ne_of_gt (hrest entry hentry)]
        rfl
      have hstep : noteRowHistory (done ++ rest) (.rowHistory id changes) =
          .ok (done ++ [(id, changes)] ++ rest) := by
        rw [noteRowHistory, habsent, OrderedMap.insert_between changes hdone hrest,
          append_assoc]
        rfl
      rw [foldlM_cons, hstep]
      show records.foldlM noteRowHistory (done ++ [(id, changes)] ++ rest) = _
      have hmore := ih (done ++ [(id, changes)]) (by simpa using h)
      simpa using hmore

variable {snapshot : Snapshot}

variable [Runtime] [Filters] [Serde]

theorem Recorded.distinct {previous : Option (Epochs.Image RowState)} {image : Epochs.Image RowState}
    (h : Recorded previous snapshot image) :
    (snapshot.changes.map RowChange.id).Nodup := by
  have hnodup := Epochs.nodup_delta retired previous image
  rw [← h.rowChanges.2] at hnodup
  have hkeys : (snapshot.changes.map RowChange.entry).map Epochs.Entry.key =
      (snapshot.changes.map RowChange.id).map fun id => (id.epoch, id.recordNumber) := by
    rw [map_map, map_map]
    rfl
  rw [hkeys] at hnodup
  exact hnodup.of_map

/-- A snapshot that holds its own changes, each of another row. -/
structure Current (snapshot : Snapshot) : Prop where
  rowChanges : snapshot.rowChanges = some snapshot.changes
  positive : 0 < snapshot.rowEpoch
  distinct : (snapshot.changes.map RowChange.id).Nodup

variable {built : Snapshot}

theorem current_of_changesForCommit {previous : Option Snapshot} {current : Snapshot}
    {forceNewEpoch : Bool}
    (h : changesForCommit previous current forceNewEpoch = .ok built)
    (hepoch : ∀ last ∈ previous, 0 < last.rowEpoch ∧ last.rowEpoch < u64Size) : Current built := by
  obtain ⟨-, -, -, -, hpositive, -, hchanges⟩ :=
    changesForCommit_eq_ok h fun last hlast => (hepoch last hlast).2
  refine ⟨hchanges, hpositive, ?_⟩
  have himage : ∃ image, Option.Rel Shows previous image ∧
      ∀ last ∈ image, 0 < last.epoch ∧ last.epoch < u64Size := by
    cases previous with
    | none => exact ⟨none, .none, by rintro _ ⟨⟩⟩
    | some last =>
      obtain ⟨_, _, hbetween⟩ := bind_eq_ok.mp h
      obtain ⟨lastTable, hlast, _⟩ := bind_eq_ok.mp hbetween
      refine ⟨some ⟨last.rowEpoch, lastTable.records.map DbfRecord.state⟩,
        .some ⟨lastTable, hlast, rfl⟩, ?_⟩
      rintro _ ⟨⟩
      exact hepoch last rfl
  obtain ⟨image, hshows, hepochs⟩ := himage
  obtain ⟨next, hnext⟩ := changesForCommit_recorded h hshows hepochs
  exact hnext.distinct

omit [Runtime] [Filters] in
theorem reads_ids {written read : List RowChange} (h : List.Forall₂ RowChange.Reads written read) :
    read.map RowChange.id = written.map RowChange.id := by
  induction h with
  | nil => rfl
  | cons hread _ ih => rw [map_cons, map_cons, hread.1, ih]

omit [Runtime] [Filters] in
theorem Current.reads {written read : Snapshot} (h : Current written) (hread : written.Reads read) :
    Current read := by
  obtain ⟨changes, hchanges, rfl⟩ := hread
  refine ⟨rfl, by simp, ?_⟩
  show (changes.map RowChange.id).Nodup
  rw [reads_ids hchanges]
  exact h.distinct

omit [Runtime] [Filters] [Serde] in
theorem Current.eqv {other : Snapshot} (h : Current snapshot)
    (heqv : other.eqv snapshot = true) : Current other := by
  simp only [Snapshot.eqv, Bool.and_eq_true, decide_eq_true_eq] at heqv
  obtain ⟨⟨-, hepoch⟩, hrows⟩ := heqv
  rw [h.rowChanges, eqvOption_iff rowChanges_eqv_iff, Option.map_some,
    Option.map_eq_some_iff] at hrows
  obtain ⟨changes, hchanges, hsame⟩ := hrows
  have hown : other.changes = changes := by rw [Snapshot.changes, hchanges]; rfl
  refine ⟨by rw [hown, hchanges], hepoch ▸ h.positive, ?_⟩
  have hids : ∀ own : List RowChange, own.map RowChange.id =
      (own.map RowChange.entry).map fun entry => ⟨entry.epoch, entry.number⟩ := by
    intro own
    rw [map_map]
    rfl
  rw [hown, hids, hsame, ← hids]
  exact h.distinct

/-- The histories that commits and collections leave. -/
structure Sound (records : List MvccRecord) (snapshots : OrderedMap Nat Snapshot) : Prop where
  orderly : Orderly (detachedOf records ++ changesOf snapshots)
  attached : snapshots = [] → detachedOf records = []
  current : ∀ entry ∈ snapshots, Current entry.2
  linked : KeepsRows snapshots → ∃ images, Linked snapshots images

variable {records : List MvccRecord} {snapshots : OrderedMap Nat Snapshot}

theorem Sound.committedRowChanges (h : Sound records snapshots)
    (hsnapshots : committedSnapshots records = .ok snapshots) :
    TxBase.Dbf.committedRowChanges records = .ok (detachedOf records ++ changesOf snapshots) := by
  rw [TxBase.Dbf.committedRowChanges, hsnapshots]
  show (snapshotChanges snapshots >>= fun changes =>
    lift (records.foldlM noteRowHistory changes)) = _
  rw [snapshotChanges_eq fun entry hentry => (h.current entry hentry).rowChanges]
  have hfold := foldlM_noteRowHistory_ascending records [] (changesOf snapshots) h.orderly.ascending
  exact congrArg lift hfold

omit [Runtime] [Filters] [Serde] in
theorem detachedOf_append (records more : List MvccRecord) :
    detachedOf (records ++ more) = detachedOf records ++ detachedOf more :=
  filterMap_append

variable {txn : Nat} {more : List MvccRecord}

theorem Prepares.detachedOf (h : Prepares txn records more snapshots built snapshot) :
    TxBase.Dbf.detachedOf more = TxBase.Dbf.detachedOf records := by
  rcases h.appended with rfl | rfl
  · rfl
  · rw [detachedOf_append]
    exact append_nil _

theorem Prepares.current (h : Prepares txn records more snapshots built snapshot)
    (hcurrent : ∀ entry ∈ snapshots, Current entry.2)
    (hsmall : ∀ entry ∈ snapshots, entry.2.rowEpoch < u64Size) :
    Current snapshot := by
  obtain ⟨files, forceNewEpoch, hbuilt⟩ := h.planned
  have hown := current_of_changesForCommit hbuilt (by
    intro last hlast
    obtain ⟨entry, hentry, rfl⟩ := Option.map_eq_some_iff.mp hlast
    have hmem := mem_of_getLast? hentry
    exact ⟨(hcurrent entry hmem).positive, hsmall entry hmem⟩)
  rcases h.alike with heqv | hreads
  · exact hown.eqv heqv
  · exact hown.reads hreads

theorem Sound.prepare (h : Sound records snapshots)
    (hprepares : Prepares txn records more snapshots built snapshot) : Sound more snapshots := by
  obtain ⟨horderly, hattached, hcurrent, hlinked⟩ := h
  refine ⟨?_, ?_, hcurrent, hlinked⟩ <;> rwa [hprepares.detachedOf]

theorem Sound.commit (h : Sound records snapshots) (hnew : ∀ entry ∈ snapshots, entry.1 < txn)
    (hcurrent : Current snapshot)
    (hlinked : KeepsRows (snapshots ++ [(txn, snapshot)]) →
      ∃ images, Linked (snapshots ++ [(txn, snapshot)]) images) :
    Sound (records ++ [.commit txn]) (snapshots ++ [(txn, snapshot)]) := by
  have hdetached : TxBase.Dbf.detachedOf (records ++ [.commit txn]) =
      TxBase.Dbf.detachedOf records := by
    rw [detachedOf_append]
    exact append_nil _
  have hchanges : changesOf (snapshots ++ [(txn, snapshot)]) =
      changesOf snapshots ++ [(txn, snapshot.changes)] := by simp [changesOf]
  refine ⟨?_, fun hnil => by simp at hnil, ?_, hlinked⟩
  · rw [hdetached, hchanges, ← append_assoc]
    refine ⟨?_, ?_⟩
    · rw [OrderedMap.Ascending, pairwise_append]
      refine ⟨h.orderly.ascending, pairwise_singleton _ _, ?_⟩
      intro entry hentry other hother
      rw [mem_singleton.mp hother]
      rcases mem_append.mp hentry with hentry | hentry
      · -- Row histories lie before the snapshots.
        cases hsnapshots : snapshots with
        | nil =>
          rw [h.attached hsnapshots] at hentry
          cases hentry
        | cons first rest =>
          have hfirst : first ∈ snapshots := hsnapshots ▸ mem_cons_self
          have hlt := (pairwise_append.mp h.orderly.ascending).2.2 entry hentry
            (first.1, first.2.changes) (mem_map.mpr ⟨first, hfirst, rfl⟩)
          exact Nat.lt_trans hlt (hnew first hfirst)
      · obtain ⟨source, hsource, rfl⟩ := mem_map.mp hentry
        exact hnew source hsource
    · intro entry hentry
      rcases mem_append.mp hentry with hentry | hentry
      · exact h.orderly.distinct entry hentry
      · rw [mem_singleton.mp hentry]
        exact hcurrent.distinct
  · intro entry hentry
    rcases mem_append.mp hentry with hentry | hentry
    · exact h.current entry hentry
    · rw [mem_singleton.mp hentry]
      exact hcurrent

end Shape

end TxBase.Dbf
