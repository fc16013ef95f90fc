import TxBase.Dbf.RowReads
import TxBase.Dbf.PendingLog

/-! Histories that prepares and commits build, and what row reads find in them. -/
namespace TxBase.Dbf
open Lib Json List
open Outcome (lift lift_eq_ok)
open Epochs (Image latest deltas)
variable {records more : List MvccRecord} {snapshot built : Snapshot} {txn : Nat}
  {images : List (Image RowState)} {forceNewEpoch : Bool} {next : LogFile} {schema : Option Bytes}
  {memo : Option MemoSnapshot} {entries : OrderedMap Nat Snapshot}

section Records

/-- The committed snapshots of what was noted. -/
def History.snapshots (history : History) : OrderedMap Nat Snapshot :=
  history.committed.filterMap fun entry =>
    (history.prepared.get? entry.1).map fun snapshot => (entry.1, snapshot)

/-- Every commit has its prepare record. -/
def History.Backed (history : History) : Prop :=
  ∀ entry ∈ history.committed, ∃ snapshot, history.prepared.get? entry.1 = some snapshot

variable {snapshots : OrderedMap Nat Snapshot}

theorem committedSnapshots_eq_ok :
    committedSnapshots records = .ok snapshots ↔
      ∃ history, records.foldlM History.note ⟨[], []⟩ = .ok history ∧
        history.snapshots = snapshots := by
  simp only [committedSnapshots, bind_eq_ok, Except.ok.injEq]
  rfl

variable {record : MvccRecord} {next history : History}

theorem History.note_cases (h : history.note record = .ok next) :
    (∃ txn snapshot, record = .prepare txn snapshot ∧
        next = { history with prepared := history.prepared.insert txn snapshot }) ∨
    (∃ txn snapshot, record = .commit txn ∧
        history.prepared.get? txn = some snapshot ∧
        next = { history with committed := history.committed.insert txn () }) ∨
    (∃ txn changes, record = .rowHistory txn changes ∧ next = history) := by
  cases record with
  | prepare txn snapshot =>
    cases h
    exact .inl ⟨txn, snapshot, rfl, rfl⟩
  | commit txn =>
    simp only [note, bind_eq_ok, reject_eq_ok, Except.ok.injEq] at h
    obtain ⟨-, hprepared, rfl⟩ := h
    cases hget : history.prepared.get? txn with
    | none => simp [hget] at hprepared
    | some snapshot => exact .inr (.inl ⟨txn, snapshot, rfl, hget, rfl⟩)
  | rowHistory txn changes =>
    cases h
    exact .inr (.inr ⟨txn, changes, rfl, rfl⟩)

theorem History.Backed.note (h : history.Backed) (hnote : history.note record = .ok next) :
    next.Backed := by
  rcases History.note_cases hnote with ⟨txn, snapshot, rfl, rfl⟩ |
    ⟨txn, snapshot, rfl, hprepared, rfl⟩ | ⟨txn, changes, rfl, rfl⟩
  · intro entry hentry
    rw [OrderedMap.get?_insert]
    split
    · exact ⟨snapshot, rfl⟩
    · exact h entry hentry
  · intro entry hentry
    rcases OrderedMap.mem_insert hentry with rfl | hentry
    · exact ⟨snapshot, hprepared⟩
    · exact h entry hentry
  · exact h

theorem History.Backed.mem_snapshots (h : history.Backed) {entry : Nat × Unit}
    (hentry : entry ∈ history.committed) :
    ∃ snapshot, (entry.1, snapshot) ∈ history.snapshots := by
  obtain ⟨snapshot, hsnapshot⟩ := h entry hentry
  exact ⟨snapshot, mem_filterMap.mpr ⟨entry, hentry, by rw [hsnapshot]; rfl⟩⟩

theorem backed_of_noted (h : records.foldlM History.note ⟨[], []⟩ = .ok history) : history.Backed :=
  foldlM_invariant (fun _ _ _ _ hstate hnote => hstate.note hnote)
    (fun entry hentry => by cases hentry) h

theorem preparedSnapshot_append (records : List MvccRecord) (record : MvccRecord)
    (txn : Nat) :
    preparedSnapshot (records ++ [record]) txn =
      match record with
      | .prepare id snapshot =>
          if id = txn then some snapshot else preparedSnapshot records txn
      | _ => preparedSnapshot records txn := by
  unfold preparedSnapshot
  rw [reverse_append, reverse_singleton, singleton_append, findSome?_cons]
  cases record with
  | prepare id snapshot =>
    by_cases hid : id = txn <;> simp [hid]
  | commit id => rfl
  | rowHistory id changes => rfl

theorem prepared_of_noted (h : records.foldlM History.note ⟨[], []⟩ = .ok history) (txn : Nat) :
    history.prepared.get? txn = preparedSnapshot records txn := by
  induction records using List.reverseRecOn generalizing history with
  | nil =>
    cases h
    rfl
  | append_singleton records record ih =>
    rw [foldlM_append] at h
    obtain ⟨before, hbefore, h⟩ := bind_eq_ok.mp h
    rw [foldlM_cons] at h
    obtain ⟨_, hnote, ⟨⟩⟩ := bind_eq_ok.mp h
    rw [preparedSnapshot_append, ← ih hbefore]
    rcases History.note_cases hnote with ⟨id, snapshot, rfl, rfl⟩ |
      ⟨id, snapshot, rfl, -, rfl⟩ | ⟨id, changes, rfl, rfl⟩
    · rw [OrderedMap.get?_insert]
      simp only [eq_comm]
    · rfl
    · rfl

theorem committedSnapshots_append :
    committedSnapshots (records ++ [record]) = .ok snapshots ↔
      ∃ history next, records.foldlM History.note ⟨[], []⟩ = .ok history ∧
        history.note record = .ok next ∧ next.snapshots = snapshots := by
  simp only [committedSnapshots_eq_ok, foldlM_append, foldlM_cons, foldlM_nil,
    bind_eq_ok]
  constructor
  · rintro ⟨next, ⟨history, hhistory, _, hnext, ⟨⟩⟩, hsnapshots⟩
    exact ⟨history, next, hhistory, hnext, hsnapshots⟩
  · rintro ⟨history, next, hhistory, hnext, hsnapshots⟩
    exact ⟨next, ⟨history, hhistory, next, hnext, rfl⟩, hsnapshots⟩

theorem committedSnapshots_prepare (h : committedSnapshots records = .ok snapshots)
    (hnew : ∀ entry ∈ snapshots, entry.1 < txn) :
    committedSnapshots (records ++ [.prepare txn snapshot]) = .ok snapshots := by
  obtain ⟨history, hhistory, rfl⟩ := committedSnapshots_eq_ok.mp h
  refine committedSnapshots_append.mpr ⟨history, _, hhistory, rfl, ?_⟩
  apply filterMap_congr
  intro entry hentry
  obtain ⟨other, hother⟩ := (backed_of_noted hhistory).mem_snapshots hentry
  rw [OrderedMap.get?_insert_ne _ _ (Nat.ne_of_lt (hnew _ hother))]

theorem committedSnapshots_commit (h : committedSnapshots records = .ok snapshots)
    (hnew : ∀ entry ∈ snapshots, entry.1 < txn)
    (hprepared : preparedSnapshot records txn = some snapshot) :
    committedSnapshots (records ++ [.commit txn]) = .ok (snapshots ++ [(txn, snapshot)]) := by
  obtain ⟨history, hhistory, rfl⟩ := committedSnapshots_eq_ok.mp h
  have hget : history.prepared.get? txn = some snapshot :=
    (prepared_of_noted hhistory txn).trans hprepared
  have hlast : history.committed.insert txn () =
      history.committed ++ [(txn, ())] := by
    apply OrderedMap.insert_last
    intro entry hentry
    obtain ⟨other, hother⟩ := (backed_of_noted hhistory).mem_snapshots hentry
    exact hnew _ hother
  have hnote : history.note (.commit txn) =
      .ok { history with committed := history.committed.insert txn () } := by
    simp [History.note, reject, hget]
    rfl
  refine committedSnapshots_append.mpr ⟨history, _, hhistory, hnote, ?_⟩
  rw [History.snapshots, hlast, filterMap_append]
  simp only [filterMap_cons, hget, Option.map_some, filterMap_nil]
  rfl

end Records

section Built
variable [Runtime] [Filters] [Serde]

/-- `serde_json` reads values back as they were written. -/
def Serde.Keeps (values : Map) : Prop :=
  ∀ body, Serde.valuesToVec values = .ok body →
    ∃ read, Serde.valuesFromSlice body = .ok read ∧ sameValues read values = true

/-- An empty text is no JSON document. -/
def Serde.RefusesEmpty : Prop := ∀ metadata, Serde.schemaFromSlice [] ≠ .ok metadata

omit [Runtime] [Filters] in
theorem Serde.Keeps.sameValues {written read : Map} (h : Serde.Keeps written)
    (hread : Serde.Reads written read) : sameValues read written = true := by
  obtain ⟨body, hbody, hslice⟩ := hread
  obtain ⟨other, hother, hsame⟩ := h body hbody
  cases hslice.symm.trans hother
  exact hsame

def snapshotsOf (log : LogFile) : Checked (OrderedMap Nat Snapshot) := do
  let records ← readMvccRecords log
  committedSnapshots records

def Later (transactionId : Nat) (log : LogFile) : Prop :=
  transactionId < u64Size ∧
    ∀ snapshots, snapshotsOf log = .ok snapshots → ∀ entry ∈ snapshots, entry.1 < transactionId

/-- The histories that prepares and commits build, each for a transaction behind those
committed so far: a save takes the id after the last one. -/
inductive Built : LogFile → Prop
  | start {log : LogFile} (h : log.payloads = .ok []) : Built log
  | prepare {log next : LogFile} {transactionId : Nat} {dbf : Bytes} {memo : Option MemoSnapshot}
      {schema : Option Bytes} {forceNewEpoch : Bool} (h : Built log)
      (hlater : Later transactionId log)
      (hstep : prepareLog transactionId dbf memo schema forceNewEpoch log = .ok next) : Built next
  | commit {log next : LogFile} {transactionId : Nat} {dbf : Bytes} {memo : Option MemoSnapshot}
      {schema : Option Bytes} {forceNewEpoch : Bool} (h : Built log)
      (hlater : Later transactionId log)
      (hstep : commitLog transactionId dbf memo schema forceNewEpoch log = .ok next) : Built next

/-- The committed snapshots with the images that they show. -/
inductive Linked : OrderedMap Nat Snapshot → List (Image RowState) → Prop
  | nil : Linked [] []
  | snoc {entries : OrderedMap Nat Snapshot} {images : List (Image RowState)}
      {transactionId : Nat} {snapshot : Snapshot} {image : Image RowState}
      (h : Linked entries images) (hpositive : transactionId ≠ 0)
      (hlater : ∀ entry ∈ entries, entry.1 < transactionId)
      (hfollowsOn : ∀ last ∈ entries.getLast?.map Prod.snd, FollowsOn last snapshot)
      (hrecorded : Recorded images.getLast? snapshot image) :
      Linked (entries ++ [(transactionId, snapshot)]) (images ++ [image])

theorem Linked.last (h : Linked entries images) :
    Option.Rel Shows (entries.getLast?.map Prod.snd) images.getLast? ∧
      ∀ last ∈ images.getLast?, 0 < last.epoch ∧ last.epoch < u64Size := by
  cases h with
  | nil => exact ⟨.none, fun last hlast => by cases hlast⟩
  | snoc h hpositive hlater hfollowsOn hrecorded =>
    rw [getLast?_concat, getLast?_concat]
    refine ⟨.some hrecorded.shows, ?_⟩
    rintro _ ⟨⟩
    exact ⟨hrecorded.positive, hrecorded.small⟩

variable {previous : Option Snapshot} {current : Snapshot}

section
variable (h : changesForCommit previous current forceNewEpoch = .ok built)
include h

theorem changes_values :
    ∀ change ∈ built.changes, ∃ snapshot table record,
      (snapshot = built ∨ snapshot ∈ previous) ∧ fromSnapshot snapshot = .ok table ∧
        record ∈ table.records ∧ change.values = record.values ∧
        change.recordNumber = record.number ∧
        (change.epoch = built.rowEpoch ∨ ∃ last ∈ previous, change.epoch = effectiveEpoch last) := by
  obtain ⟨currentTable, hcurrent, h⟩ := bind_eq_ok.mp h
  have hcurrentRows : ∀ {epoch : Nat} {changes : List RowChange} {change : RowChange},
      change ∈ currentRows currentTable epoch → ∃ snapshot table record,
        (snapshot = withChanges current epoch changes ∨ snapshot ∈ previous) ∧
          fromSnapshot snapshot = .ok table ∧ record ∈ table.records ∧
          change.values = record.values ∧ change.recordNumber = record.number ∧
          (change.epoch = epoch ∨ ∃ last ∈ previous, change.epoch = effectiveEpoch last) := by
    intro epoch changes change hchange
    obtain ⟨record, hrecord, rfl⟩ := mem_map.mp hchange
    exact ⟨_, currentTable, record, .inl rfl, hcurrent, hrecord, rfl, rfl, .inl rfl⟩
  cases previous with
  | none =>
    cases h
    exact fun change hchange => hcurrentRows hchange
  | some last =>
    obtain ⟨lastTable, hlast, h⟩ := bind_eq_ok.mp h
    rw [lift_eq_ok] at h
    unfold changesBetween at h
    split at h
    · obtain ⟨-, -, h⟩ := bind_eq_ok.mp h
      cases h
      intro change hchange
      rcases mem_append.mp hchange with hchange | hchange
      · obtain ⟨record, hrecord, rfl⟩ := mem_map.mp hchange
        exact ⟨last, lastTable, record, .inr rfl, hlast, hrecord, rfl, rfl, .inr ⟨last, rfl, rfl⟩⟩
      · exact hcurrentRows hchange
    · cases h
      intro change hchange
      obtain ⟨⟨record, index⟩, hentry, rfl⟩ := mem_map.mp hchange
      obtain ⟨hentry, -⟩ := mem_filter.mp hentry
      have hrecord : record ∈ currentTable.records :=
        mem_of_getElem? (mem_zipIdx_iff_getElem?.mp hentry)
      exact ⟨_, currentTable, record, .inl rfl, hcurrent, hrecord, rfl, rfl, .inl rfl⟩

theorem changesForCommit_eq_ok (hsmall : ∀ last ∈ previous, last.rowEpoch < u64Size) :
    (∃ table, fromSnapshot built = .ok table) ∧ built.dbf = current.dbf ∧
      built.memo = current.memo ∧ built.schema = current.schema ∧ 0 < built.rowEpoch ∧
        built.rowEpoch < u64Size ∧ built.rowChanges = some built.changes := by
  obtain ⟨currentTable, hcurrent, h⟩ := bind_eq_ok.mp h
  have hone : 1 < u64Size := by decide
  obtain ⟨epoch, changes, rfl, hpos, hlt⟩ : ∃ epoch changes,
    built = withChanges current epoch changes ∧
      0 < epoch ∧ epoch < u64Size := by
    cases previous with
    | none =>
      cases h
      exact ⟨_, _, rfl, Nat.one_pos, hone⟩
    | some last =>
      have hlast := hsmall last rfl
      obtain ⟨lastTable, -, h⟩ := bind_eq_ok.mp h
      rw [lift_eq_ok] at h
      unfold changesBetween at h
      split at h
      · obtain ⟨⟨⟩, hroom, h⟩ := bind_eq_ok.mp h
        cases h
        rw [reject_eq_ok, Nat.not_le] at hroom
        exact ⟨_, _, rfl, Nat.succ_pos _, hroom⟩
      · cases h
        refine ⟨_, _, rfl, ?_, ?_⟩
        · simp [effectiveEpoch]
        · simp only [effectiveEpoch]
          omega
  exact ⟨⟨currentTable, hcurrent⟩, rfl, rfl, rfl, hpos, hlt, rfl⟩

theorem changesForCommit_fits (hsmall : ∀ last ∈ previous, last.rowEpoch < u64Size) :
    ∀ change ∈ built.changes, change.Fits := by
  intro change hchange
  obtain ⟨-, -, -, -, -, hbuilt, -⟩ := changesForCommit_eq_ok h hsmall
  obtain ⟨snapshot, table, record, -, htable, hrecord, -, hnumber, hepoch⟩ :=
    changes_values h change hchange
  have hcoherent := coherent_fromSnapshot htable
  constructor
  · rcases hepoch with hepoch | ⟨last, hlast, hepoch⟩
    · rwa [hepoch]
    · have hlt := hsmall last hlast
      have hone : 1 < u64Size := by decide
      rw [hepoch, effectiveEpoch]
      omega
  · obtain ⟨index, hindex, hat⟩ := mem_iff_getElem.mp hrecord
    have hlimit := hcoherent.layout.headerLength_lt.2.2
    have hnumbered := hcoherent.numbered index record (by rw [getElem?_eq_getElem hindex, hat])
    have hcounted := hcoherent.counted
    have hsizes : u32Size < u64Size := by decide
    omega

end

theorem schema_ne_empty (hserde : Serde.RefusesEmpty) {table : DbfTable}
    (h : fromSnapshot snapshot = .ok table) :
    snapshot.schema ≠ some [] := by
  intro hschema
  obtain ⟨schema, hread, -⟩ := bind_eq_ok.mp h
  rw [lift_eq_ok, hschema] at hread
  obtain ⟨metadata, hmetadata, -⟩ := bind_eq_ok.mp hread
  unfold SchemaMetadata.fromBytes at hmetadata
  split at hmetadata
  · cases hmetadata
  · rename_i accepted haccepted
    exact hserde accepted haccepted

variable {log : LogFile}

omit [Runtime] [Filters] in
theorem readMvccRecords_append {payload : Bytes} (hread : readMvccRecords log = .ok records)
    (happend : next = log.append payload) :
    readMvccRecords next = .ok more ↔
      ∃ record, decodeRecord payload = .ok record ∧ more = records ++ [record] := by
  obtain ⟨payloads, hpayloads, hrecords⟩ := bind_eq_ok.mp hread
  rw [happend, payloads_append hpayloads]
  simp only [readMvccRecords, LogFile.payloads, bind_eq_ok, Except.ok.injEq, exists_eq_left',
    mapM_append, hrecords, mapM_cons, mapM_nil, pure, Except.pure]
  constructor
  · rintro ⟨_, ⟨record, hrecord, rfl⟩, rfl⟩
    exact ⟨record, hrecord, rfl⟩
  · rintro ⟨record, hrecord, rfl⟩
    exact ⟨_, ⟨record, hrecord, rfl⟩, rfl⟩

variable {snapshots : OrderedMap Nat Snapshot}

omit [Runtime] [Filters] in
theorem prepare_of_read (h : snapshotsOf log = .ok snapshots) :
    ∀ entry ∈ snapshots, ∃ payload, decodeRecord payload = .ok (.prepare entry.1 entry.2) := by
  obtain ⟨records, hread, hsnapshots⟩ := bind_eq_ok.mp h
  obtain ⟨payloads, -, hrecords⟩ := bind_eq_ok.mp hread
  obtain ⟨history, hhistory, rfl⟩ := committedSnapshots_eq_ok.mp hsnapshots
  intro entry hentry
  obtain ⟨committed, -, hentry⟩ := mem_filterMap.mp hentry
  obtain ⟨snapshot, hsnapshot, rfl⟩ := Option.map_eq_some_iff.mp hentry
  rw [prepared_of_noted hhistory] at hsnapshot
  obtain ⟨record, hmem, hrecord⟩ := exists_of_findSome?_eq_some hsnapshot
  obtain ⟨payload, -, hpayload⟩ := mem_of_mapM_eq_ok hrecords (mem_reverse.mp hmem)
  cases record with
  | prepare id prepared =>
    simp only [Option.ite_none_right_eq_some, Option.some.injEq] at hrecord
    obtain ⟨rfl, rfl⟩ := hrecord
    exact ⟨payload, hpayload⟩
  | commit id => cases hrecord
  | rowHistory id changes => cases hrecord

omit [Runtime] [Filters] in
theorem rowEpoch_of_read (h : snapshotsOf log = .ok snapshots) :
    ∀ entry ∈ snapshots, entry.2.rowEpoch < u64Size := by
  intro entry hentry
  obtain ⟨payload, hpayload⟩ := prepare_of_read h entry hentry
  exact (decodeRecord_words hpayload).2.2.1

/-- What a prepare leaves for its transaction. -/
structure Prepares (transactionId : Nat) (records more : List MvccRecord)
    (snapshots : OrderedMap Nat Snapshot) (built snapshot : Snapshot) : Prop where
  planned : ∃ current forceNewEpoch,
    changesForCommit (snapshots.getLast?.map Prod.snd) current forceNewEpoch = .ok built
  prepared : preparedSnapshot more transactionId = some snapshot
  alike : snapshot.eqv built = true ∨ built.Reads snapshot
  appended : more = records ∨ more = records ++ [.prepare transactionId snapshot]

variable {dbf : Bytes}

theorem prepares_of_prepareLog (hserde : Serde.RefusesEmpty) (hid : txn < u64Size)
    (hread : readMvccRecords log = .ok records)
    (hsnapshots : committedSnapshots records = .ok snapshots)
    (hstep : prepareLog txn dbf memo schema forceNewEpoch log = .ok next)
    (hmore : readMvccRecords next = .ok more) :
    ∃ built snapshot, Prepares txn records more snapshots built snapshot := by
  have hof : snapshotsOf log = .ok snapshots := by
    rw [snapshotsOf, hread]
    exact hsnapshots
  have hsmall : ∀ last ∈ snapshots.getLast?.map Prod.snd, last.rowEpoch < u64Size := by
    intro last hlast
    obtain ⟨entry, hentry, rfl⟩ := Option.map_eq_some_iff.mp hlast
    exact rowEpoch_of_read hof entry (mem_of_getLast? hentry)
  simp only [prepareLog, planPrepare, bind_eq_ok, lift_eq_ok, hread, hsnapshots, Except.ok.injEq,
    exists_eq_left'] at hstep
  obtain ⟨record, ⟨built, hbuilt, hplan⟩, happend⟩ := hstep
  cases hexisting : preparedSnapshot records txn with
  | some existing =>
    simp only [hexisting, bind_eq_ok, lift_eq_ok, reject_eq_ok, Except.ok.injEq] at hplan
    obtain ⟨-, heqv, rfl⟩ := hplan
    cases happend
    cases hread.symm.trans hmore
    exact ⟨built, existing, ⟨_, _, hbuilt⟩, hexisting, .inl (by simpa using heqv), .inl rfl⟩
  | none =>
    simp only [hexisting, bind_eq_ok, lift_eq_ok, Except.ok.injEq] at hplan
    obtain ⟨payload, hpayload, rfl⟩ := hplan
    simp only [appendLog, bind_eq_ok, lift_eq_ok, Except.ok.injEq] at happend
    obtain ⟨⟨⟩, hfits, rfl⟩ := happend
    obtain ⟨record, hrecord, rfl⟩ := (readMvccRecords_append hread rfl).mp hmore
    obtain ⟨⟨table, htable⟩, -, -, -, -, hepoch, -⟩ := changesForCommit_eq_ok hbuilt hsmall
    have hlength : payload.length < u64Size :=
      lt_of_le_of_lt (checkRecordSize_eq_ok.mp hfits) (by decide)
    obtain ⟨read, hreads, rfl⟩ := (decodeRecord_prepare hpayload hid hlength hepoch
      (changesForCommit_fits hbuilt hsmall) (schema_ne_empty hserde htable)).mp hrecord
    refine ⟨built, read, ⟨_, _, hbuilt⟩, ?_, .inr hreads, .inr rfl⟩
    rw [preparedSnapshot_append]
    exact if_pos rfl

/-- `serde_json` reads back the values of the rows that were committed. -/
def KeepsRows (snapshots : OrderedMap Nat Snapshot) : Prop :=
  ∀ entry ∈ snapshots, ∀ table, fromSnapshot entry.2 = .ok table →
    ∀ record ∈ table.records, Serde.Keeps record.values

omit [Runtime] [Filters] in
theorem RowChange.Reads.entry {written read : RowChange} (h : written.Reads read)
    (hkeeps : Serde.Keeps written.values) : read.entry = written.entry := by
  obtain ⟨hid, hdeleted, hvalues⟩ := h
  simp only [RowChange.id, RowId.mk.injEq] at hid
  have hsame := sameValues_iff.mp (hkeeps.sameValues hvalues)
  rw [RowChange.entry, RowChange.entry, hid.1, hid.2, hdeleted, hsame]

omit [Runtime] [Filters] in
theorem reads_entries {written read : List RowChange}
    (h : List.Forall₂ RowChange.Reads written read)
    (hkeeps : ∀ change ∈ written, Serde.Keeps change.values) :
    read.map RowChange.entry = written.map RowChange.entry := by
  induction h with
  | nil => rfl
  | cons hread hreads ih =>
    rw [map_cons, map_cons, hread.entry (hkeeps _ mem_cons_self),
      ih (forall_mem_cons.mp hkeeps).2]

omit [Runtime] [Filters] in
theorem Snapshot.Reads.eqv {written read : Snapshot} (h : written.Reads read)
    (hkeeps : ∀ change ∈ written.changes, Serde.Keeps change.values)
    (hchanges : written.rowChanges = some written.changes) (hepoch : 0 < written.rowEpoch) :
    read.eqv written = true := by
  obtain ⟨changes, hreads, rfl⟩ := h
  simp only [Snapshot.eqv, Nat.max_eq_left hepoch, decide_true, Bool.true_and, hchanges, eqvOption,
    rowChanges_eqv_iff, reads_entries hreads hkeeps]

theorem Prepares.recorded (h : Prepares txn records more snapshots built snapshot)
    (hlinked : Linked snapshots images) (hsmall : ∀ entry ∈ snapshots, entry.2.rowEpoch < u64Size)
    (hkeeps : KeepsRows (snapshots ++ [(txn, snapshot)])) :
    (∀ last ∈ snapshots.getLast?.map Prod.snd, FollowsOn last snapshot) ∧
      ∃ image, Recorded images.getLast? snapshot image := by
  obtain ⟨⟨current, forceNewEpoch, hbuilt⟩, -, halike, -⟩ := h
  obtain ⟨hlast, hepochs⟩ := hlinked.last
  obtain ⟨image, himage⟩ := changesForCommit_recorded hbuilt hlast hepochs
  suffices heqv : snapshot.eqv built = true by
    refine ⟨fun last hlast => ?_, image, himage.congr heqv⟩
    rw [Option.mem_def.mp hlast] at hbuilt
    exact (changesForCommit_followsOn hbuilt).1.congr rfl rfl rfl rfl heqv
  rcases halike with heqv | hreads
  · exact heqv
  · have hprevious : ∀ last ∈ snapshots.getLast?.map Prod.snd, ∃ entry ∈ snapshots,
        entry.2 = last := by
      intro last hlast
      obtain ⟨entry, hentry, rfl⟩ := Option.map_eq_some_iff.mp hlast
      exact ⟨entry, mem_of_getLast? hentry, rfl⟩
    have hsmallLast : ∀ last ∈ snapshots.getLast?.map Prod.snd, last.rowEpoch < u64Size := by
      intro last hlast
      obtain ⟨entry, hentry, rfl⟩ := hprevious last hlast
      exact hsmall entry hentry
    obtain ⟨-, -, -, -, hpos, -, hchanges⟩ := changesForCommit_eq_ok hbuilt hsmallLast
    refine hreads.eqv ?_ hchanges hpos
    intro change hchange
    obtain ⟨source, table, record, hsource, htable, hrecord, hvalues, -⟩ :=
      changes_values hbuilt change hchange
    rw [hvalues]
    rcases hsource with rfl | hsource
    · obtain ⟨changes, -, rfl⟩ := hreads
      exact hkeeps _ (mem_append_right _ mem_cons_self) table htable record hrecord
    · obtain ⟨entry, hentry, rfl⟩ := hprevious source hsource
      exact hkeeps entry (mem_append_left _ hentry) table htable record hrecord

theorem read_of_prepareLog (h : prepareLog txn dbf memo schema forceNewEpoch log = .ok next) :
    ∃ records snapshots, readMvccRecords log = .ok records ∧
      committedSnapshots records = .ok snapshots := by
  simp only [prepareLog, planPrepare, bind_eq_ok, lift_eq_ok] at h
  obtain ⟨record, ⟨records, hrecords, snapshots, hsnapshots, -⟩, -⟩ := h
  exact ⟨records, snapshots, hrecords, hsnapshots⟩

section Prepared
variable {snapshots : OrderedMap Nat Snapshot}

theorem Prepares.committed (h : Prepares txn records more snapshots built snapshot)
    (hsnapshots : committedSnapshots records = .ok snapshots)
    (hnew : ∀ entry ∈ snapshots, entry.1 < txn) : committedSnapshots more = .ok snapshots := by
  rcases h.appended with rfl | rfl
  · exact hsnapshots
  · exact committedSnapshots_prepare hsnapshots hnew

theorem Prepares.not_detached (h : Prepares txn records more snapshots built snapshot)
    (hnone : ∀ id changes, MvccRecord.rowHistory id changes ∉ records) (id : Nat)
    (changes : List RowChange) : MvccRecord.rowHistory id changes ∉ more := by
  rcases h.appended with rfl | rfl
  · exact hnone id changes
  · simp [hnone id changes]

end Prepared

section Steps
variable {log : LogFile} {dbf : Bytes} {snapshots : OrderedMap Nat Snapshot}

theorem prepareLog_step (hserde : Serde.RefusesEmpty) (hlater : Later txn log)
    (hstep : prepareLog txn dbf memo schema forceNewEpoch log = .ok next)
    (hread : readMvccRecords next = .ok records)
    (hsnapshots : committedSnapshots records = .ok snapshots) :
    ∃ before built snapshot, readMvccRecords log = .ok before ∧
      committedSnapshots before = .ok snapshots ∧
      Prepares txn before records snapshots built snapshot := by
  obtain ⟨before, committed, hbefore, hcommitted⟩ := read_of_prepareLog hstep
  have hnew := hlater.2 committed (bind_eq_ok.mpr ⟨before, hbefore, hcommitted⟩)
  obtain ⟨built, snapshot, hprepares⟩ :=
    prepares_of_prepareLog hserde hlater.1 hbefore hcommitted hstep hread
  cases hsnapshots.symm.trans (hprepares.committed hcommitted hnew)
  exact ⟨before, built, snapshot, hbefore, hcommitted, hprepares⟩

theorem commitLog_step (hserde : Serde.RefusesEmpty) (hlater : Later txn log)
    (hstep : commitLog txn dbf memo schema forceNewEpoch log = .ok next)
    (hread : readMvccRecords next = .ok records)
    (hsnapshots : committedSnapshots records = .ok snapshots) :
    ∃ before more committed built snapshot, readMvccRecords log = .ok before ∧
      committedSnapshots before = .ok committed ∧
      Prepares txn before more committed built snapshot ∧
      records = more ++ [.commit txn] ∧
      snapshots = committed ++ [(txn, snapshot)] ∧ txn ≠ 0 ∧
      ∀ entry ∈ committed, entry.1 < txn := by
  simp only [commitLog, bind_eq_ok, lift_eq_ok] at hstep
  obtain ⟨prepared, hprepare, present, hpresent, happend⟩ := hstep
  obtain ⟨more, hmore, hpresent⟩ := bind_eq_ok.mp hpresent
  obtain ⟨before, committed, hbefore, hcommitted⟩ := read_of_prepareLog hprepare
  have hnew := hlater.2 committed (bind_eq_ok.mpr ⟨before, hbefore, hcommitted⟩)
  obtain ⟨built, snapshot, hprepares⟩ :=
    prepares_of_prepareLog hserde hlater.1 hbefore hcommitted hprepare hmore
  have hstill := hprepares.committed hcommitted hnew
  -- The transaction is not committed yet, so its commit record is written.
  have habsent := OrderedMap.get?_eq_none fun entry hentry => Nat.ne_of_lt (hnew entry hentry)
  simp only [hstill, bind_eq_ok, Except.ok.injEq, exists_eq_left', habsent, Option.isSome_none]
    at hpresent
  subst hpresent
  simp only [Bool.false_eq_true, if_false, appendLog, bind_eq_ok, lift_eq_ok, Except.ok.injEq]
    at happend
  obtain ⟨⟨⟩, -, rfl⟩ := happend
  obtain ⟨record, hrecord, rfl⟩ := (readMvccRecords_append hmore rfl).mp hread
  obtain ⟨hpositive, rfl⟩ := (decodeRecord_commit hlater.1).mp hrecord
  cases hsnapshots.symm.trans (committedSnapshots_commit hstill hnew hprepares.prepared)
  exact ⟨before, more, committed, built, snapshot, hbefore, hcommitted, hprepares, rfl, rfl,
    hpositive, hnew⟩

theorem Prepares.linked {before : List MvccRecord}
    (h : Prepares txn before more snapshots built snapshot)
    (hpositive : txn ≠ 0) (hnew : ∀ entry ∈ snapshots, entry.1 < txn)
    (hread : readMvccRecords log = .ok before)
    (hsnapshots : committedSnapshots before = .ok snapshots)
    (hlinked : KeepsRows snapshots → ∃ images, Linked snapshots images)
    (hkeeps : KeepsRows (snapshots ++ [(txn, snapshot)])) :
    ∃ images, Linked (snapshots ++ [(txn, snapshot)]) images := by
  obtain ⟨images, himages⟩ := hlinked fun entry hentry =>
    hkeeps entry (mem_append_left _ hentry)
  have hof : snapshotsOf log = .ok snapshots := bind_eq_ok.mpr ⟨before, hread, hsnapshots⟩
  obtain ⟨hfollowsOn, image, himage⟩ := h.recorded himages (rowEpoch_of_read hof) hkeeps
  exact ⟨images ++ [image], himages.snoc hpositive hnew hfollowsOn himage⟩

end Steps

theorem linked_of_built (hserde : Serde.RefusesEmpty) (h : Built log)
    (hread : readMvccRecords log = .ok records)
    (hsnapshots : committedSnapshots records = .ok snapshots) :
    (∀ txn changes, MvccRecord.rowHistory txn changes ∉ records) ∧
      (KeepsRows snapshots → ∃ images, Linked snapshots images) := by
  induction h generalizing records snapshots with
  | start hempty =>
    rw [readMvccRecords, hempty] at hread
    cases hread
    cases hsnapshots
    exact ⟨fun _ _ hmem => (not_mem_nil hmem).elim, fun _ => ⟨[], .nil⟩⟩
  | prepare h hlater hstep ih =>
    obtain ⟨before, built, snapshot, hbefore, hcommitted, hprepares⟩ :=
      prepareLog_step hserde hlater hstep hread hsnapshots
    obtain ⟨hnone, hlinked⟩ := ih hbefore hcommitted
    exact ⟨hprepares.not_detached hnone, hlinked⟩
  | commit h hlater hstep ih =>
    obtain ⟨before, more, committed, built, snapshot, hbefore, hcommitted, hprepares, rfl, rfl,
      hpositive, hnew⟩ := commitLog_step hserde hlater hstep hread hsnapshots
    obtain ⟨hnone, hlinked⟩ := ih hbefore hcommitted
    refine ⟨?_, hprepares.linked hpositive hnew hbefore hcommitted hlinked⟩
    intro id changes hmem
    rcases mem_append.mp hmem with hmem | hmem
    · exact hprepares.not_detached hnone id changes hmem
    · simp at hmem

end Built

section Reads
theorem foldl_noteChange (id : RowId) (txn : Nat) (changes : List RowChange)
    (current : Option RowVersion) :
    (changes.foldl (noteChange id txn) current).map RowVersion.entry =
      (latest (changes.map RowChange.entry) id.epoch id.recordNumber).or
        (current.map RowVersion.entry) := by
  induction changes using List.reverseRecOn with
  | nil => rfl
  | append_singleton changes change ih =>
    rw [foldl_append, foldl_cons, foldl_nil, map_append, Epochs.latest_append]
    have hof : Epochs.Entry.isOf id.epoch id.recordNumber change.entry =
        decide (change.id = id) := by
      cases id
      rw [Bool.eq_iff_iff, decide_eq_true_iff, Epochs.Entry.isOf, Bool.and_eq_true,
        decide_eq_true_iff, decide_eq_true_iff, RowChange.id, RowId.mk.injEq]
      rfl
    have hmatch : latest (List.map RowChange.entry [change]) id.epoch id.recordNumber =
        if change.id = id then some change.entry else none := by
      rw [map_singleton, latest, filter_singleton, hof]
      by_cases hid : change.id = id <;> simp [hid]
    rw [hmatch, noteChange]
    split
    · rfl
    · rw [ih]
      rfl

theorem foldlM_noteRowHistory (h : ∀ txn changes, MvccRecord.rowHistory txn changes ∉ records)
    (changes : OrderedMap Nat (List RowChange)) :
    records.foldlM noteRowHistory changes = .ok changes := by
  induction records with
  | nil => rfl
  | cons record rest ih =>
    have hrest := ih fun id more hmem => h id more (mem_cons_of_mem _ hmem)
    cases record with
    | rowHistory id more => exact absurd mem_cons_self (h id more)
    | prepare id snapshot => exact hrest
    | commit id => exact hrest

def changesOf (entries : OrderedMap Nat Snapshot) : OrderedMap Nat (List RowChange) :=
  entries.map fun entry => (entry.1, entry.2.changes)

def entriesOf (changes : OrderedMap Nat (List RowChange)) : List (Epochs.Entry RowState) :=
  changes.flatMap fun entry => entry.2.map RowChange.entry

theorem versionAt_entry (changes : OrderedMap Nat (List RowChange)) (txn : Nat) (id : RowId) :
    (versionAt changes txn id).map RowVersion.entry =
      latest (entriesOf (changes.filter fun entry => entry.1 ≤ txn)) id.epoch
        id.recordNumber := by
  unfold versionAt
  generalize changes.filter (fun entry => entry.1 ≤ txn) = seen
  induction seen using List.reverseRecOn with
  | nil => rfl
  | append_singleton seen entry ih =>
    have hentries : entriesOf (seen ++ [entry]) = entriesOf seen ++ entry.2.map RowChange.entry := by
      simp [entriesOf]
    rw [foldl_append, foldl_cons, foldl_nil, foldl_noteChange, ih, hentries,
      Epochs.latest_append]

variable [Runtime] [Filters] [Serde]

theorem snapshotChanges_eq (h : ∀ entry ∈ entries, entry.2.rowChanges = some entry.2.changes) :
    snapshotChanges entries = .ok (changesOf entries) := by
  induction entries with
  | nil => rfl
  | cons entry rest ih =>
    obtain ⟨txn, snapshot⟩ := entry
    have hsnapshot := h _ mem_cons_self
    dsimp only at hsnapshot
    rw [snapshotChanges, changesForSnapshot, hsnapshot,
      ih (forall_mem_cons.mp h).2]
    rfl

variable {image : Image RowState}

theorem Recorded.rowChanges {previous : Option (Image RowState)}
    (h : Recorded previous snapshot image) :
    snapshot.rowChanges = some snapshot.changes ∧
      snapshot.changes.map RowChange.entry = Epochs.delta retired previous image := by
  obtain ⟨changes, hchanges, hentries⟩ := h.changes
  have heq : snapshot.changes = changes := by rw [Snapshot.changes, hchanges]; rfl
  rw [heq]
  exact ⟨hchanges, hentries⟩

theorem Linked.log (h : Linked entries images) :
    (∀ entry ∈ entries, entry.2.rowChanges = some entry.2.changes) ∧
      entriesOf (changesOf entries) = (deltas retired none images).flatten ∧
      images.IsChain Epochs.Follows ∧
      ∀ entry ∈ entries, ∃ image ∈ images, 0 < image.epoch ∧ Shows entry.2 image := by
  induction h with
  | nil => exact ⟨by simp, rfl, .nil, by simp⟩
  | @snoc entries images txn snapshot image h hpositive hlater hfollowsOn hrecorded ih =>
    obtain ⟨hchanges, hentries, hchain, hshows⟩ := ih
    obtain ⟨hsnapshot, hdelta⟩ := hrecorded.rowChanges
    refine ⟨?_, ?_, ?_, ?_⟩
    · intro entry hentry
      rcases mem_append.mp hentry with hentry | hentry
      · exact hchanges entry hentry
      · rw [mem_singleton.mp hentry]
        exact hsnapshot
    · have happend : entriesOf (changesOf (entries ++ [(txn, snapshot)])) =
          entriesOf (changesOf entries) ++ snapshot.changes.map RowChange.entry := by
        simp [entriesOf, changesOf]
      rw [happend, hentries, hdelta, Epochs.deltas_append, flatten_append,
        flatten_singleton, Option.or_none]
    · refine hchain.append (.singleton image) ?_
      intro last hlast next hnext
      cases hnext
      exact hrecorded.follows last hlast
    · intro entry hentry
      rcases mem_append.mp hentry with hentry | hentry
      · obtain ⟨other, hother, hshow⟩ := hshows entry hentry
        exact ⟨other, mem_append_left _ hother, hshow⟩
      · rw [mem_singleton.mp hentry]
        exact ⟨image, mem_append_right _ mem_cons_self, hrecorded.positive,
          hrecorded.shows⟩

/-- The history as it was when a transaction was committed. -/
structure UpTo (entries : OrderedMap Nat Snapshot) (transactionId : Nat) (snapshot : Snapshot)
    (front back : OrderedMap Nat Snapshot) (images : List (Image RowState))
    (image : Image RowState) : Prop where
  split : entries = front ++ (transactionId, snapshot) :: back
  linked : Linked (front ++ [(transactionId, snapshot)]) (images ++ [image])
  recorded : Recorded images.getLast? snapshot image
  positive : transactionId ≠ 0
  before : ∀ entry ∈ front, entry.1 < transactionId
  behind : ∀ entry ∈ back, transactionId < entry.1

theorem Linked.upTo (h : Linked entries images) (hmem : (txn, snapshot) ∈ entries) :
    ∃ front back earlier image, UpTo entries txn snapshot front back earlier image := by
  induction h with
  | nil => cases hmem
  | @snoc entries images other last image h hpositive hlater hfollowsOn hrecorded ih =>
    rcases mem_append.mp hmem with hmem | hmem
    · obtain ⟨front, back, earlier, found, hup⟩ := ih hmem
      refine ⟨front, back ++ [(other, last)], earlier, found, ?_, hup.linked, hup.recorded,
        hup.positive, hup.before, ?_⟩
      · rw [hup.split, append_assoc, cons_append]
      · intro entry hentry
        rcases mem_append.mp hentry with hentry | hentry
        · exact hup.behind entry hentry
        · rw [mem_singleton.mp hentry]
          exact hlater _ hmem
    · cases mem_singleton.mp hmem
      exact ⟨entries, [], images, image, rfl,
        h.snoc hpositive hlater hfollowsOn hrecorded, hrecorded,
        hpositive, hlater, fun entry hentry => by cases hentry⟩

variable {front back : OrderedMap Nat Snapshot}

theorem UpTo.filter (h : UpTo entries txn snapshot front back images image) :
    (changesOf entries).filter (fun entry => entry.1 ≤ txn) =
      changesOf (front ++ [(txn, snapshot)]) := by
  have hwhole : changesOf entries =
      changesOf (front ++ [(txn, snapshot)]) ++ changesOf back := by
    rw [h.split]
    simp [changesOf]
  rw [hwhole, filter_append]
  have hfront : (changesOf (front ++ [(txn, snapshot)])).filter
      (fun entry => entry.1 ≤ txn) = changesOf (front ++ [(txn, snapshot)]) := by
    rw [filter_eq_self]
    intro entry hentry
    obtain ⟨source, hsource, rfl⟩ := mem_map.mp hentry
    rcases mem_append.mp hsource with hsource | hsource
    · exact decide_eq_true (Nat.le_of_lt (h.before source hsource))
    · rw [mem_singleton.mp hsource]
      exact decide_eq_true (Nat.le_refl _)
  have hback : (changesOf back).filter (fun entry => entry.1 ≤ txn) = [] := by
    rw [filter_eq_nil_iff]
    intro entry hentry
    obtain ⟨source, hsource, rfl⟩ := mem_map.mp hentry
    simpa using h.behind source hsource
  rw [hfront, hback, append_nil]

variable {log : LogFile}

theorem UpTo.mvccReadRow {whole : List (Image RowState)}
    (h : UpTo entries txn snapshot front back images image)
    (hread : readMvccRecords log = .ok records)
    (hsnapshots : committedSnapshots records = .ok entries)
    (hnone : ∀ id changes, MvccRecord.rowHistory id changes ∉ records)
    (hlinked : Linked entries whole)
    (epoch number : Nat) (hepoch : 0 < epoch) :
    ∃ version, TxBase.Dbf.mvccReadRow txn ⟨epoch, number + 1⟩ log = .ok version ∧
      version.map RowVersion.entry =
        latest (deltas retired none (images ++ [image])).flatten epoch
          (number + 1) := by
  have hchanges : committedRowChanges records = .ok (changesOf entries) := by
    rw [committedRowChanges, hsnapshots]
    show (snapshotChanges entries >>= fun changes =>
      lift (records.foldlM noteRowHistory changes)) = _
    rw [snapshotChanges_eq hlinked.log.1]
    exact congrArg lift (foldlM_noteRowHistory hnone _)
  have hretained : ((changesOf entries).get? txn).isNone = false := by
    rw [Option.isNone_eq_false_iff, Option.isSome_iff_ne_none, Ne, OrderedMap.get?_eq_none_iff,
      not_not, h.split]
    simp [changesOf]
  refine ⟨versionAt (changesOf entries) txn ⟨epoch, number + 1⟩, ?_, ?_⟩
  · rw [TxBase.Dbf.mvccReadRow, hread]
    show (committedRowChanges records >>= fun changes => lift (rowAt changes txn _)) = _
    rw [hchanges]
    show lift (rowAt (changesOf entries) txn _) = _
    rw [lift_eq_ok]
    simp [rowAt, validateId, validateRecordNumber, reject, h.positive, hretained,
      Nat.pos_iff_ne_zero.mp hepoch]
    rfl
  · rw [versionAt_entry, h.filter, h.linked.log.2.1]

theorem mvccReadRow_valid {id : RowId} {version : Option RowVersion}
    (h : mvccReadRow txn id log = .ok version) : id.epoch ≠ 0 ∧ id.recordNumber ≠ 0 := by
  simp only [mvccReadRow, rowAt, validateId, validateRecordNumber, bind_eq_ok, lift_eq_ok,
    reject_eq_ok] at h
  obtain ⟨records, -, changes, -, -, -, -, ⟨-, hepoch, hnumber⟩, -⟩ := h
  exact ⟨hepoch, hnumber⟩

/-- Row reads agree with the full images.  In a history that prepares and commits built,
a read at a committed transaction finds every record of its snapshot and no record behind
them, and finds the rows of the epochs before deleted. -/
theorem row_reads_agree_with_images (hserde : Serde.RefusesEmpty) {log : LogFile}
    (hbuilt : Built log) {snapshots : OrderedMap Nat Snapshot}
    (hread : snapshotsOf log = .ok snapshots) (hkeeps : KeepsRows snapshots)
    {transactionId : Nat} {snapshot : Snapshot}
    (hcommitted : snapshots.get? transactionId = some snapshot) :
    ∃ table, fromSnapshot snapshot = .ok table ∧
      (∀ index record, table.records[index]? = some record →
        ∃ version, mvccReadRow transactionId ⟨snapshot.rowEpoch, index + 1⟩ log =
            .ok (some version) ∧
          version.deleted = record.deleted ∧ sameValues version.values record.values = true) ∧
      (∀ number, table.records.length < number →
        mvccReadRow transactionId ⟨snapshot.rowEpoch, number⟩ log = .ok none) ∧
      (∀ earlier old oldTable index, snapshots.get? earlier = some old → earlier ≤ transactionId →
        old.rowEpoch < snapshot.rowEpoch → fromSnapshot old = .ok oldTable →
          index < oldTable.records.length →
            ∃ version, mvccReadRow transactionId ⟨old.rowEpoch, index + 1⟩ log =
              .ok (some version) ∧ version.deleted = true) ∧
      ∀ id version, id.epoch < snapshot.rowEpoch →
        mvccReadRow transactionId id log = .ok (some version) → version.deleted = true := by
  obtain ⟨records, hrecords, hsnapshots⟩ := bind_eq_ok.mp hread
  obtain ⟨hnone, hlinked⟩ := linked_of_built hserde hbuilt hrecords hsnapshots
  obtain ⟨whole, hwhole⟩ := hlinked hkeeps
  obtain ⟨front, back, images, image, hup⟩ := hwhole.upTo (OrderedMap.mem_of_get? hcommitted)
  obtain ⟨table, htable, rfl⟩ := hup.recorded.shows
  have hpositive := hup.recorded.positive
  have hfind := fun epoch number hepoch =>
    hup.mvccReadRow hrecords hsnapshots hnone hwhole epoch number hepoch
  have hlog := Epochs.says_of_chain retired hup.linked.log.2.2.1
  refine ⟨table, htable, ?_, ?_, ?_, ?_⟩
  · intro index record hrecord
    obtain ⟨version, hversion, hentry⟩ := hfind _ index hpositive
    rw [hlog.present, getElem?_map, hrecord, Option.map_some, Option.map_some,
      Option.map_eq_some_iff] at hentry
    obtain ⟨found, rfl, hfound⟩ := hentry
    have hstate : found.entry.row = record.state := congrArg Epochs.Entry.row hfound
    exact ⟨found, hversion, congrArg Prod.fst hstate, sameValues_iff.mpr (congrArg Prod.snd hstate)⟩
  · intro number hnumber
    obtain ⟨index, rfl⟩ := Nat.exists_eq_add_of_lt (Nat.zero_lt_of_lt hnumber)
    obtain ⟨version, hversion, hentry⟩ := hfind _ index hpositive
    rw [hlog.present, getElem?_map, getElem?_eq_none (by omega), Option.map_none,
      Option.map_none, Option.map_eq_none_iff] at hentry
    rw [Nat.zero_add, hversion, hentry]
  · intro earlier old oldTable index hearlier hle hepoch hold hindex
    have hmem : (earlier, old) ∈ front ++ [(transactionId, snapshot)] := by
      have hentry := OrderedMap.mem_of_get? hearlier
      rw [hup.split, append_cons] at hentry
      rcases mem_append.mp hentry with hentry | hentry
      · exact hentry
      · exact absurd (hup.behind _ hentry) (Nat.not_lt.mpr hle)
    obtain ⟨oldImage, holdImage, hpos, _, hshown, rfl⟩ := hup.linked.log.2.2.2 _ hmem
    cases hold.symm.trans hshown
    have hkept := hlog.kept _ holdImage index (by simpa using hindex)
    obtain ⟨found, hfound⟩ := Option.isSome_iff_exists.mp hkept
    obtain ⟨version, hversion, hentry⟩ := hfind old.rowEpoch index hpos
    rw [hfound, Option.map_eq_some_iff] at hentry
    obtain ⟨read, rfl, hread⟩ := hentry
    obtain ⟨row, hrow⟩ := hlog.retired _ _ _ hepoch hfound
    refine ⟨read, hversion, ?_⟩
    have hstate : read.entry.row = retired row := by rw [hread, hrow]
    exact congrArg Prod.fst hstate
  · rintro ⟨epoch, number⟩ version hepoch hversion
    obtain ⟨hpos, hnumber⟩ := mvccReadRow_valid hversion
    obtain ⟨index, rfl⟩ := Nat.exists_eq_succ_of_ne_zero hnumber
    obtain ⟨other, hother, hentry⟩ := hfind epoch index (Nat.pos_of_ne_zero hpos)
    cases hversion.symm.trans hother
    obtain ⟨row, hrow⟩ := hlog.retired _ _ _ hepoch hentry.symm
    exact congrArg Prod.fst hrow

end Reads

attribute [local instance] Runtime.bare Filters.bare

/-- Two commits, the second in a new epoch. -/
theorem row_reads_agree_with_images_packed :
    letI := Serde.listed [] [] [] [[("A", .string "x")], [("A", .string "y")]]
    ∃ log snapshots snapshot table, Built log ∧ snapshotsOf log = .ok snapshots ∧
      snapshots.get? 2 = some snapshot ∧ snapshot.rowEpoch = 2 ∧
      fromSnapshot snapshot = .ok table ∧
      ∀ index record, table.records[index]? = some record →
        ∃ version, mvccReadRow 2 ⟨snapshot.rowEpoch, index + 1⟩ log = .ok (some version) ∧
          version.deleted = record.deleted ∧ sameValues version.values record.values = true := by
  let := Serde.listed [] [] [] [[("A", .string "x")], [("A", .string "y")]]
  have hrun : (do
      let first ← (commitLog 1 (singleFieldImage 0x03 0x43 1 0 [[0x20, 0x78], [0x2a, 0x79]]) none none
        false .absent).toOption
      let committed ← (snapshotsOf first).toOption
      let second ← (commitLog 2 (singleFieldImage 0x03 0x43 1 0 [[0x20, 0x79]]) none none true
        first).toOption
      let snapshots ← (snapshotsOf second).toOption
      let snapshot ← snapshots.get? 2
      if committed.map Prod.fst = [1] ∧ snapshot.rowEpoch = 2 then some () else none) = some () := by
    decide +kernel
  simp only [bind_eq_some, check_eq_some] at hrun
  obtain ⟨first, hfirst, committed, hcommitted, second, hsecond, snapshots, hsnapshots, snapshot,
    hsnapshot, hids, hepoch⟩ := hrun
  have hbuilt : Built second := by
    refine .commit (.commit (.start rfl) ⟨by decide, ?_⟩ (eq_ok_of_toOption hfirst))
      ⟨by decide, ?_⟩ (eq_ok_of_toOption hsecond)
    · rintro _ ⟨⟩ entry hentry
      cases hentry
    · intro others hothers entry hentry
      cases hothers.symm.trans (eq_ok_of_toOption hcommitted)
      have hmem : entry.1 ∈ committed.map Prod.fst := mem_map_of_mem hentry
      rw [hids, mem_singleton] at hmem
      omega
  have hkeeps : KeepsRows snapshots := by
    intro entry hentry table htable record hrecord body hbody
    exact ⟨record.values, documentAt_of_position (by decide) hbody, sameValues_iff.mpr rfl⟩
  have hrefuses : Serde.RefusesEmpty := fun metadata hmetadata => by cases hmetadata
  obtain ⟨table, htable, hrows, -⟩ := row_reads_agree_with_images hrefuses hbuilt
    (eq_ok_of_toOption hsnapshots) hkeeps hsnapshot
  exact ⟨second, snapshots, snapshot, table, hbuilt, eq_ok_of_toOption hsnapshots, hsnapshot, hepoch,
    htable, hrows⟩

/-- The double 1/11 as `serde_json` writes it and, without `float_roundtrip`, reads it back:
as the double behind it. -/
@[reducible] def Serde.eleventh : Serde :=
  let text := utf8 "\x7b\"A\":0.09090909090909091\x7d"
  { Serde.refusing with
    valuesToVec := fun values =>
      if values = [("A", .number (.float ⟨⟨0x3fb745d1745d1746⟩, rfl⟩))] then .ok text
      else .error "refused"
    valuesFromSlice := fun bytes =>
      if bytes = text then .ok [("A", .number (.float ⟨⟨0x3fb745d1745d1747⟩, rfl⟩))]
      else .error "refused" }

/-- One commit, as a recovery makes it: the row and the image show different doubles. -/
theorem row_differs_from_image :
    letI := Serde.eleventh
    ∃ log snapshots snapshot table record version, Built log ∧ snapshotsOf log = .ok snapshots ∧
      snapshots.get? 1 = some snapshot ∧ fromSnapshot snapshot = .ok table ∧
      table.records[0]? = some record ∧
      mvccReadRow 1 ⟨snapshot.rowEpoch, 1⟩ log = .ok (some version) ∧
      sameValues version.values record.values = false := by
  let := Serde.eleventh
  have hrun : (do
      let log ← (commitLog 1 (singleFieldImage 0x03 0x42 8 0
        [[0x20, 0x46, 0x17, 0x5d, 0x74, 0xd1, 0x45, 0xb7, 0x3f]]) none none false .absent).toOption
      let snapshots ← (snapshotsOf log).toOption
      let snapshot ← snapshots.get? 1
      let table ← (fromSnapshot snapshot).toOption
      let record ← table.records[0]?
      let version ← (mvccReadRow 1 ⟨snapshot.rowEpoch, 1⟩ log).toOption.join
      if sameValues version.values record.values = false then some () else none) = some () := by
    decide +kernel
  simp only [bind_eq_some, check_eq_some, Option.join_eq_some_iff] at hrun
  obtain ⟨log, hlog, snapshots, hsnapshots, snapshot, hsnapshot, table, htable, record, hrecord,
    version, hversion, hdiffers⟩ := hrun
  have hbuilt : Built log := by
    refine .commit (.start rfl) ⟨by decide, ?_⟩ (eq_ok_of_toOption hlog)
    rintro _ ⟨⟩ entry hentry
    cases hentry
  exact ⟨log, snapshots, snapshot, table, record, version, hbuilt, eq_ok_of_toOption hsnapshots,
    hsnapshot, eq_ok_of_toOption htable, hrecord, eq_ok_of_toOption hversion, hdiffers⟩

end TxBase.Dbf
