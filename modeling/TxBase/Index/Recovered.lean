import TxBase.Dbf.InterruptedSaves
import TxBase.Index.File

/-! What the recovery of a table does with the index that its log carries. -/
namespace TxBase.Index
open Lib Json Dbf
open Durable (finishes_bind finishes_ask)
open Outcome (lift_eq_ok)
open DbfTable (fromPath assemble openSidecar)
open IndexSerde (listed fromSlice)
variable {sidecarPath : String} {encoding : Option String} {image : Bytes}

section Accepts
variable [Runtime] [Filters] [Serde] [Collators] [IndexSerde] {disk other : Disk}

/-- The index sidecar is one that `load_with_table` accepts for the table that the other files hold. -/
def Accepts (sidecarPath : String) (encoding : Option String) (disk : Disk) : Prop :=
  ∃ schema dbf table file, disk.readSchemaMetadata = .ok schema ∧ disk.dbf = some dbf ∧
    assemble dbf (encoding.or (schema.bind fun entry => entry.1.encoding)) (schema.map Prod.fst)
      (openSidecar disk.memo) = .ok table ∧
    loadWithTable sidecarPath disk table = .ok file

theorem Accepts.congr (h : Accepts sidecarPath encoding disk) (hdbf : other.dbf = disk.dbf)
    (hmemo : other.memo = disk.memo) (hschema : other.schema = disk.schema)
    (hindex : other.index = disk.index) :
    Accepts sidecarPath encoding other := by
  obtain ⟨schema, dbf, table, file, hmetadata, himage, htable, hload⟩ := h
  refine ⟨schema, dbf, table, file, ?_, hdbf.trans himage, hmemo ▸ htable, ?_⟩
  · rw [← hmetadata, Disk.readSchemaMetadata, Disk.readSchemaMetadata, hschema]
  · rw [← hload]
    simp only [loadWithTable, sourceFingerprint, hdbf, hmemo, hindex]

/-- The table that the files hold, once its index is accepted. -/
def acceptance (sidecarPath : String) (encoding : Option String) (disk : Disk) :
    Option DbfTable := do
  let schema ← disk.readSchemaMetadata.toOption
  let dbf ← disk.dbf
  let table ← (assemble dbf (encoding.or (schema.bind fun entry => entry.1.encoding))
    (schema.map Prod.fst) (openSidecar disk.memo)).toOption
  let _ ← (loadWithTable sidecarPath disk table).toOption
  some table

theorem accepts_iff : Accepts sidecarPath encoding disk ↔
    (acceptance sidecarPath encoding disk).isSome := by
  simp only [Accepts, acceptance, Option.isSome_iff_exists, bind_eq_some, Option.some.injEq]
  constructor
  · rintro ⟨schema, dbf, table, file, hschema, hdbf, htable, hload⟩
    exact ⟨table, schema, by rw [hschema]; rfl, dbf, hdbf, table, by rw [htable]; rfl, file,
      by rw [hload]; rfl, rfl⟩
  · rintro ⟨table, schema, hschema, dbf, hdbf, _, htable, file, hload, rfl⟩
    exact ⟨schema, dbf, _, file, eq_ok_of_toOption hschema, hdbf, eq_ok_of_toOption htable,
      eq_ok_of_toOption hload⟩

instance : Decidable (Accepts sidecarPath encoding disk) := decidable_of_iff _ accepts_iff.symm

end Accepts

section Recovery
variable [Runtime] [Filters] [Serde] [Collators] [IndexSerde] {path : String} {disk last : Disk}
  {payloads : List Bytes}

/-- A document of `serde_json` does not start with the mark of an index record. -/
def ReadsJson : Prop :=
  ∀ bytes file, fromSlice bytes = .ok file → afterMagic indexSnapshotMagic bytes = none

/-- The last index record of a log holds this index. -/
def CarriesIndex (payloads : List Bytes) (image : Bytes) : Prop :=
  letI := indexing
  findLastPayload (fun payload => indexed (decodeSnapshotPayload payload)) payloads =
    .ok (some image)

/-- The last redo record of a log holds these images. -/
def CarriesImage (disk : Disk) (payloads : List Bytes) (snapshot : RecoverySnapshot) : Prop :=
  findLastPayload (decodeWalPayload disk.files) payloads = .ok (some snapshot)

def redoneFiles (disk : Disk) (snapshot : RecoverySnapshot) : Disk :=
  { disk with dbf := some snapshot.dbf, memo := disk.memoAfter snapshot.memo }

omit [Filters] [Serde] in
theorem planApply_stripped (hjson : ReadsJson) (h : CarriesIndex payloads image) :
    letI := indexing
    planApply image disk = .ok none := by
  let := indexing
  obtain ⟨payload, -, hpayload⟩ := findLastPayload_mem h
  have hdecoded := indexed_eq_ok.mp hpayload
  unfold decodeSnapshotPayload at hdecoded
  split at hdecoded
  · cases hdecoded
  · obtain ⟨file, hread, hsame⟩ := bind_eq_ok.mp hdecoded
    cases hsame
    obtain ⟨file, hfile, -⟩ := bind_eq_ok.mp hread
    have hnone := hjson image file (jsonError_eq_ok.mp (displayed_eq_ok.mp hfile))
    have hstripped : decodeSnapshotPayload image = .ok none := by
      unfold decodeSnapshotPayload
      rw [hnone]
    unfold planApply
    rw [hstripped]
    rfl

theorem recovered_index_is_kept {snapshot : RecoverySnapshot} (hjson : ReadsJson)
    (hwal : disk.wal = .records payloads) (himage : CarriesImage disk payloads snapshot)
    (hindex : CarriesIndex payloads image)
    (hrun : letI := indexing; (recoverWalWithEncoding path encoding).Finishes disk last true) :
    last.index = disk.index ∧ last.dbf = some snapshot.dbf ∧
      last.memo = disk.memoAfter snapshot.memo ∧
      last.schema = disk.schema := by
  let := indexing
  simp only [recoverWalWithEncoding, finishes_bind, finishes_ask, Except.ok.injEq] at hrun
  obtain ⟨_, _, ⟨rfl, rfl⟩, hrun⟩ := hrun
  rw [hwal] at hrun
  cases payloads with
  | nil => cases himage
  | cons first rest =>
    simp only [recoverPending, finishes_bind, finishes_ask, lift_eq_ok] at hrun
    obtain ⟨_, pending, ⟨rfl, hpending⟩, hrun⟩ := hrun
    obtain ⟨hfound, -, -, -, -, hsnapshot⟩ := readPending_eq_ok.mp hpending
    have hsame : pending.indexPayload = some image := Except.ok.inj (hfound.symm.trans hindex)
    have hredo : pending.snapshot = some snapshot := Except.ok.inj (hsnapshot.symm.trans himage)
    rw [hredo] at hrun
    simp only [finishes_bind, redoSnapshot, finishes_ask, finishes_replaceMemos, replaceDbf,
      Durable.finishes_step, hsame, Durable.forSome_some, finishes_applySnapshotPayload,
      planApply_stripped hjson hindex, finishes_removeWal, Durable.finishes_pure] at hrun
    obtain ⟨_, -, ⟨_, _, ⟨rfl, -⟩, _, -, rfl, _, -, rfl, _, -, ⟨bytes, hbytes, rfl⟩, _, _, hcommit,
      rfl⟩, rfl, -⟩ :=
      hrun
    cases hbytes
    cases hid : pending.transactionId with
    | none =>
      rw [hid] at hcommit
      obtain ⟨rfl, -⟩ := Durable.finishes_pure.mp hcommit
      exact ⟨rfl, rfl, rfl, rfl⟩
    | some txn =>
      rw [hid] at hcommit
      simp only [Durable.forSome_some, commitRecovered, finishes_bind,
        finishes_persistRecoveredTransactionId,
        finishes_commitRecoveredSnapshot, finishes_appendCdcs] at hcommit
      obtain ⟨_, -, ⟨current, bytes, -, -, rfl⟩, _, -, ⟨kept, log, -, -, rfl⟩, changes, -, rfl⟩ :=
        hcommit
      exact ⟨rfl, rfl, rfl, rfl⟩

/-- Recovery leaves the index that its log carries, and one that is accepted for the recovered
table, exactly if the sidecar held that index already and it fits the images of the log. -/
theorem recovered_index_iff_already_there {snapshot : RecoverySnapshot} {image : Bytes}
    (hjson : ReadsJson)
    (hwal : disk.wal = .records payloads) (himage : CarriesImage disk payloads snapshot)
    (hindex : CarriesIndex payloads image)
    (hrun : letI := indexing; (recoverWalWithEncoding path encoding).Finishes disk last true) :
    (last.index = some image ∧ Accepts sidecarPath encoding last) ↔
      (disk.index = some image ∧ Accepts sidecarPath encoding (redoneFiles disk snapshot)) := by
  obtain ⟨hkept, hdbf, hmemo, hschema⟩ := recovered_index_is_kept hjson hwal himage hindex hrun
  rw [hkept]
  refine and_congr_right fun _ => ⟨fun h => ?_, fun h => ?_⟩
  · exact h.congr hdbf.symm hmemo.symm hschema.symm hkept.symm
  · exact h.congr hdbf hmemo hschema hkept

end Recovery

section Samples

/-- An index "a" over the field "A" of the table with this image, which has no memo. -/
def singleIndex (dbf : Bytes) (entries : List IndexEntry) : IndexFile :=
  let indexes := [SecondaryIndex.mk ⟨"a", ["A"], [1], none⟩ entries]
  ⟨indexFormat, indexVersion, ⟨fingerprintBytes dbf, none⟩,
    some (buildStatistics (indexedRecords entries) indexes), indexes⟩

def textKey (text : String) : IndexKey := .scalar (.string text)

theorem listed_readsJson (files : List IndexFile) (keys : List IndexKey) :
    letI := listed files keys
    ReadsJson := by
  let := listed files keys
  intro bytes file h
  match bytes with
  | [] => rfl
  | first :: rest =>
    by_cases hfirst : first = 0x7b
    · rw [hfirst]
      rfl
    · simp [fromSlice, hfirst] at h

/-- Two records, "x" and "y", before and after the deletion of the first. -/
def imageBefore : Bytes := singleFieldImage 0x03 0x43 1 0 [[0x20, 0x78], [0x20, 0x79]]

def imageAfter : Bytes := singleFieldImage 0x03 0x43 1 0 [[0x2a, 0x78], [0x20, 0x79]]

@[reducible] def deletionSerde : Serde :=
  Serde.listed []
    [⟨1, false, [⟨1, some ⟨false, [("A", .string "x")]⟩, some ⟨true, [("A", .string "x")]⟩⟩]⟩]
    [] [[("A", .string "x")], [("A", .string "y")]]

@[reducible] def deletionIndexes : IndexSerde :=
  listed
    [singleIndex imageBefore [⟨textKey "x", [1]⟩, ⟨textKey "y", [2]⟩],
      singleIndex imageAfter [⟨textKey "y", [2]⟩]]
    [textKey "x", textKey "y"]

def indexedStart : Disk := { Disk.fresh imageBefore none none with index := some [0x7b, 0, 0] }

attribute [local instance] Runtime.bare Filters.bare deletionSerde Collators.ascii deletionIndexes
  indexing SchemaExport.none

/-- The save of a deletion is stopped with its log complete; the recovery leaves the old index. -/
theorem recovery_leaves_the_old_index :
    ∃ loaded cut final payloads snapshot image,
      (fromPath "t.dbf").Finishes indexedStart indexedStart loaded ∧
      Accepts "t.txidx" none indexedStart ∧
      (saveWithWal ((Call.delete 1).run loaded).1 "t.dbf").Stops indexedStart cut ∧
      cut.wal = .records payloads ∧ CarriesImage cut payloads snapshot ∧
        CarriesIndex payloads image ∧
      (recoverWalWithEncoding "t.dbf" none).Finishes cut final true ∧
      final.index ≠ some image ∧ ¬Accepts "t.txidx" none final := by
  have hrun : (do
      let (first, loaded) ← (fromPath "t.dbf").finish? indexedStart
      let cut ← stoppedWith (saveWithWal ((Call.delete 1).run loaded).1 "t.dbf") 4 indexedStart
      let payloads ← cut.wal.payloads.toOption
      let snapshot ← (findLastPayload (decodeWalPayload cut.files) payloads).toOption.join
      let image ←
        (findLastPayload (fun payload =>
          indexed (decodeSnapshotPayload payload)) payloads).toOption.join
      let (final, redone) ← (recoverWalWithEncoding "t.dbf" none).finish? cut
      if indexedStart = first ∧ Accepts "t.txidx" none indexedStart ∧
        cut.wal = LogFile.records payloads ∧
          redone = true ∧ final.index ≠ some image ∧ ¬Accepts "t.txidx" none final then some ()
      else none) = some () := by
    decide +kernel
  simp only [bind_eq_some, check_eq_some, Option.join_eq_some_iff, Prod.exists,
    Durable.finish?_eq_some] at hrun
  obtain ⟨first, loaded, hloaded, cut, hcut, payloads, -, snapshot, hsnapshot, image, himage,
    final, redone,
    hfinal, hfirst, haccepts, hwal, rfl, hold, hstale⟩ := hrun
  rw [← hfirst] at hloaded
  exact ⟨loaded, cut, final, payloads, snapshot, image, hloaded, haccepts,
    stops_of_stoppedWith hcut, hwal,
    eq_ok_of_toOption hsnapshot, eq_ok_of_toOption himage, hfinal, hold, hstale⟩

/-- The same save, stopped behind its replacement of the sidecar. -/
theorem recovered_index_iff_already_there_late :
    ∃ loaded cut final payloads snapshot image,
      (saveWithWal ((Call.delete 1).run loaded).1 "t.dbf").Stops indexedStart cut ∧
      cut.wal = .records payloads ∧ CarriesImage cut payloads snapshot ∧
        CarriesIndex payloads image ∧
      (recoverWalWithEncoding "t.dbf" none).Finishes cut final true ∧
      final.index = some image ∧ Accepts "t.txidx" none final := by
  have hrun : (do
      let (_, loaded) ← (fromPath "t.dbf").finish? indexedStart
      let cut ← ((saveWithWal ((Call.delete 1).run loaded).1 "t.dbf") indexedStart).passed.find? fun state : Disk =>
        decide (state.index ≠ indexedStart.index)
      let payloads ← cut.wal.payloads.toOption
      let snapshot ← (findLastPayload (decodeWalPayload cut.files) payloads).toOption.join
      let image ←
        (findLastPayload (fun payload =>
          indexed (decodeSnapshotPayload payload)) payloads).toOption.join
      let (final, redone) ← (recoverWalWithEncoding "t.dbf" none).finish? cut
      if cut.wal = LogFile.records payloads ∧ redone = true ∧ cut.index = some image ∧
          Accepts "t.txidx" none (redoneFiles cut snapshot) then some () else none) = some () := by
    decide +kernel
  simp only [bind_eq_some, check_eq_some, Option.join_eq_some_iff, Prod.exists,
    Durable.finish?_eq_some] at hrun
  obtain ⟨_, loaded, -, cut, hcut, payloads, -, snapshot, hsnapshot, image, himage, final, redone,
    hfinal, hwal, rfl, hheld, haccepts⟩ := hrun
  obtain ⟨hindex, hfits⟩ := (recovered_index_iff_already_there (listed_readsJson _ _) hwal
    (eq_ok_of_toOption hsnapshot) (eq_ok_of_toOption himage) hfinal).mpr ⟨hheld, haccepts⟩
  exact ⟨loaded, cut, final, payloads, snapshot, image, .inr (List.mem_of_find?_eq_some hcut), hwal,
    eq_ok_of_toOption hsnapshot, eq_ok_of_toOption himage, hfinal, hindex, hfits⟩

end Samples

end TxBase.Index
