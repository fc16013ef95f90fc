import TxBase.Dbf.Safety
import TxBase.Dbf.SaveSteps

/-! What was saved can be loaded.  Before a save replaces a file it reads the image back
as a load would, to record what changed; a load after the save meets the same image, the
same sidecar and the same memo file. -/
namespace TxBase.Dbf
open Lib Json List
open Durable (finishes_bind finishes_ask finishes_pure)
open Outcome (lift_eq_ok)
open DbfTable (fromPath assemble loadPathWithEncoding openSidecar memoFor Compaction
  applyUpdate writeUpdate deleteRecord)
variable {table : DbfTable} {encoding : Option String} {schema : Option SchemaMetadata}
  {path : String}
  {sidecar : Option MemoSidecar}

section Calls
variable [Runtime] [Filters]

theorem Call.run_error (h : Coherent table) {call : Call} {stop : Stop DbfError}
    (herror : (call.run table).2 = .error stop) : (call.run table).1 = table := by
  have hupdate : ∀ update, (table.applyUpdate update).2 = .error stop →
      (table.applyUpdate update).1 = table := by
    intro update
    unfold applyUpdate writeUpdate DbfTable.writeExistingRecord
    cases update with
    | error other => exact fun _ => rfl
    | ok update =>
      dsimp only
      cases hbytes : table.rewrittenBytes update.index update.values update.storage.1 with
      | error other => exact fun _ => rfl
      | ok bytes =>
        obtain ⟨offset, -, hbytes⟩ := bind_eq_ok.mp hbytes
        obtain ⟨record, hrecord, -⟩ := bind_eq_ok.mp hbytes
        have hindex : update.index < table.storedValues.length := by
          rw [h.stored]
          exact (List.getElem?_eq_some_iff.mp (Outcome.orPanic_eq_ok.mp hrecord)).1
        dsimp only
        rw [if_pos hindex]
        exact nofun
  cases call with
  | insert values deferred =>
    simp only [Call.run, DbfTable.insertRecordWithDeferredConstraints] at herror ⊢
    split
    · rfl
    · rename_i row hrow
      rw [hrow] at herror
      cases herror
  | replace number values deferred | patch number values deferred => exact hupdate _ herror
  | delete number =>
    simp only [Call.run, deleteRecord] at herror ⊢
    split
    · rfl
    · rename_i hprepared
      rw [hprepared] at herror
      cases herror
  | «recall» number deferred =>
    simp only [Call.run, DbfTable.recallRecordWithDeferredConstraints] at herror ⊢
    split
    · rfl
    · rename_i hprepared
      rw [hprepared] at herror
      cases herror
  | pack =>
    simp only [Call.run, DbfTable.pack] at herror ⊢
    split
    · rfl
    · rename_i hpacked
      rw [hpacked] at herror
      cases herror

variable {before after : DbfTable}

theorem Leaves.coherent (h : Leaves before after) (hcoherent : Coherent before) :
    Coherent after := by
  obtain ⟨call, rfl⟩ := h
  cases hresult : (call.run before).2 with
  | error stop => rwa [Call.run_error hcoherent hresult]
  | ok value =>
    have hsucceeds : Succeeds before (call.run before).1 := ⟨call, Prod.ext rfl hresult⟩
    exact hsucceeds.coherent hcoherent

/-- What calls keep of a loaded table; the memo file changes only when the layout does. -/
structure Edited (table after : DbfTable) : Prop where
  coherent : Coherent after
  source : after.source = table.source
  version : after.header.version = table.header.version
  format : after.memo.map MemoFile.format = table.memo.map MemoFile.format
  memo : after.layoutChanged = false → after.memo = table.memo

theorem Call.run_kept (call : Call) (table : DbfTable) :
    (call.run table).1.source = table.source ∧
      (call.run table).1.memo.map MemoFile.format = table.memo.map MemoFile.format ∧
      ((call.run table).1.layoutChanged = false →
        table.layoutChanged = false ∧ (call.run table).1.memo = table.memo) := by
  have hsame : ∀ {after : DbfTable}, after.source = table.source → after.memo = table.memo →
      after.layoutChanged = table.layoutChanged → after.source = table.source ∧
        after.memo.map MemoFile.format = table.memo.map MemoFile.format ∧
        (after.layoutChanged = false → table.layoutChanged = false ∧ after.memo = table.memo) := by
    intro after hsource hmemo hlayout
    exact ⟨hsource, by rw [hmemo], fun h => ⟨hlayout ▸ h, hmemo⟩⟩
  have hupdate : ∀ update, (table.applyUpdate update).1.source = table.source ∧
      (table.applyUpdate update).1.memo = table.memo ∧
      (table.applyUpdate update).1.layoutChanged = table.layoutChanged := by
    intro update
    unfold applyUpdate
    split
    · exact ⟨rfl, rfl, rfl⟩
    · unfold writeUpdate DbfTable.writeExistingRecord
      split <;> rename_i hwritten <;> split at hwritten
      · cases hwritten
        exact ⟨rfl, rfl, rfl⟩
      · split at hwritten <;> cases hwritten
        exact ⟨rfl, rfl, rfl⟩
      · cases hwritten
      · split at hwritten <;> cases hwritten
        exact ⟨rfl, rfl, rfl⟩
  cases call with
  | insert values deferred =>
    simp only [Call.run, DbfTable.insertRecordWithDeferredConstraints]
    split <;> exact hsame rfl rfl rfl
  | replace number values deferred | patch number values deferred =>
    exact hsame (hupdate _).1 (hupdate _).2.1 (hupdate _).2.2
  | delete number =>
    simp only [Call.run, deleteRecord]
    split <;> exact hsame rfl rfl rfl
  | «recall» number deferred =>
    simp only [Call.run, DbfTable.recallRecordWithDeferredConstraints]
    split <;> exact hsame rfl rfl rfl
  | pack =>
    simp only [Call.run, DbfTable.pack]
    split
    · exact hsame rfl rfl rfl
    · rename_i packed hpacked
      exact ⟨rfl, DbfTable.preparePack_memo hpacked, by simp⟩

theorem Edited.step (h : Edited table before) (hcall : Leaves before after) :
    Edited table after := by
  have hcoherent := hcall.coherent h.coherent
  obtain ⟨call, rfl⟩ := hcall
  obtain ⟨hsource, hformat, hmemo⟩ := call.run_kept before
  have hheader := (call.run_sameLayout before).header
  refine ⟨hcoherent, hsource.trans h.source, ?_, hformat.trans h.format, ?_⟩
  · rw [← h.version, ← hheader]
  · intro hlayout
    obtain ⟨hbefore, hsame⟩ := hmemo hlayout
    exact hsame.trans (h.memo hbefore)

theorem Edited.run (h : Edited table table) (hrun : Relation.ReflTransGen Leaves table after) :
    Edited table after := by
  induction hrun with
  | refl => exact h
  | tail _ hlast ih => exact ih.step hlast

end Calls

section Load
variable [Runtime] {memo : MemoFile} {records : List DbfRecord}

theorem resolveRecordsFrom_marks {index : Nat} {resolved : List DbfRecord}
    (h : table.resolveRecordsFrom memo index records = .ok resolved) :
    resolved.map (fun record => (record.number, record.deleted)) =
      records.map fun record => (record.number, record.deleted) := by
  induction records generalizing index resolved with
  | nil =>
    cases h
    rfl
  | cons record rest ih =>
    obtain ⟨first, hfirst, h⟩ := bind_eq_ok.mp h
    obtain ⟨others, hothers, h⟩ := bind_eq_ok.mp h
    cases h
    rw [map_cons, ih hothers]
    unfold DbfTable.resolveRecord at hfirst
    split at hfirst
    · cases hfirst
      rfl
    · obtain ⟨offset, -, hfirst⟩ := bind_eq_ok.mp hfirst
      obtain ⟨values, -, hfirst⟩ := bind_eq_ok.mp hfirst
      cases hfirst
      rfl

theorem Coherent.of_marks (h : Coherent table)
    (hmarks : records.map (fun record => (record.number, record.deleted)) =
      table.records.map fun record => (record.number, record.deleted)) :
    Coherent { table with records := records } := by
  have hlength : records.length = table.records.length := by
    simpa using congrArg List.length hmarks
  have hrecord : ∀ (i : Nat) (record : DbfRecord), records[i]? = some record →
      ∃ old : DbfRecord, table.records[i]? = some old ∧ record.number = old.number ∧
        record.deleted = old.deleted := by
    intro i record hget
    have hpair := congrArg (fun entries => entries[i]?) hmarks
    simp only [getElem?_map, hget, Option.map_some] at hpair
    obtain ⟨old, hold, hpair⟩ := Option.map_eq_some_iff.mp hpair.symm
    rw [Prod.mk.injEq] at hpair
    exact ⟨old, hold, hpair.1.symm, hpair.2.symm⟩
  refine ⟨h.layout, h.counted.trans hlength.symm, h.stored.trans hlength.symm, ?_, ?_⟩
  · intro i record hget
    obtain ⟨old, hold, hnumber, -⟩ := hrecord i record hget
    exact hnumber.trans (h.numbered i old hold)
  · intro i record hget
    obtain ⟨old, hold, -, hdeleted⟩ := hrecord i record hget
    rw [hdeleted]
    exact h.marked i old hold

/-- The fields that coherence says nothing about. -/
theorem Coherent.withFields (h : Coherent table) {memo : Option MemoFile}
    {schema : Option SchemaMetadata}
    {memoUpdates : MemoUpdates} {transactionId : Option Nat} {source : Option PersistedState}
    {changed : Bool} :
    Coherent { table with
      memo := memo
      schema := schema
      memoUpdates := memoUpdates
      transactionId := transactionId
      source := source
      layoutChanged := changed } :=
  ⟨h.layout, h.counted, h.stored, h.numbered, h.marked⟩

theorem appendUpdate_format {after : MemoFile} {field : FieldDescriptor}
    {update : MemoUpdate} {block : Nat}
    (h : table.appendUpdate memo field update = .ok (after, block)) :
    after.format = memo.format := by
  unfold DbfTable.appendUpdate at h
  split at h
  · split at h
    · cases h
      rfl
    · obtain ⟨bytes, -, h⟩ := bind_eq_ok.mp h
      exact MemoFile.appendText_format (lift_eq_ok.mp h)
  · split at h
    · cases h
      rfl
    · exact MemoFile.appendBinary_format (lift_eq_ok.mp h)

/-- What the pending memos leave of the table: its header, its marks and its lengths. -/
structure Repointed (table : DbfTable) (format : MemoFormat) (state : Compaction) : Prop where
  format : state.memo.format = format
  length : state.bytes.length = table.bytes.length
  agree : Agree (FixedByte table.header) state.bytes table.bytes
  stored : state.storedValues.length = table.storedValues.length

theorem Repointed.update {state next : Compaction} {entry : MemoKey × MemoUpdate}
    {format : MemoFormat}
    (hcoherent : Coherent table) (h : Repointed table format state)
    (hnext : table.applyMemoUpdate state entry = .ok next) : Repointed table format next := by
  obtain ⟨record, -, hnext⟩ := bind_eq_ok.mp hnext
  split at hnext
  · cases hnext
    exact h
  · simp only [bind_eq_ok, lift_eq_ok] at hnext
    obtain ⟨field, hfield, ⟨memo, block⟩, hmemo, pointer, -, offset, hoffset, -, -, -, -,
      bytes, hbytes,
      stored, -, hnext⟩ := hnext
    cases hnext
    have hcopy := patchBytes_eq_ok hbytes
    have hrange := hcoherent.layout.field_range
      (mem_of_find?_eq_some (Outcome.orFail_eq_ok.mp hfield))
    rw [(DbfTable.recordOffset_eq_ok hoffset).1] at hcopy
    refine ⟨(appendUpdate_format hmemo).trans h.format,
      (Outcome.copyFromSlice_length hcopy).trans h.length,
      Agree.trans ?_ h.agree, length_set.trans h.stored⟩
    exact fun i hi => Outcome.copyFromSlice_agree hcopy i (hi.outside hrange.1 hrange.2)

variable {prepared : DbfTable} {written : Option MemoSnapshot}

theorem applyMemoUpdates_encoding (h : table.applyMemoUpdates sidecar = .ok (prepared, written)) :
    prepared.encodingOverride = table.encodingOverride := by
  unfold DbfTable.applyMemoUpdates at h
  split at h
  · cases h
    rfl
  · simp only [bind_eq_ok] at h
    obtain ⟨-, -, _, -, _, -, h⟩ := h
    cases h
    rfl

theorem applyMemoUpdates_eq_ok (hcoherent : Coherent table)
    (h : table.applyMemoUpdates sidecar = .ok (prepared, written)) :
    Coherent prepared ∧ prepared.bytes.getD 0 0 = table.bytes.getD 0 0 ∧
      ((written = none ∧ prepared.memo = table.memo ∧
          (table.memo.isSome → table.layoutChanged = false)) ∨
        ∃ memo snapshot, table.memo = some memo ∧ written = some snapshot ∧
          snapshot.format = memo.format) := by
  unfold DbfTable.applyMemoUpdates at h
  split at h
  · cases h
    refine ⟨hcoherent, rfl, ?_⟩
    cases hlayout : table.layoutChanged with
    | false => exact .inl ⟨rfl, rfl, fun _ => rfl⟩
    | true =>
      cases hmemo : table.memo with
      | none => exact .inl ⟨rfl, rfl, by simp⟩
      | some memo => exact .inr ⟨memo, _, rfl, rfl, rfl⟩
  · simp only [bind_eq_ok] at h
    obtain ⟨-, -, memo, hmemo, state, hstate, h⟩ := h
    cases h
    have hkept := foldlM_invariant (P := Repointed table memo.format)
      (fun _ _ _ _ hbefore hafter => hbefore.update hcoherent hafter) ⟨rfl, rfl,
        Agree.refl _ _, rfl⟩ hstate
    have hlong := hcoherent.layout.header_long
    have hrewritten := hcoherent.rewrite hkept.length hkept.agree
      table.records.length [] hkept.stored []
    rw [modify_eq_self le_rfl] at hrewritten
    exact ⟨hrewritten.withFields, hkept.agree.getD (.inl (by omega)),
      .inr ⟨memo, _, Outcome.orFail_eq_ok.mp hmemo, rfl, hkept.format⟩⟩

variable {openMemo : UInt8 → Res (Option MemoFile)} {dbf : Bytes}

theorem withMemo_eq_ok {result : DbfTable} {memo : Option MemoFile}
    (h : table.withMemo memo = .ok result) :
    ∃ records : List DbfRecord, records.map (fun record => (record.number, record.deleted)) =
        table.records.map (fun record => (record.number, record.deleted)) ∧
      result = { table with records := records, memo := memo.or table.memo } := by
  cases memo with
  | none =>
    cases h
    exact ⟨table.records, rfl, rfl⟩
  | some memo =>
    obtain ⟨resolved, hresolved, h⟩ := bind_eq_ok.mp h
    obtain ⟨records, hrecords, hresolved⟩ := bind_eq_ok.mp hresolved
    cases hresolved
    cases h
    exact ⟨records, resolveRecordsFrom_marks hrecords, rfl⟩

variable [Filters]

theorem assemble_eq_ok :
    assemble dbf encoding schema openMemo = .ok table ↔
      ∃ parsed memo, fromBytesWithEncoding dbf encoding = .ok parsed ∧
        checkSome (fun metadata : SchemaMetadata => metadata.validateFields parsed.fields) schema =
          .ok () ∧
        parsed.memoFor openMemo = .ok memo ∧
        DbfTable.withMemo { parsed with schema := schema } memo = .ok table ∧
        table.validateSchemaConstraints [] = .ok () := by
  simp only [assemble, bind_eq_ok, lift_eq_ok, Except.ok.injEq]
  constructor
  · rintro ⟨parsed, hparsed, ⟨⟩, hfields, memo, hmemo, other, hother, ⟨⟩, hvalid, rfl⟩
    exact ⟨parsed, memo, hparsed, hfields, hmemo, hother, hvalid⟩
  · rintro ⟨parsed, memo, hparsed, hfields, hmemo, htable, hvalid⟩
    exact ⟨parsed, hparsed, (), hfields, memo, hmemo, table, htable, (), hvalid, rfl⟩

theorem coherent_assemble (h : assemble dbf encoding schema openMemo = .ok table) :
    Coherent table := by
  obtain ⟨parsed, memo, hparsed, -, -, htable, -⟩ := assemble_eq_ok.mp h
  obtain ⟨records, hmarks, rfl⟩ := withMemo_eq_ok htable
  exact ((coherent_fromBytes hparsed).of_marks hmarks).withFields

theorem assemble_bytes (h : assemble dbf encoding schema openMemo = .ok table) :
    table.bytes = dbf := by
  obtain ⟨parsed, memo, hparsed, -, -, htable, -⟩ := assemble_eq_ok.mp h
  obtain ⟨records, -, rfl⟩ := withMemo_eq_ok htable
  exact (fromBytes_origin hparsed).1

variable [Serde] {disk : Disk}

theorem loadPath_of_assemble {txn : Option Nat} {metadata : Option SchemaMetadata}
    (hdbf : disk.dbf = some dbf) (hid : disk.readTransactionState = .ok txn)
    (hschema : snapshotSchema disk.schema = .ok metadata)
    (hassemble : assemble dbf (metadata.bind SchemaMetadata.encoding) metadata
      (openSidecar disk.memo) = .ok table)
    (path : String) :
    loadPathWithEncoding path none disk = .ok
      { table with
        source := some ⟨path, dbf, disk.memo.map MemoSidecar.bytes, disk.schema, txn⟩
        transactionId := txn } := by
  have hread : ∃ entry, disk.readSchemaMetadata = .ok entry ∧ entry.map Prod.fst = metadata := by
    unfold Disk.readSchemaMetadata
    unfold snapshotSchema at hschema
    cases hbytes : disk.schema with
    | none =>
      rw [hbytes] at hschema
      cases hschema
      exact ⟨none, rfl, rfl⟩
    | some bytes =>
      rw [hbytes] at hschema
      obtain ⟨decoded, hdecoded, hschema⟩ := bind_eq_ok.mp hschema
      cases hschema
      exact ⟨some (decoded, bytes), by simp [hdecoded, bind, Except.bind], rfl⟩
  obtain ⟨entry, hentry, hmap⟩ := hread
  have hencoding : (entry.bind fun entry => entry.1.encoding) =
      metadata.bind SchemaMetadata.encoding := by
    rw [← hmap]
    cases entry <;> rfl
  simp only [loadPathWithEncoding, bind_eq_ok, lift_eq_ok]
  refine ⟨dbf, by simp [readFile, hdbf], txn, hid, entry, hentry, table, ?_, rfl⟩
  rw [Option.none_or, hencoding, hmap]
  exact hassemble

/-- What a load finds, and what it remembers of it. -/
structure LoadedFrom (path : String) (disk : Disk) (table : DbfTable) : Prop where
  coherent : Coherent table
  source : ∃ dbf transactionId, disk.dbf = some dbf ∧
    disk.readTransactionState = .ok transactionId ∧ table.transactionId = transactionId ∧
    table.source =
      some ⟨path, dbf, disk.memo.map MemoSidecar.bytes, disk.schema, transactionId⟩
  memo : ∀ memo, table.memo = some memo → ∃ sidecar, disk.memo = some sidecar ∧
    memo.bytes = sidecar.bytes ∧ memo.format = sidecar.format table.header.version

theorem loadPath_eq_ok {requested : Option String}
    (h : loadPathWithEncoding path requested disk = .ok table) :
    LoadedFrom path disk table := by
  simp only [loadPathWithEncoding, bind_eq_ok, lift_eq_ok] at h
  obtain ⟨dbf, hdbf, txn, hid, schema, hschema, assembled, hassembled, h⟩ := h
  cases h
  have hfile : disk.dbf = some dbf := by
    unfold readFile at hdbf
    split at hdbf
    · cases hdbf
      assumption
    · cases hdbf
  obtain ⟨parsed, memo, hparsed, -, hmemo, htable, -⟩ := assemble_eq_ok.mp hassembled
  obtain ⟨records, -, rfl⟩ := withMemo_eq_ok htable
  refine ⟨(coherent_assemble hassembled).withFields, ⟨dbf, txn, hfile, hid, rfl, rfl⟩, ?_⟩
  have hplain : parsed.memo = none := by
    obtain ⟨layout, -, hparsed⟩ := bind_eq_ok.mp hparsed
    obtain ⟨records, -, hparsed⟩ := bind_eq_ok.mp hparsed
    cases hparsed
    rfl
  intro file hfile
  dsimp only at hfile
  rw [hplain, Option.or_none] at hfile
  rw [hfile] at hmemo
  -- Only a table with memo fields opens a memo file, and only one that is there.
  unfold memoFor at hmemo
  split at hmemo
  · unfold openSidecar at hmemo
    split at hmemo
    · cases hmemo
    · rename_i sidecar hsidecar
      obtain ⟨opened, hopened, hmemo⟩ := bind_eq_ok.mp hmemo
      cases hmemo
      obtain ⟨hbytes, hformat⟩ := MemoFile.fromBytes_eq_ok (lift_eq_ok.mp hopened)
      exact ⟨sidecar, hsidecar, hbytes, hformat⟩
  · cases hmemo

end Load

section Save
variable {last disk : Disk} {txn : Nat} {memo : Option MemoSnapshot} {dbf : Bytes}

theorem decodeTransactionState_bytes {bytes : Bytes} (hsmall : txn < u64Size)
    (h : transactionStateBytes txn = .ok bytes) : decodeTransactionState bytes = .ok txn := by
  obtain ⟨⟨⟩, hpositive, h⟩ := bind_eq_ok.mp h
  cases h
  rw [reject_eq_ok] at hpositive
  have hid : fromLeBytes (slice (1 :: toLeBytes 8 txn) 1 9) = txn :=
    fromLeBytes_slice 8 [1] prefix_rfl rfl rfl hsmall
  simp [decodeTransactionState, required, hid, reject, hpositive, bind, Except.bind]

theorem readTransactionState_eq {bytes : Bytes} (hstate : disk.state = some bytes)
    (hsmall : txn < u64Size) (h : transactionStateBytes txn = .ok bytes) :
    disk.readTransactionState = .ok (some txn) := by
  rw [Disk.readTransactionState, hstate]
  dsimp only
  rw [decodeTransactionState_bytes hsmall h]
  rfl

theorem ensureSourceCurrent_eq_ok {source : PersistedState} (hsource : table.source = some source)
    (hpath : source.path = path) (h : table.ensureSourceCurrent path disk = .ok ()) :
    disk.dbf = some source.dbf ∧ disk.memo.map MemoSidecar.bytes = source.memo ∧
      disk.schema = source.schema ∧ disk.readTransactionState = .ok source.transactionId := by
  obtain ⟨-, -, h⟩ := bind_eq_ok.mp h
  rw [hsource] at h
  simp only [hpath, ne_eq, not_true_eq_false, if_false, bind_eq_ok, reject_eq_ok, not_not] at h
  obtain ⟨dbf, hdbf, -, rfl, -, hmemo, -, hschema, txn, hid, rfl⟩ := h
  refine ⟨?_, hmemo, hschema, hid⟩
  unfold readFile at hdbf
  split at hdbf
  · cases hdbf
    assumption
  · cases hdbf

/-- What a recovery and a save leave alone: the schema sidecar, the journal of an export
and the extension of the memo file. -/
structure Beside (disk after : Disk) : Prop where
  schema : after.schema = disk.schema
  exportJournal : after.exportJournal = disk.exportJournal
  extension : ∀ sidecar, disk.memo = some sidecar → ∃ bytes,
    after.memo = some ⟨sidecar.isFpt, bytes⟩

theorem Beside.refl (disk : Disk) : Beside disk disk :=
  ⟨rfl, rfl, fun sidecar h => ⟨sidecar.bytes, h⟩⟩

theorem blind_beside (disk : Disk) : Blind (Beside disk) := by
  constructor
  case memo =>
    intro after memo h
    refine ⟨h.schema, h.exportJournal, fun sidecar hsidecar => ?_⟩
    obtain ⟨bytes, hafter⟩ := h.extension sidecar hsidecar
    exact ⟨memo.bytes, by simp [Disk.withMemo, hafter]⟩
  all_goals exact fun after _ h => ⟨h.schema, h.exportJournal, h.extension⟩

theorem finishes_recoverSchemaExport [SchemaExport] {exported : Bool}
    (h : recoverSchemaExport.Finishes disk last exported) :
    last.exportJournal = .absent := by
  have hremoved : ∀ {start : Disk} {value : Unit}, removeJournal.Finishes start last value →
      last.exportJournal = .absent := by
    intro start value h
    simp only [removeJournal, finishes_bind, Durable.finishes_step] at h
    obtain ⟨_, -, rfl, rfl⟩ := h
    rfl
  simp only [recoverSchemaExport, finishes_bind, finishes_ask, Except.ok.injEq] at h
  obtain ⟨_, journal, ⟨rfl, rfl⟩, h⟩ := h
  split at h
  · rename_i hjournal
    obtain ⟨rfl, -⟩ := finishes_pure.mp h
    exact hjournal
  · cases (finishes_ask.mp h).2
  · simp only [finishes_bind, finishes_pure] at h
    obtain ⟨_, _, hrun, rfl, -⟩ := h
    exact hremoved hrun
  · simp only [finishes_bind, finishes_pure] at h
    obtain ⟨_, _, -, _, _, hrun, rfl, -⟩ := h
    exact hremoved hrun
  · cases (finishes_ask.mp h).2

theorem finishes_tryRefresh [Indexing] {condition : Bool} {value : Unit}
    (h : (Durable.when condition (tryRefresh table)).Finishes disk last value) :
    ∃ index, last = { disk with index := index } := by
  cases condition with
  | false => exact ⟨disk.index, (finishes_pure.mp h).1⟩
  | true =>
    simp only [Durable.when_true, tryRefresh, finishes_bind, finishes_ask] at h
    obtain ⟨_, bytes, ⟨rfl, -⟩, h⟩ := h
    cases bytes with
    | none => exact ⟨_, (finishes_pure.mp h).1⟩
    | some bytes => exact ⟨_, Durable.finishes_step.mp h⟩

variable [Runtime] [Filters] [Serde] [Indexing] [SchemaExport]

theorem finishes_fromPath (h : (fromPath path).Finishes disk last table) :
    ∃ read index, loadPathWithEncoding path none read = .ok table ∧
      read.exportJournal = .absent ∧ last = { read with index := index } := by
  simp only [fromPath, DbfTable.fromPathWithEncoding, finishes_bind, finishes_ask,
    finishes_pure, normalizeEncodingOverride, lift_eq_ok, Except.ok.injEq] at h
  obtain ⟨_, _, ⟨rfl, rfl⟩, _, recovered, -, _, exported, hexport, read, loaded, ⟨rfl, hload⟩, _, _,
    hrefresh, rfl, rfl⟩ := h
  obtain ⟨index, hlast⟩ := finishes_tryRefresh hrefresh
  exact ⟨read, index, hload, finishes_recoverSchemaExport hexport, hlast⟩

theorem fromPath_finishes_clean {clean : Disk}
    (hrecover : (recoverWalWithEncoding path none).Finishes disk clean false)
    (hjournal : clean.exportJournal = .absent)
    (hload : loadPathWithEncoding path none clean = .ok table) :
    (fromPath path).Finishes disk clean table := by
  have hexport : recoverSchemaExport.Finishes clean clean false := by
    simp [recoverSchemaExport, finishes_bind, hjournal]
  simp only [fromPath, DbfTable.fromPathWithEncoding, finishes_bind, finishes_ask,
    finishes_pure, normalizeEncodingOverride, lift_eq_ok, Except.ok.injEq]
  exact ⟨disk, none, ⟨rfl, rfl⟩, clean, false, hrecover, clean, false, hexport, clean, table,
    ⟨rfl, hload⟩, clean, (), finishes_pure.mpr ⟨rfl, rfl⟩, rfl, rfl⟩

theorem fromPath_finishes (hwal : disk.wal = .absent) (hjournal : disk.exportJournal = .absent)
    (hload : loadPathWithEncoding path none disk = .ok table) :
    (fromPath path).Finishes disk disk table :=
  fromPath_finishes_clean (by simp [recoverWalWithEncoding, finishes_bind, hwal]) hjournal hload

omit [Indexing] [SchemaExport] in
theorem prepareLog_reads {schema : Option Bytes} {forceNewEpoch : Bool} {log after : LogFile}
    (h : prepareLog txn dbf memo schema forceNewEpoch log = .ok after) :
    ∃ metadata table, snapshotSchema schema = .ok metadata ∧
      assemble dbf (metadata.bind SchemaMetadata.encoding) metadata
        (openSnapshotMemo memo) = .ok table := by
  obtain ⟨record, hplan, -⟩ := bind_eq_ok.mp h
  simp only [planPrepare, bind_eq_ok] at hplan
  obtain ⟨records, -, committed, -, snapshot, hsnapshot, -⟩ := hplan
  obtain ⟨table, htable, -⟩ := bind_eq_ok.mp hsnapshot
  obtain ⟨metadata, hmetadata, htable⟩ := bind_eq_ok.mp htable
  exact ⟨metadata, table, lift_eq_ok.mp hmetadata, htable⟩

omit [Serde] [Indexing] [SchemaExport] in
theorem assemble_sidecar (h : assemble dbf encoding schema (openSnapshotMemo memo) = .ok table)
    (hsame : ∀ snapshot, memo = some snapshot → ∃ file, sidecar = some file ∧
      file.bytes = snapshot.bytes ∧ file.format (dbf.getD 0 0) = snapshot.format) :
    assemble dbf encoding schema (openSidecar sidecar) = .ok table := by
  obtain ⟨parsed, opened, hparsed, hfields, hopened, htable, hvalid⟩ := assemble_eq_ok.mp h
  refine assemble_eq_ok.mpr ⟨parsed, opened, hparsed, hfields, ?_, htable, hvalid⟩
  have hversion : parsed.header.version = dbf.getD 0 0 := by
    have hheader := (coherent_fromBytes hparsed).layout.header_eq
    rw [(fromBytes_origin hparsed).1] at hheader
    rw [hheader]
  unfold memoFor at hopened ⊢
  split at hopened
  · rename_i hsidecar
    rw [if_pos hsidecar]
    unfold openSnapshotMemo at hopened
    split at hopened
    · cases hopened
    · rename_i snapshot
      obtain ⟨file, hfile, hbytes, hformat⟩ := hsame snapshot rfl
      rw [hfile, hversion]
      simpa only [openSidecar, hbytes, hformat] using hopened
  · rename_i hsidecar
    rw [if_neg hsidecar]
    exact hopened

omit [SchemaExport] in
/-- The memo that the history keeps of a loaded table is the memo file that the save
leaves, and a load opens it under the same format. -/
theorem memoAfter_eq {read : Disk} {edited : DbfTable} {plan : SavePlan}
    (hfrom : LoadedFrom path read table)
    (hedited : Edited table edited) (hbeside : Beside read disk)
    (hplan : Planned edited path disk plan) :
    plan.prepared.bytes.getD 0 0 = table.header.version ∧
    ∀ snapshot, plan.historyMemo = some snapshot →
      ∃ file, disk.memoAfter plan.memoSnapshot = some file ∧
      file.bytes = snapshot.bytes ∧ file.format table.header.version = snapshot.format := by
  obtain ⟨dbf, txn, -, -, -, hsource⟩ := hfrom.source
  have hsource := hedited.source.trans hsource
  obtain ⟨bound, hbound, hcurrent, -, happly⟩ := hplan.prepared
  rw [DbfTable.bindSchemaIfPresent, if_pos (by simp [hsource])] at hbound
  cases hbound
  obtain ⟨-, hmemo, -⟩ := ensureSourceCurrent_eq_ok hsource rfl hcurrent
  obtain ⟨-, hversion, hwritten⟩ := applyMemoUpdates_eq_ok hedited.coherent.withFields happly
  -- The memo file that the loaded table was given, and its extension at the save.
  have hfile : ∀ memo, edited.memo = some memo → ∃ file bytes, read.memo = some file ∧
      disk.memo = some ⟨file.isFpt, bytes⟩ ∧ memo.format = file.format table.header.version := by
    intro memo hmemo
    have hformat := hedited.format
    rw [hmemo, Option.map_some] at hformat
    obtain ⟨loaded, hloaded, hformat⟩ := Option.map_eq_some_iff.mp hformat.symm
    obtain ⟨file, hread, -, hopened⟩ := hfrom.memo loaded hloaded
    obtain ⟨bytes, hdisk⟩ := hbeside.extension file hread
    exact ⟨file, bytes, hread, hdisk, hformat.symm.trans hopened⟩
  refine ⟨?_, ?_⟩
  · have hheader := congrArg DbfHeader.version hedited.coherent.layout.header_eq
    rw [hversion, ← hedited.version, hheader]
  · intro snapshot hsnapshot
    rw [hplan.historyMemo, DbfTable.historyMemo] at hsnapshot
    rcases hwritten with ⟨hnone, hprepared, hlayout⟩ | ⟨memo, written, hmemo, hsome, hformat⟩
    · rw [hnone, Option.none_or, hprepared] at hsnapshot
      obtain ⟨memo, hedit, rfl⟩ := Option.map_eq_some_iff.mp hsnapshot
      have hedit : edited.memo = some memo := hedit
      have hloaded := hedited.memo (hlayout (by rw [hedit]; rfl))
      obtain ⟨file, bytes, hread, hdisk, hformat⟩ := hfile memo hedit
      obtain ⟨other, hother, hbytes, -⟩ := hfrom.memo memo (hloaded ▸ hedit)
      cases hread.symm.trans hother
      rw [hread, hdisk, Option.map_some, Option.map_some, Option.some.injEq] at hmemo
      refine ⟨⟨file.isFpt, bytes⟩, ?_, hmemo.trans hbytes.symm, hformat.symm⟩
      rw [hnone]
      exact hdisk
    · rw [hsome, Option.some_or, Option.some.injEq] at hsnapshot
      obtain ⟨file, bytes, -, hdisk, hopened⟩ := hfile memo hmemo
      refine ⟨⟨file.isFpt, written.bytes⟩, ?_, by rw [hsnapshot], ?_⟩
      · rw [hsome]
        simp [Disk.memoAfter, Disk.withMemo, hdisk]
      · rw [← hsnapshot, hformat]
        exact hopened.symm

theorem saved_table_loads {path : String} {start loaded saved : Disk}
    {table edited after : DbfTable}
    (hload : (fromPath path).Finishes start loaded table)
    (hcalls : Relation.ReflTransGen Leaves table edited)
    (hsave : (saveWithWal edited path).Finishes loaded saved after) :
    ∃ last reloaded, (fromPath path).Finishes saved last reloaded ∧
      reloaded.bytes = after.bytes ∧ reloaded.validateSchemaConstraints [] = .ok () := by
  obtain ⟨read, index, hread, hjournal, rfl⟩ := finishes_fromPath hload
  have hfrom := loadPath_eq_ok hread
  have hedited := Edited.run ⟨hfrom.coherent, rfl, rfl, rfl, fun _ => rfl⟩ hcalls
  simp only [saveWithWal, saveWithWalInner, saveRecovered, finishes_bind, finishes_ask,
    Except.ok.injEq] at hsave
  obtain ⟨_, recovered, hrecover, disk, plan, ⟨rfl, hplan⟩, logged, _, hlog, _, _, hinstall,
    rfl, rfl⟩ := hsave
  -- Neither the recovery before the save nor its log touches what the table was loaded from.
  have hrecovered := ((blind_beside _).recoverWalWithEncoding path _).finishes
    (Beside.refl { read with index := index }) hrecover
  have hbeside : Beside read disk :=
    ⟨hrecovered.schema, hrecovered.exportJournal, hrecovered.extension⟩
  obtain ⟨wal, rfl⟩ : ∃ wal, logged = { disk with wal := wal } :=
    (keeps_logSave (P := fun state => ∃ wal, state = { disk with wal := wal })
      (fun state log h => ⟨log, by obtain ⟨wal, rfl⟩ := h; rfl⟩) plan none).finishes
      ⟨disk.wal, rfl⟩ hlog
  have hinstalled := finishes_installSave hinstall
  have hplanned := planned hplan
  obtain ⟨hversion, hmemo⟩ := memoAfter_eq hfrom hedited hbeside hplanned
  -- The history has read the new image back, beside the same sidecar and memo.
  obtain ⟨⟨prepared, hprepared, -⟩, -, hdbf, hafter, hschema, ⟨state, hstate, hwritten⟩,
      hwal, hleft⟩ :=
    hinstalled
  obtain ⟨metadata, reloaded, hmetadata, hassemble⟩ := prepareLog_reads hprepared
  have hassembled := assemble_sidecar hassemble (by
    intro snapshot hsnapshot
    rw [hversion]
    exact hmemo snapshot hsnapshot)
  have hid : saved.readTransactionState = .ok (some plan.transactionId) := by
    obtain ⟨current, -, hnext⟩ := hplanned.transactionId
    rw [Disk.readTransactionState, hwritten]
    dsimp only
    rw [decodeTransactionState_bytes (nextTransactionId_eq_ok.mp hnext).2 hstate]
    rfl
  have hsidecar : snapshotSchema saved.schema = .ok metadata := by
    rw [hschema, ← hmetadata, hplanned.schema]
  have hreload := loadPath_of_assemble hdbf hid hsidecar
    (by rw [hafter]; exact hassembled) path
  refine ⟨saved, _, fromPath_finishes hwal ?_ hreload, ?_, ?_⟩
  · rw [hleft, ← hjournal]
    exact hbeside.exportJournal
  · show reloaded.bytes = plan.prepared.bytes
    exact assemble_bytes hassembled
  · obtain ⟨-, -, -, -, -, -, hvalid⟩ := assemble_eq_ok.mp hassembled
    exact hvalid

end Save

attribute [local instance] Runtime.bare Filters.bare Indexing.none SchemaExport.none

/-- One text record under a schema that asks for a value, deleted and saved. -/
theorem saved_table_loads_delete :
    letI := Serde.listed []
      [⟨1, false, [⟨1, some ⟨false, [("A", .string "x")]⟩, some ⟨true, [("A", .string "x")]⟩⟩]⟩]
      [⟨"txbase-schema", 2, none, [("A", { notNull := true })], [], {}⟩] [[("A", .string "x")]]
    let start := Disk.fresh (singleFieldImage 0x03 0x43 1 0 [[0x20, 0x78]]) none (some [0, 0])
    ∃ loaded saved table after, (fromPath "t.dbf").Finishes start loaded table ∧
      (saveWithWal ((Call.delete 1).run table).1 "t.dbf").Finishes loaded saved after ∧
      ∃ last reloaded, (fromPath "t.dbf").Finishes saved last reloaded ∧
        reloaded.bytes = after.bytes := by
  let := Serde.listed []
    [⟨1, false, [⟨1, some ⟨false, [("A", .string "x")]⟩, some ⟨true, [("A", .string "x")]⟩⟩]⟩]
    [⟨"txbase-schema", 2, none, [("A", { notNull := true })], [], {}⟩] [[("A", .string "x")]]
  intro start
  have hrun : (do
      let (loaded, table) ← (fromPath "t.dbf").finish? start
      let (saved, after) ← (saveWithWal ((Call.delete 1).run table).1 "t.dbf").finish? loaded
      some ()) = some () := by decide +kernel
  simp only [bind_eq_some, Prod.exists, Durable.finish?_eq_some, and_true] at hrun
  obtain ⟨loaded, table, hload, saved, after, hsave⟩ := hrun
  obtain ⟨last, reloaded, hreload, hbytes, -⟩ :=
    saved_table_loads hload (.single ⟨.delete 1, rfl⟩) hsave
  exact ⟨loaded, saved, table, after, hload, hsave, last, reloaded, hreload, hbytes⟩

end TxBase.Dbf
