import TxBase.Dbf.Recovery

/-! What each part of a save and of a recovery leaves on disk when it ends normally, and
what it never touches. -/
namespace TxBase.Dbf
open Lib Json
open Durable (ask step finishes_bind Keeps finishes_ask finishes_step forSome)
open Outcome (lift lift_eq_ok)
variable {disk last : Disk} {value : Unit} {payload : Bytes} {txn : Nat} {plan : SavePlan}
  {P : Disk → Prop} {payloads : List Bytes}

@[simp] theorem LogFile.append_created (log : LogFile) (payload : Bytes) :
    log.created.append payload = log.append payload := by
  cases log <;> rfl

theorem nextTransactionId_eq_ok {current : Option Nat} :
    nextTransactionId current = .ok txn ↔ txn = current.getD 0 + 1 ∧ txn < u64Size := by
  simp only [nextTransactionId, bind_eq_ok, reject_eq_ok, Nat.not_le, Except.ok.injEq]
  constructor
  · rintro ⟨-, hsmall, rfl⟩
    exact ⟨rfl, hsmall⟩
  · rintro ⟨rfl, hsmall⟩
    exact ⟨(), hsmall, rfl⟩

theorem finishes_appendWal :
    (appendWal payload).Finishes disk last value ↔
      checkRecordSize payload = .ok () ∧ last = { disk with wal := disk.wal.append payload } := by
  simp [appendWal, finishes_bind, lift_eq_ok, Unique.exists_iff]

theorem finishes_openWal :
    openWal.Finishes disk last payloads ↔
      disk.wal.payloads = .ok payloads ∧ last = { disk with wal := disk.wal.created } := by
  simp only [openWal, finishes_bind, finishes_ask, finishes_step,
    Durable.finishes_pure, lift_eq_ok]
  constructor
  · rintro ⟨_, read, ⟨rfl, hread⟩, _, -, rfl, rfl, rfl⟩
    exact ⟨hread, rfl⟩
  · rintro ⟨hread, rfl⟩
    exact ⟨disk, payloads, ⟨rfl, hread⟩, _, (), rfl, rfl, rfl⟩

theorem finishes_removeWal :
    removeWal.Finishes disk last value ↔ last = { disk with wal := .absent } := by
  simp [removeWal, finishes_bind]

theorem finishes_writeTransactionState :
    (writeTransactionState txn).Finishes disk last value ↔
      ∃ bytes, transactionStateBytes txn = .ok bytes ∧
        last = { disk with state := some bytes } := by
  simp [writeTransactionState, finishes_bind, lift_eq_ok]

theorem finishes_appendMvcc :
    (appendMvcc payload).Finishes disk last value ↔
      (∃ payloads, disk.mvcc.payloads = .ok payloads) ∧ checkRecordSize payload = .ok () ∧
        last = { disk with mvcc := disk.mvcc.append payload } := by
  simp [appendMvcc, finishes_bind, lift_eq_ok, Unique.exists_iff]

section Logs
variable {log : LogFile}

theorem payloads_append (h : log.payloads = .ok payloads) (payload : Bytes) :
    log.append payload = .records (payloads ++ [payload]) := by
  cases log <;> cases h <;> rfl

variable [Serde]

/-- What a durable append to a log comes to. -/
def appendLog (record : Option Bytes) (log : LogFile) : Res LogFile :=
  match record with
  | none => .ok log
  | some record => do
      lift (checkRecordSize record)
      .ok (log.append record)

def cdcLog (event : ChangeEvent) (log : LogFile) : Res LogFile := do
  let encoded ← lift (cdcPayload event)
  let records ← lift log.payloads
  let present ← lift (scanCdc event none records)
  appendLog (if present then none else some encoded) log.created

variable {dbf : Bytes} {memo : Option MemoSnapshot} {schema : Option Bytes} {forceNewEpoch : Bool}
  {record : Option Bytes}

theorem finishes_appendCdc {event : ChangeEvent} :
    (appendCdc event).Finishes disk last value ↔
      ∃ log, cdcLog event disk.cdc = .ok log ∧ last = { disk with cdc := log } := by
  have hwrite : ∀ (present : Bool) (encoded : Bytes) (start : Disk),
      Durable.Finishes (Durable.when (!present) (do
        ask fun _ => lift (checkRecordSize encoded)
        step fun disk => { disk with cdc := disk.cdc.append encoded })) start last value ↔
      ∃ log, appendLog (if present then none else some encoded) start.cdc = .ok log ∧
        last = { start with cdc := log } := by
    intro present encoded start
    cases present <;> simp [appendLog, finishes_bind, bind_eq_ok, lift_eq_ok, Unique.exists_iff]
  simp only [appendCdc, finishes_bind, finishes_ask, finishes_step, cdcLog,
    bind_eq_ok, lift_eq_ok, hwrite]
  constructor
  · rintro ⟨_, encoded, ⟨rfl, hencoded⟩, _, records, ⟨rfl, hrecords⟩, _, -, rfl, _, present,
      ⟨rfl, hpresent⟩, log, hlog, rfl⟩
    exact ⟨log, ⟨encoded, hencoded, records, hrecords, present, hpresent, hlog⟩, rfl⟩
  · rintro ⟨log, ⟨encoded, hencoded, records, hrecords, present, hpresent, hlog⟩, rfl⟩
    exact ⟨_, encoded, ⟨rfl, hencoded⟩, _, records, ⟨rfl, hrecords⟩, _, (), rfl, _, present,
      ⟨rfl, hpresent⟩, log, hlog, rfl⟩

variable [Runtime] [Filters]

def prepareLog (transactionId : Nat) (dbf : Bytes) (memo : Option MemoSnapshot)
    (schema : Option Bytes) (forceNewEpoch : Bool) (log : LogFile) : Res LogFile := do
  let record ← planPrepare transactionId dbf memo schema forceNewEpoch log
  appendLog record log

def commitLog (transactionId : Nat) (dbf : Bytes) (memo : Option MemoSnapshot)
    (schema : Option Bytes) (forceNewEpoch : Bool) (log : LogFile) : Res LogFile := do
  let prepared ← prepareLog transactionId dbf memo schema forceNewEpoch log
  let committed ← lift (isCommitted transactionId prepared)
  appendLog (if committed then none else some (encodeCommit transactionId)) prepared

theorem planPrepare_payloads (h : planPrepare txn dbf memo schema forceNewEpoch log = .ok record) :
    ∃ payloads, log.payloads = .ok payloads := by
  obtain ⟨records, hrecords, -⟩ := bind_eq_ok.mp h
  obtain ⟨payloads, hpayloads, -⟩ := bind_eq_ok.mp (lift_eq_ok.mp hrecords)
  exact ⟨payloads, hpayloads⟩

omit [Serde] [Runtime] [Filters] in
theorem finishes_appendSome (h : ∃ payloads, disk.mvcc.payloads = .ok payloads) :
    (forSome record appendMvcc).Finishes disk last value ↔
      ∃ log, appendLog record disk.mvcc = .ok log ∧ last = { disk with mvcc := log } := by
  cases record with
  | none => simp [appendLog]
  | some record =>
    simp [finishes_appendMvcc, h, appendLog, bind_eq_ok, lift_eq_ok, Unique.exists_iff]

theorem finishes_prepareSnapshot :
    (prepareSnapshot txn dbf memo schema forceNewEpoch).Finishes disk last value ↔
      ∃ log, prepareLog txn dbf memo schema forceNewEpoch disk.mvcc = .ok log ∧
        last = { disk with mvcc := log } := by
  simp only [prepareSnapshot, finishes_bind, finishes_ask, prepareLog, bind_eq_ok]
  constructor
  · rintro ⟨_, record, ⟨rfl, hplan⟩, hrun⟩
    obtain ⟨log, hlog, hlast⟩ := (finishes_appendSome (planPrepare_payloads hplan)).mp hrun
    exact ⟨log, ⟨record, hplan, hlog⟩, hlast⟩
  · rintro ⟨log, ⟨record, hplan, hlog⟩, hlast⟩
    exact ⟨disk, record, ⟨rfl, hplan⟩,
      (finishes_appendSome (planPrepare_payloads hplan)).mpr ⟨log, hlog, hlast⟩⟩

theorem finishes_commitSnapshot :
    (commitSnapshot txn dbf memo schema forceNewEpoch).Finishes disk last value ↔
      ∃ log, commitLog txn dbf memo schema forceNewEpoch disk.mvcc = .ok log ∧
        last = { disk with mvcc := log } := by
  -- The history was read, so that it can be appended to.
  have hread : ∀ {log : LogFile} {committed : Bool}, isCommitted txn log = .ok committed →
      ∃ payloads, log.payloads = .ok payloads := by
    intro log committed h
    obtain ⟨records, hrecords, -⟩ := bind_eq_ok.mp h
    obtain ⟨payloads, hpayloads, -⟩ := bind_eq_ok.mp hrecords
    exact ⟨payloads, hpayloads⟩
  have happend : ∀ committed : Bool,
      Durable.when (!committed) (appendMvcc (encodeCommit txn)) =
        forSome (if committed then none else some (encodeCommit txn))
          appendMvcc := by
    intro committed
    cases committed <;> rfl
  simp only [commitSnapshot, finishes_bind, finishes_ask, finishes_prepareSnapshot, commitLog,
    bind_eq_ok, lift_eq_ok, happend]
  constructor
  · rintro ⟨_, -, ⟨prepared, hprepared, rfl⟩, _, committed, ⟨rfl, hcommitted⟩, hrun⟩
    obtain ⟨log, hlog, hlast⟩ := (finishes_appendSome (hread hcommitted)).mp hrun
    exact ⟨log, ⟨prepared, hprepared, committed, hcommitted, hlog⟩, hlast⟩
  · rintro ⟨log, ⟨prepared, hprepared, committed, hcommitted, hlog⟩, hlast⟩
    exact ⟨_, (), ⟨prepared, hprepared, rfl⟩, _, committed, ⟨rfl, hcommitted⟩,
      (finishes_appendSome (hread hcommitted)).mpr ⟨log, hlog, hlast⟩⟩

end Logs

section Plan
theorem indexed_eq_ok {α : Type} {result : Except String α} {value : α} :
    indexed result = .ok value ↔ result = .ok value := by
  cases result <;> simp [indexed, invalid]

variable [Runtime] [Filters] [Serde] [Indexing]

/-- What the plan of a save is made of. -/
structure Planned (table : DbfTable) (path : String) (disk : Disk) (plan : SavePlan) : Prop where
  transactionId : ∃ current, disk.readTransactionState = .ok current ∧
    nextTransactionId current = .ok plan.transactionId
  prepared : ∃ bound, table.bindSchemaIfPresent disk = .ok bound ∧
    bound.ensureSourceCurrent path disk = .ok () ∧ plan.layoutChanged = bound.layoutChanged ∧
    DbfTable.applyMemoUpdates { bound with transactionId := some plan.transactionId } disk.memo =
      .ok (plan.prepared, plan.memoSnapshot)
  payload : redoPayload plan.prepared.source plan.prepared.bytes path plan.memoSnapshot =
    .ok plan.payload
  historyMemo : plan.historyMemo = plan.prepared.historyMemo plan.memoSnapshot
  schema : plan.schemaBytes = disk.schema
  index : pendingSnapshotPayload disk plan.prepared plan.prepared.bytes
    (plan.memoSnapshot.map MemoSnapshot.bytes) = .ok plan.indexPayload
  event : ∃ before, table.replaced path disk = .ok before ∧
    eventForTables plan.transactionId before plan.prepared plan.layoutChanged = .ok plan.event
  cdc : cdcPayload plan.event = .ok plan.cdcPayload

variable {path : String} {table : DbfTable}

theorem planned (h : planSave table path disk = .ok plan) : Planned table path disk plan := by
  simp only [planSave, bind_eq_ok, lift_eq_ok, indexed_eq_ok] at h
  obtain ⟨current, hcurrent, before, hbefore, bound, hbound, ⟨⟩, hsource, -, -, txn, hid,
    ⟨prepared, written⟩, hprepared, payload, hpayload, index, hindex, event, hevent,
    cdc, hcdc, h⟩ := h
  cases h
  exact ⟨⟨current, hcurrent, hid⟩, ⟨bound, hbound, hsource, rfl, hprepared⟩, hpayload,
    rfl, rfl, hindex,
    ⟨before, hbefore, hevent⟩, hcdc⟩

theorem Planned.event_flags (h : Planned table path disk plan) :
    plan.event.transactionId = plan.transactionId ∧ plan.event.reset = plan.layoutChanged := by
  obtain ⟨_, -, hevent⟩ := h.event
  obtain ⟨-, -, hevent⟩ := bind_eq_ok.mp hevent
  rw [Except.ok.injEq] at hevent
  rw [← hevent]
  exact ⟨rfl, rfl⟩

end Plan

section Install
variable [Indexing]

theorem finishes_applySnapshotPayload :
    (applySnapshotPayload payload).Finishes disk last value ↔
      ∃ bytes, planApply payload disk = .ok bytes ∧
        last = { disk with index := bytes.or disk.index } := by
  simp only [applySnapshotPayload, finishes_bind, finishes_ask, lift_eq_ok, indexed_eq_ok]
  constructor
  · rintro ⟨_, bytes, ⟨rfl, hplan⟩, hrun⟩
    refine ⟨bytes, hplan, ?_⟩
    cases bytes <;> simpa [replaceIndex] using hrun
  · rintro ⟨bytes, hplan, rfl⟩
    refine ⟨_, bytes, ⟨rfl, hplan⟩, ?_⟩
    cases bytes <;> simp [replaceIndex]

theorem finishes_installIndex (h : (installIndex plan).Finishes disk last value) :
    ∃ index, last = { disk with index := index } := by
  unfold installIndex at h
  split at h
  · obtain ⟨bytes, -, rfl⟩ := finishes_applySnapshotPayload.mp h
    exact ⟨_, rfl⟩
  · simp only [refreshIfPresent, finishes_bind, finishes_ask] at h
    obtain ⟨_, bytes, ⟨rfl, -⟩, h⟩ := h
    cases bytes with
    | none => exact ⟨_, by simpa using h⟩
    | some bytes => exact ⟨_, by simpa [replaceIndex] using h⟩

def Disk.memoAfter (disk : Disk) (written : Option MemoSnapshot) : Option MemoSidecar :=
  match written with
  | none => disk.memo
  | some memo => (disk.withMemo memo).memo

omit [Indexing] in
theorem finishes_replaceMemos {written : Option MemoSnapshot} :
    (forSome written replaceMemo).Finishes disk last value ↔
      last = { disk with memo := disk.memoAfter written } := by
  unfold Disk.memoAfter
  cases written <;> simp [replaceMemo, Disk.withMemo]

variable [Runtime] [Filters] [Serde]

/-- What a save that ends normally leaves. -/
structure Installed (plan : SavePlan) (disk last : Disk) : Prop where
  history : ∃ prepared, prepareLog plan.transactionId plan.prepared.bytes plan.historyMemo
      plan.schemaBytes plan.layoutChanged disk.mvcc = .ok prepared ∧
    commitLog plan.transactionId plan.prepared.bytes plan.historyMemo plan.schemaBytes
      plan.layoutChanged prepared = .ok last.mvcc
  changes : cdcLog plan.event disk.cdc = .ok last.cdc
  dbf : last.dbf = some plan.prepared.bytes
  memo : last.memo = disk.memoAfter plan.memoSnapshot
  schema : last.schema = disk.schema
  state : ∃ bytes, transactionStateBytes plan.transactionId = .ok bytes ∧ last.state = some bytes
  wal : last.wal = .absent
  exportJournal : last.exportJournal = disk.exportJournal

theorem finishes_installSave (h : (installSave plan).Finishes disk last value) :
    Installed plan disk last := by
  simp only [installSave, finishes_bind, finishes_prepareSnapshot, finishes_replaceMemos,
    finishes_writeTransactionState, finishes_commitSnapshot, finishes_appendCdc,
    finishes_removeWal, replaceDbf, finishes_step] at h
  obtain ⟨_, -, ⟨prepared, hprepared, rfl⟩, _, -, rfl, _, -, rfl, _, _, hindex, _, -,
    ⟨state, hstate, rfl⟩, _, -, ⟨log, hlog, rfl⟩, _, -, ⟨cdc, hcdc, rfl⟩, rfl⟩ := h
  obtain ⟨index, rfl⟩ := finishes_installIndex hindex
  exact ⟨⟨prepared, hprepared, hlog⟩, hcdc, rfl, rfl, rfl, ⟨state, hstate, rfl⟩, rfl, rfl⟩

end Install

section Keeps
section
variable (h : ∀ disk log, P disk → P { disk with wal := log })
include h

theorem keeps_appendWal (payload : Bytes) : Keeps P (appendWal payload) :=
  .bind (.ask _) fun _ => .step fun disk => h disk _

theorem keeps_removeWal : Keeps P removeWal :=
  .bind (.step fun disk => h disk _) fun _ => .step fun disk => h disk _

theorem keeps_logSave [Serde]
    (plan : SavePlan) (operation : Option OperationIr) : Keeps P (logSave plan operation) :=
  .bind (.bind (.ask _) fun _ => .bind (.step fun disk => h disk _) fun _ => .pure _) fun _ =>
    .bind (.when (keeps_appendWal h _)) fun _ =>
    .bind (.forSome fun _ => .bind (.ask _) fun _ => keeps_appendWal h _) fun _ =>
    .bind (keeps_appendWal h _) fun _ => .bind (keeps_appendWal h _) fun _ =>
    .bind (keeps_appendWal h _) fun _ => .forSome (keeps_appendWal h)

end

theorem keeps_writeTransactionState (h : ∀ disk state, P disk → P { disk with state := state })
    (txn : Nat) : Keeps P (writeTransactionState txn) :=
  .bind (.ask _) fun _ => .step fun disk => h disk _

theorem keeps_appendMvcc (h : ∀ disk log, P disk → P { disk with mvcc := log }) (payload : Bytes) :
    Keeps P (appendMvcc payload) :=
  .bind (.ask _) fun _ => .bind (.step fun disk => h disk _) fun _ =>
    .bind (.ask _) fun _ => .step fun disk => h disk _

theorem keeps_appendCdc [Serde] (h : ∀ disk log, P disk → P { disk with cdc := log })
    (event : ChangeEvent) : Keeps P (appendCdc event) :=
  .bind (.ask _) fun _ => .bind (.ask _) fun _ => .bind (.step fun disk => h disk _) fun _ =>
    .bind (.ask _) fun _ => .when (.bind (.ask _) fun _ => .step fun disk => h disk _)

theorem keeps_applySnapshotPayload [Indexing]
    (h : ∀ disk index, P disk → P { disk with index := index })
    (payload : Bytes) : Keeps P (applySnapshotPayload payload) :=
  .bind (.ask _) fun _ => .forSome fun _ => .step fun disk => h disk _

variable [Runtime] [Filters] [Serde] (txn : Nat) (dbf : Bytes)
  (memo : Option MemoSnapshot) (forceNewEpoch : Bool)

section
variable (h : ∀ disk log, P disk → P { disk with mvcc := log })
include h

theorem keeps_prepareSnapshot (schema : Option Bytes) :
    Keeps P (prepareSnapshot txn dbf memo schema forceNewEpoch) :=
  .bind (.ask _) fun _ => .forSome fun payload => keeps_appendMvcc h payload

theorem keeps_commitSnapshot (schema : Option Bytes) :
    Keeps P (commitSnapshot txn dbf memo schema forceNewEpoch) :=
  .bind (keeps_prepareSnapshot _ _ _ _ h schema) fun _ => .bind (.ask _) fun _ =>
    .when (keeps_appendMvcc h _)

theorem keeps_commitRecoveredSnapshot :
    Keeps P (commitRecoveredSnapshot txn dbf memo forceNewEpoch) :=
  .bind (.ask _) fun _ => .bind (.ask _) fun _ => keeps_commitSnapshot _ _ _ _ h _

end

end Keeps

/-- A property that does not look at the files which a save or a recovery replaces; of the
memo file it may look at the extension. -/
structure Blind (P : Disk → Prop) : Prop where
  dbf : ∀ disk bytes, P disk → P { disk with dbf := bytes }
  memo : ∀ disk memo, P disk → P (disk.withMemo memo)
  state : ∀ disk bytes, P disk → P { disk with state := bytes }
  wal : ∀ disk log, P disk → P { disk with wal := log }
  mvcc : ∀ disk log, P disk → P { disk with mvcc := log }
  cdc : ∀ disk log, P disk → P { disk with cdc := log }
  index : ∀ disk bytes, P disk → P { disk with index := bytes }

namespace Blind
variable [Runtime] [Filters] [Serde] [Indexing]

theorem redoSnapshot (h : Blind P) (encoding : Option String) (pending : PendingLog)
    (snapshot : RecoverySnapshot) : Keeps P (redoSnapshot encoding pending snapshot) := by
  refine .bind (.ask _) fun _ => .bind (.forSome fun memo => .step fun disk => h.memo disk memo)
    fun _ => .bind (.step fun disk => h.dbf disk _) fun _ =>
    .bind (.forSome (keeps_applySnapshotPayload h.index)) fun _ =>
    .bind (.forSome fun txn => ?_) fun _ => keeps_removeWal h.wal
  exact .bind (.bind (.ask _) fun _ => keeps_writeTransactionState h.state _) fun _ =>
    .bind (keeps_commitRecoveredSnapshot _ _ _ _ h.mvcc) fun _ =>
    .forSome (keeps_appendCdc h.cdc)

theorem redoOperation (h : Blind P) (plan : OperationPlan) (forceNewEpoch : Bool) :
    Keeps P (redoOperation plan forceNewEpoch) :=
  .bind (keeps_appendWal h.wal _) fun _ =>
    .bind (.bind (.ask _) fun _ => .when (keeps_appendWal h.wal _)) fun _ =>
    .bind (keeps_appendWal h.wal _) fun _ => .bind (.forSome (keeps_appendWal h.wal)) fun _ =>
    .bind (.forSome fun memo => .step fun disk => h.memo disk memo) fun _ =>
    .bind (.step fun disk => h.dbf disk _) fun _ =>
    .bind (.forSome (keeps_applySnapshotPayload h.index)) fun _ =>
    .bind (keeps_writeTransactionState h.state _) fun _ =>
    .bind (keeps_commitRecoveredSnapshot _ _ _ _ h.mvcc) fun _ =>
    .bind (keeps_appendCdc h.cdc _) fun _ => keeps_removeWal h.wal

theorem recoverPending (h : Blind P) (path : String) (encoding : Option String)
    (payloads : List Bytes) : Keeps P (recoverPending path encoding payloads) := by
  refine .bind (.ask _) fun pending => ?_
  split
  · exact .bind (h.redoSnapshot _ _ _) fun _ => .pure _
  · refine .bind (.ask _) fun operation => ?_
    split
    · exact .bind (.when (keeps_removeWal h.wal)) fun _ => .pure _
    · exact .bind (.ask _) fun _ => .bind (h.redoOperation _ _) fun _ => .pure _

theorem recoverWalWithEncoding (h : Blind P) (path : String) (encoding : Option String) :
    Keeps P (recoverWalWithEncoding path encoding) := by
  refine .bind (.ask _) fun log => ?_
  split
  · exact .pure _
  · exact .ask _
  · exact .bind (keeps_removeWal h.wal) fun _ => .pure _
  · exact h.recoverPending path encoding _

end Blind

end TxBase.Dbf
