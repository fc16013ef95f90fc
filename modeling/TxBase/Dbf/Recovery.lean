import TxBase.Dbf.Operation
import TxBase.Dbf.Persistence

/-! Recovery of a table, `src/dbf/recovery.rs`: the log that an interrupted save left is
redone from its redo record, or from the logged operation when there is none.  A load
recovers first, and so does a save. -/
namespace TxBase.Dbf
open Lib Json
open Durable (ask step forSome)
open Outcome (lift)

def findPayload {α : Type} (decode : Bytes → Checked (Option α)) : List Bytes → Checked (Option α)
  | [] => .ok none
  | payload :: rest => do
      match ← decode payload with
      | some value => .ok (some value)
      | none => findPayload decode rest

/-- `records().iter().rev()`: the last record that a decoder takes. -/
def findLastPayload {α : Type} (decode : Bytes → Checked (Option α)) (payloads : List Bytes) :
    Checked (Option α) :=
  findPayload decode payloads.reverse

def noteLayoutChange (found : Bool) (payload : Bytes) : Checked Bool := do
  let marker ← decodeLayoutChangePayload payload
  .ok (found || marker.getD false)

/-- What recovery reads from a log. -/
structure PendingLog where
  indexPayload : Option Bytes
  transactionId : Option Nat
  event : Option ChangeEvent
  forceNewEpoch : Bool
  snapshot : Option RecoverySnapshot

/-- The event of a log belongs to the transaction of the log. -/
def checkLoggedEvent (event : Option ChangeEvent) (transactionId : Option Nat) : Checked Unit :=
  match event, transactionId with
  | some event, some transactionId =>
      reject (event.transactionId ≠ transactionId)
        "CDC event transaction ID does not match the WAL transaction ID"
  | some _, none => invalid "CDC event WAL payload has no transaction ID"
  | none, _ => .ok ()

/-- The event of a re-executed operation is the one that was logged, if one was. -/
def checkRecoveredEvent (logged : Option ChangeEvent) (generated : ChangeEvent) :
    Checked ChangeEvent :=
  match logged with
  | none => .ok generated
  | some event => do
      reject (!event.eqv generated) "WAL CDC event does not match the recovered operation"
      .ok event

section Recovery
variable [Runtime] [Filters] [Serde] [Indexing]

def readPending (disk : Disk) (payloads : List Bytes) : Checked PendingLog := do
  let indexPayload ← findLastPayload (fun payload => indexed (decodeSnapshotPayload payload))
    payloads
  let transactionId ← findLastPayload decodeTransactionIdPayload payloads
  let event ← eventFromWal payloads
  checkLoggedEvent event transactionId
  let forceNewEpoch ← payloads.foldlM noteLayoutChange false
  let snapshot ← findLastPayload (decodeWalPayload disk.files) payloads
  .ok ⟨indexPayload, transactionId, event, forceNewEpoch, snapshot⟩

/-- The transaction id never goes back. -/
def persistRecoveredTransactionId (transactionId : Nat) : Saving Unit := do
  let current ← ask fun disk => lift disk.readTransactionState
  writeTransactionState (max (current.getD 0) transactionId)

/-- The commit of a redone transaction. -/
def commitRecovered (pending : PendingLog) (snapshot : RecoverySnapshot) (transactionId : Nat) :
    Saving Unit := do
  persistRecoveredTransactionId transactionId
  commitRecoveredSnapshot transactionId snapshot.dbf snapshot.memo pending.forceNewEpoch
  forSome pending.event appendCdc

def redoSnapshot (encoding : Option String) (pending : PendingLog) (snapshot : RecoverySnapshot) :
    Saving Unit := do
  let _ ← ask fun _ => lift (fromBytesWithEncoding snapshot.dbf encoding)
  forSome snapshot.memo replaceMemo
  replaceDbf snapshot.dbf
  forSome pending.indexPayload applySnapshotPayload
  forSome pending.transactionId (commitRecovered pending snapshot)
  removeWal

/-- What the re-execution of an operation has computed when it writes to the log. -/
structure OperationPlan where
  transactionId : Nat
  table : DbfTable
  event : ChangeEvent
  cdcPayload : Bytes
  memoSnapshot : Option MemoSnapshot
  payload : Bytes
  indexPayload : Option Bytes

/-- The id that was logged, or the next one; never below the id of the table. -/
def operationTransactionId (logged : Option Nat) (disk : Disk) : Checked Nat := do
  let current ← disk.readTransactionState
  match logged with
  | some transactionId => .ok (max (current.getD 0) transactionId)
  | none => do
      let transactionId ← nextTransactionId current
      .ok (max (current.getD 0) transactionId)

def planOperation (path : String) (encoding : Option String) (pending : PendingLog)
    (operation : OperationIr) (disk : Disk) : Res OperationPlan := do
  let transactionId ← lift (operationTransactionId pending.transactionId disk)
  let before ← DbfTable.loadPathWithEncoding path encoding disk
  let (table, result) := before.applyOperation operation
  result
  let generated ← lift (eventForTables transactionId before table pending.forceNewEpoch)
  let event ← lift (checkRecoveredEvent pending.event generated)
  let cdcPayload ← lift (cdcPayload event)
  let (table, memoSnapshot) ← table.applyMemoUpdates disk.memo
  let payload ← lift (redoPayload table.source table.bytes path memoSnapshot)
  let indexPayload ← lift (indexed (pendingSnapshotPayload disk table table.bytes
    (memoSnapshot.map MemoSnapshot.bytes)))
  .ok ⟨transactionId, table, event, cdcPayload, memoSnapshot, payload, indexPayload⟩

/-- The event is logged unless the log has one. -/
def logEvent (cdcPayload : Bytes) : Saving Unit := do
  let event ← ask fun disk => lift (do eventFromWal (← disk.wal.payloads))
  Durable.when event.isNone (appendWal cdcPayload)

def redoOperation (plan : OperationPlan) (forceNewEpoch : Bool) : Saving Unit := do
  appendWal (transactionIdPayload plan.transactionId)
  logEvent plan.cdcPayload
  appendWal plan.payload
  forSome plan.indexPayload appendWal
  forSome plan.memoSnapshot replaceMemo
  replaceDbf plan.table.bytes
  forSome plan.indexPayload applySnapshotPayload
  writeTransactionState plan.transactionId
  commitRecoveredSnapshot plan.transactionId plan.table.bytes plan.memoSnapshot forceNewEpoch
  appendCdc plan.event
  removeWal

/-- A log without a redo record: its operation, if any, is executed again. -/
def recoverOperation (path : String) (encoding : Option String) (payloads : List Bytes)
    (pending : PendingLog) : Saving Bool := do
  let operation ← ask fun _ => lift (findLastPayload decodeOperationPayload payloads)
  match operation with
  | none => do
      Durable.when pending.transactionId.isSome removeWal
      pure false
  | some operation => do
      let plan ← ask (planOperation path encoding pending operation)
      redoOperation plan pending.forceNewEpoch
      pure true

def recoverPending (path : String) (encoding : Option String) (payloads : List Bytes) :
    Saving Bool := do
  let pending ← ask fun disk => lift (readPending disk payloads)
  match pending.snapshot with
  | some snapshot => do
      redoSnapshot encoding pending snapshot
      pure true
  | none => recoverOperation path encoding payloads pending

def recoverWalWithEncoding (path : String) (encoding : Option String) : Saving Bool := do
  let log ← ask fun disk => .ok disk.wal
  match log with
  | .absent => pure false
  | .unreadable error => ask fun _ => Outcome.fail (transactionError error)
  | .records [] => do
      removeWal
      pure false
  | .records payloads => recoverPending path encoding payloads

end Recovery

/-- `apply_export` of `src/dbf/schema_export.rs`: it replaces files of the table by the
staged ones that the journal's flags name. -/
class SchemaExport where
  applyExport : Bytes → Saving Unit

/-- No export was ever staged. -/
@[reducible] def SchemaExport.none : SchemaExport where
  applyExport _ := ask fun _ => Outcome.fail (.io "No such file or directory")

section Load
variable [Runtime] [Filters] [Serde] [Indexing] [SchemaExport]

def removeJournal : Saving Unit := do
  step fun disk => { disk with exportJournal := .records [] }
  step fun disk => { disk with exportJournal := .absent }

def recoverSchemaExport : Saving Bool := do
  let journal ← ask fun disk => .ok disk.exportJournal
  match journal with
  | .absent => pure false
  | .unreadable error => ask fun _ => Outcome.fail (transactionError error)
  | .records [] => do
      removeJournal
      pure false
  | .records [record] => do
      SchemaExport.applyExport record
      removeJournal
      pure true
  | .records _ => ask fun _ =>
      Outcome.fail (.invalid "XBF schema export journal contains multiple records")

def normalizeEncodingOverride (encoding : Option String) : Checked (Option String) :=
  match encoding with
  | none => .ok none
  | some name => do
      let canonical ← required (canonicalEncodingName name)
        s!"unsupported encoding override: {name}"
      .ok (some canonical)

/-- `let _ =` on a refresh: its error is dropped. -/
def tryRefresh (table : DbfTable) : Saving Unit := do
  let bytes ← ask fun disk => .ok ((refreshedBytes disk table table.bytes none).toOption.join)
  forSome bytes replaceIndex

def DbfTable.fromPathWithEncoding (path : String) (encoding : Option String) : Saving DbfTable := do
  let encoding ← ask fun _ => lift (normalizeEncodingOverride encoding)
  let recovered ← recoverWalWithEncoding path encoding
  let exported ← recoverSchemaExport
  let table ← ask (DbfTable.loadPathWithEncoding path encoding)
  Durable.when (recovered || exported) (tryRefresh table)
  pure table

def DbfTable.fromPath (path : String) : Saving DbfTable := DbfTable.fromPathWithEncoding path none

/-- `save_with_wal` without an operation, `save_with_operation` with one. -/
def saveWithWalInner (table : DbfTable) (path : String) (operation : Option OperationIr) :
    Saving DbfTable := do
  let _ ← recoverWalWithEncoding path table.encodingOverride
  saveRecovered table path operation

def saveWithWal (table : DbfTable) (path : String) : Saving DbfTable :=
  saveWithWalInner table path none

def saveWithOperation (table : DbfTable) (path : String) (operation : OperationIr) :
    Saving DbfTable :=
  saveWithWalInner table path (some operation)

end Load

end TxBase.Dbf
