import TxBase.Dbf.Cdc
import TxBase.Dbf.IndexFile
import TxBase.Dbf.Mvcc

/-! Saving a table, `src/dbf/persistence.rs`.  A save reads the files and plans, logs its
plan, and then replaces the files one after the other; the log is removed last. -/
namespace TxBase.Dbf
open Lib Json
open Durable (ask forSome)
open Outcome (lift)

/-- What a save has computed when it opens its log. -/
structure SavePlan where
  prepared : DbfTable
  transactionId : Nat
  memoSnapshot : Option MemoSnapshot
  payload : Bytes
  historyMemo : Option MemoSnapshot
  schemaBytes : Option Bytes
  indexPayload : Option Bytes
  event : ChangeEvent
  cdcPayload : Bytes
  layoutChanged : Bool
  deriving DecidableEq

/-- The memo file that the history keeps: the one written, or the one the table holds. -/
def DbfTable.historyMemo (table : DbfTable) (written : Option MemoSnapshot) :
    Option MemoSnapshot :=
  written.or (table.memo.map fun memo => ⟨memo.format, memo.bytes⟩)

section Save
variable [Runtime] [Filters] [Serde] [Indexing]

/-- The table that the save replaces; a new file replaces a table without records. -/
def DbfTable.replaced (table : DbfTable) (path : String) (disk : Disk) : Res DbfTable :=
  match disk.dbf with
  | some _ => DbfTable.loadPathWithEncoding path table.encodingOverride disk
  | none => .ok { table with records := [], storedValues := [] }

def planSave (table : DbfTable) (path : String) (disk : Disk) : Res SavePlan := do
  let current ← lift disk.readTransactionState
  let before ← table.replaced path disk
  let table ← table.bindSchemaIfPresent disk
  lift (table.ensureSourceCurrent path disk)
  table.validateSchemaConstraints []
  let transactionId ← lift (nextTransactionId current)
  let (prepared, memoSnapshot) ←
    DbfTable.applyMemoUpdates { table with transactionId := some transactionId } disk.memo
  let payload ← lift (redoPayload prepared.source prepared.bytes path memoSnapshot)
  let indexPayload ← lift (indexed (pendingSnapshotPayload disk prepared prepared.bytes
    (memoSnapshot.map MemoSnapshot.bytes)))
  let event ← lift (eventForTables transactionId before prepared table.layoutChanged)
  let cdcPayload ← lift (cdcPayload event)
  .ok ⟨prepared, transactionId, memoSnapshot, payload, prepared.historyMemo memoSnapshot,
    disk.schema, indexPayload, event, cdcPayload, table.layoutChanged⟩

def logOperation (operation : OperationIr) : Saving Unit := do
  let record ← ask fun _ => lift (operationPayload operation)
  appendWal record

def logSave (plan : SavePlan) (operation : Option OperationIr) : Saving Unit := do
  let _ ← openWal
  Durable.when plan.layoutChanged (appendWal layoutChangePayload)
  forSome operation logOperation
  appendWal (transactionIdPayload plan.transactionId)
  appendWal plan.cdcPayload
  appendWal plan.payload
  forSome plan.indexPayload appendWal

def installIndex (plan : SavePlan) : Saving Unit :=
  match plan.indexPayload with
  | some payload => applySnapshotPayload payload
  | none => refreshIfPresent plan.prepared

def installSave (plan : SavePlan) : Saving Unit := do
  prepareSnapshot plan.transactionId plan.prepared.bytes plan.historyMemo plan.schemaBytes
    plan.layoutChanged
  forSome plan.memoSnapshot replaceMemo
  replaceDbf plan.prepared.bytes
  installIndex plan
  writeTransactionState plan.transactionId
  commitSnapshot plan.transactionId plan.prepared.bytes plan.historyMemo plan.schemaBytes
    plan.layoutChanged
  appendCdc plan.event
  removeWal

/-- The table after the save, with the files as its new source. -/
def savedTable (plan : SavePlan) (path : String) (disk : Disk) : DbfTable :=
  { plan.prepared with
    source := some ⟨path, plan.prepared.bytes, disk.memo.map MemoSidecar.bytes, disk.schema,
      some plan.transactionId⟩
    layoutChanged := false }

/-- A save once recovery has run. -/
def saveRecovered (table : DbfTable) (path : String) (operation : Option OperationIr) :
    Saving DbfTable := do
  let plan ← ask (planSave table path)
  logSave plan operation
  installSave plan
  ask fun disk => .ok (savedTable plan path disk)

end Save

end TxBase.Dbf
