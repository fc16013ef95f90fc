import TxBase.Dbf.IndexFile
import TxBase.Lib.Interruption
import TxBase.Lib.Paths

/-! The export of a table with its schema, `src/dbf/schema_export.rs`: the new files are
staged in a directory with copies of the old ones, a journal record publishes them, and the
targets are then replaced one by one, by the export or by a recovery. -/
namespace TxBase.Dbf
open Lib Json
open Durable (ask step forEach)
open Outcome (lift fail)

/-- The files that an export replaces, in the order of `target_paths`. -/
inductive ExportTarget where
  | dbf | schema | dbt | upperDbt | fpt | upperFpt | state | index
  deriving DecidableEq

namespace ExportTarget

def number : ExportTarget → Nat
  | .dbf => 0
  | .schema => 1
  | .dbt => 2
  | .upperDbt => 3
  | .fpt => 4
  | .upperFpt => 5
  | .state => 6
  | .index => 7

def targetPaths : List ExportTarget :=
  [.dbf, .schema, .dbt, .upperDbt, .fpt, .upperFpt, .state, .index]

def display (path : String) : ExportTarget → String
  | .dbf => path
  | .schema => Paths.withExtension path "txschema.json"
  | .dbt => Paths.withExtension path "dbt"
  | .upperDbt => Paths.withExtension path "DBT"
  | .fpt => Paths.withExtension path "fpt"
  | .upperFpt => Paths.withExtension path "FPT"
  | .state => Paths.withExtension path "txbase.state"
  | .index => Paths.withExtension path "txidx"

def stagePath : ExportTarget → String
  | .dbf => "dbf"
  | .schema => "schema"
  | .state => "state"
  | .index => "index"
  | _ => "unused"

def basePath (target : ExportTarget) : String :=
  let number := target.number
  s!"base-{number}"

end ExportTarget

open ExportTarget (targetPaths)

/-- The targets, the directory of the export and its journal. -/
structure ExportDisk where
  targets : ExportTarget → Option Bytes
  directory : Option (OrderedMap String Bytes)
  journal : LogFile

abbrev Exporting (α : Type) := Durable ExportDisk DbfError α

/-- The order in which a directory lists its entries. -/
class ReadDir where
  order : List String → List String
  perm : ∀ names, (order names).Perm names

def notFound {α : Type} : Res α := fail (.io "No such file or directory")

def readStaged (name : String) (disk : ExportDisk) : Res Bytes :=
  match disk.directory.bind (OrderedMap.get? name) with
  | some bytes => .ok bytes
  | none => notFound

def createDirectory : Exporting Unit := do
  ask fun disk => if disk.directory.isSome then fail (.io "File exists") else .ok ()
  step fun disk => { disk with directory := some [] }

def writeFile (name : String) (bytes : Bytes) : Exporting Unit := do
  ask fun disk => if disk.directory.isNone then notFound else .ok ()
  step fun disk => { disk with directory := disk.directory.map (OrderedMap.insert name bytes) }

def removeStaged (name : String) : Exporting Unit :=
  step fun disk => { disk with directory := disk.directory.map (OrderedMap.erase name) }

def removeDirectoryIfExists [ReadDir] : Exporting Unit := do
  let directory ← ask fun disk => .ok disk.directory
  match directory with
  | none => pure ()
  | some files => do
      forEach (ReadDir.order (files.map Prod.fst)) removeStaged
      ask fun disk => if disk.directory = some [] then .ok () else fail (.io "Directory not empty")
      step fun disk => { disk with directory := none }

def journalMagic : Bytes := [0x54, 0x58, 0x53, 0x45]

def journalVersion : Nat := 1

def journalRecordSize : Nat := 8

def journalRecord (flags : Nat) : Bytes :=
  journalMagic ++ toLeBytes 2 journalVersion ++ toLeBytes 2 flags

def decodeJournalRecord (record : Bytes) : Checked Nat := do
  reject (record.length ≠ journalRecordSize ∨ slice record 0 4 ≠ journalMagic)
    "XBF schema export journal header is invalid"
  reject (fromLeBytes (slice record 4 6) ≠ journalVersion)
    "unsupported XBF schema export journal version"
  reject (2 ^ targetPaths.length ≤ fromLeBytes (slice record 6 8))
    "XBF schema export journal contains unknown flags"
  .ok (fromLeBytes (slice record 6 8))

def openJournal : Exporting (List Bytes) := do
  let payloads ← ask fun disk => lift disk.journal.payloads
  step fun disk => { disk with journal := disk.journal.created }
  pure payloads

def appendJournal (record : Bytes) : Exporting Unit := do
  ask fun _ => lift (checkRecordSize record)
  step fun disk => { disk with journal := disk.journal.append record }

def closeJournal [ReadDir] : Exporting Unit := do
  step fun disk => { disk with journal := .records [] }
  step fun disk => { disk with journal := .absent }
  removeDirectoryIfExists

def DbfTable.verify [Runtime] (table : DbfTable) : Checked Unit := do
  let parsed ← fromBytes table.bytes
  reject (parsed.header ≠ table.header ∨ parsed.fields ≠ table.fields)
    "serialized DBF metadata differs from the loaded table"
  reject (table.records.length ≠ table.header.recordCount ∨
      table.storedValues.length ≠ table.header.recordCount)
    "loaded record count differs from the DBF header"
  checkAll (fun index => do let _ ← table.recordOffset index; .ok ())
    (List.range table.records.length)

/-- `validate_for_table` of `src/index/validation.rs`: the entries of an index are those of
the rows. -/
class IndexCheck [Indexing] where
  validateForTable : Indexing.File → List FieldDescriptor → List DbfRecord → Except String Unit

section Validation
variable [Runtime] [Filters] [Serde] [Indexing] [IndexCheck]

def validateStagedExport (dbf schema : Bytes) : Res Unit := do
  let table ← lift (fromBytes dbf)
  lift table.verify
  let metadata ← lift (SchemaMetadata.fromBytes schema)
  lift (metadata.validateFields table.fields)
  metadata.validateRecords table.records []

def sourceWithoutMemo (dbf : Bytes) : SourceFingerprint := ⟨fingerprintBytes dbf, none⟩

def snapshotBytesWithoutMemo (sidecar : Option Bytes) (table : DbfTable) (dbf : Bytes) :
    Except String (Option Bytes) :=
  match sidecar with
  | none => .ok none
  | some bytes => do
      let existing ← readSidecar bytes
      let index ← Indexing.rebuild existing table.fields table.records (sourceWithoutMemo dbf)
      if Indexing.source existing = sourceWithoutMemo dbf && Indexing.sameIndexes existing index then
        .ok none
      else do
        let bytes ← Indexing.toVecPretty index
        .ok (some bytes)

def validateSnapshotBytes (path : String) (dbf bytes : Bytes) : Except String Unit := do
  let index ← Indexing.fromSlice bytes
  let table ← match fromBytes dbf with
    | .ok table => .ok table
    | .error error =>
        let error := error.display
        .error s!"indexed DBF error: {error}"
  IndexCheck.validateForTable index table.fields table.records
  if Indexing.source index = sourceWithoutMemo dbf then .ok ()
  else
    let sidecar := ExportTarget.display path .index
    .error s!"index sidecar is stale: {sidecar}"

end Validation

section Export
variable [Runtime] [Filters] [Serde] [Indexing] [IndexCheck] [ReadDir]

def baseOf (flags : Nat) (target : ExportTarget) (disk : ExportDisk) : Res (Option Bytes) :=
  if flags.testBit target.number then do
    let bytes ← readStaged target.basePath disk
    .ok (some bytes)
  else .ok none

def targetNeedsReplacement (path : String) (target : ExportTarget)
    (current desired base : Option Bytes) : Checked Bool :=
  if current = desired then .ok false
  else if current ≠ base then
    let name := target.display path
    invalid s!"XBF schema export target changed during recovery: {name}"
  else .ok true

/-- What an export stages, as its journal is replayed. -/
structure StagedExport where
  dbf : Bytes
  schema : Bytes
  state : Option Bytes
  index : Option Bytes

def StagedExport.desired (staged : StagedExport) : ExportTarget → Option Bytes
  | .dbf => some staged.dbf
  | .schema => some staged.schema
  | .dbt | .upperDbt | .fpt | .upperFpt => none
  | .state => staged.state
  | .index => staged.index

def readStagedExport (path : String) (flags : Nat) (disk : ExportDisk) : Res StagedExport := do
  let dbf ← readStaged ExportTarget.dbf.stagePath disk
  let schema ← readStaged ExportTarget.schema.stagePath disk
  let state := disk.directory.bind (OrderedMap.get? ExportTarget.state.stagePath)
  let index ← if flags.testBit ExportTarget.index.number then do
      let bytes ← readStaged ExportTarget.index.stagePath disk
      .ok (some bytes)
    else .ok none
  validateStagedExport dbf schema
  match index with
  | some bytes => lift (indexed (validateSnapshotBytes path dbf bytes))
  | none => .ok ()
  .ok ⟨dbf, schema, state, index⟩

/-- The first pass over the targets: which of them have to be replaced. -/
def planReplacements (path : String) (flags : Nat) (staged : StagedExport) (disk : ExportDisk) :
    List ExportTarget → Res (List (ExportTarget × Bool))
  | [] => .ok []
  | target :: rest => do
      let needed ← if target = .state ∧ staged.state = none then .ok false
        else do
          let base ← baseOf flags target disk
          lift (targetNeedsReplacement path target (disk.targets target)
            (staged.desired target) base)
      let others ← planReplacements path flags staged disk rest
      .ok ((target, needed) :: others)

/-- The second pass: a target is looked at once more and replaced or removed. -/
def replaceTarget (path : String) (flags : Nat) (staged : StagedExport)
    (entry : ExportTarget × Bool) : Exporting Unit :=
  Durable.when entry.2 do
    let base ← ask (baseOf flags entry.1)
    let needed ← ask fun disk => lift (targetNeedsReplacement path entry.1 (disk.targets entry.1)
      (staged.desired entry.1) base)
    Durable.when needed (step fun disk =>
      { disk with targets := Function.update disk.targets entry.1 (staged.desired entry.1) })

def applyExport (path : String) (flags : Nat) : Exporting Unit := do
  let staged ← ask (readStagedExport path flags)
  let plan ← ask fun disk => planReplacements path flags staged disk targetPaths
  forEach plan (replaceTarget path flags staged)

def recoverSchemaExportLocked (path : String) : Exporting Bool := do
  let journal ← ask fun disk => .ok disk.journal
  match journal with
  | .absent => pure false
  | .unreadable error => ask fun _ => fail (transactionError error)
  | .records [] => do
      closeJournal
      pure false
  | .records [record] => do
      let flags ← ask fun _ => lift (decodeJournalRecord record)
      applyExport path flags
      closeJournal
      pure true
  | .records _ =>
      ask fun _ => fail (.invalid "XBF schema export journal contains multiple records")

/-- The copies of the old files, and a flag for each. -/
def captureBases : List ExportTarget → Nat → Exporting Nat
  | [], flags => pure flags
  | target :: rest, flags => do
      let current ← ask fun disk => .ok (disk.targets target)
      match current with
      | none => captureBases rest flags
      | some bytes => do
          writeFile target.basePath bytes
          captureBases rest (flags ||| 1 <<< target.number)

def exportIndex (table : DbfTable) (disk : ExportDisk) : Checked (Option Bytes) := do
  let rebuilt ← indexed (snapshotBytesWithoutMemo (disk.targets .index) table table.bytes)
  .ok (rebuilt.or (disk.targets .index))

def exportState (disk : ExportDisk) : Checked Bytes := do
  let current ← match disk.targets .state with
    | none => .ok none
    | some bytes => do
        let transactionId ← decodeTransactionState bytes
        .ok (some transactionId)
  let transactionId ← nextTransactionId current
  transactionStateBytes transactionId

/-- The files of an export are staged, and the old ones copied beside them. -/
def stageExport (table : DbfTable) (schemaBytes : Bytes) : Exporting Nat := do
  ask fun _ => validateStagedExport table.bytes schemaBytes
  let indexBytes ← ask fun disk => lift (exportIndex table disk)
  let stateBytes ← ask fun disk => lift (exportState disk)
  removeDirectoryIfExists
  createDirectory
  writeFile ExportTarget.dbf.stagePath table.bytes
  writeFile ExportTarget.schema.stagePath schemaBytes
  writeFile ExportTarget.state.stagePath stateBytes
  Durable.forSome indexBytes (writeFile ExportTarget.index.stagePath)
  captureBases targetPaths 0

def commitSchemaExportLocked (path : String) (table : DbfTable) (schemaBytes : Bytes) :
    Exporting Unit := do
  let flags ← stageExport table schemaBytes
  let _ ← openJournal
  appendJournal (journalRecord flags)
  let _ ← recoverSchemaExportLocked path
  pure ()

end Export

end TxBase.Dbf
