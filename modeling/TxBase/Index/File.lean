import TxBase.Dbf.ExportJournal
import TxBase.Index.Validation

/-! Index files beside a table, `src/index.rs` and `src/index/commit.rs`: what the saves and the
recovery of a table ask of them, and `IndexFile::load`. -/
namespace TxBase.Index
open Lib Json Dbf

def jsonError {α : Type} : Except String α → Indexed α
  | .ok value => .ok value
  | .error message => .error (.json message)

theorem jsonError_eq_ok {α : Type} {result : Except String α} {value : α} :
    jsonError result = .ok value ↔ result = .ok value := by
  cases result <;> simp [jsonError]

/-- The error of an index as the text that the table's code shows. -/
def displayed {α : Type} : Indexed α → Except String α
  | .ok value => .ok value
  | .error error => .error error.display

theorem displayed_eq_ok {α : Type} {result : Indexed α} {value : α} :
    displayed result = .ok value ↔ result = .ok value := by
  cases result <;> simp [displayed]

section Files
variable [Runtime] [Collators] [IndexSerde]

/-- The index with the definitions of an old one, for the rows of a table. -/
def rebuildFile (existing : IndexFile) (fields : List FieldDescriptor) (records : List DbfRecord)
    (source : SourceFingerprint) : Indexed IndexFile := do
  let indexes ← buildIndexes fields records (existing.indexes.map SecondaryIndex.definition)
  .ok ⟨indexFormat, indexVersion, source,
    some (buildStatistics (activeRecords records).length indexes), indexes⟩

/-- The index files of the repository, as the table's code uses them. -/
@[reducible] def indexing : Indexing where
  File := IndexFile
  source := IndexFile.source
  toVecPretty file := displayed (jsonError (IndexSerde.toVecPretty file))
  fromSlice bytes := displayed (jsonError (IndexSerde.fromSlice bytes))
  validateShape file := displayed (validateShape file)
  rebuild existing fields records source := displayed (rebuildFile existing fields records source)
  sameIndexes left right := eqvBy SecondaryIndex.eqv left.indexes right.indexes

@[reducible] def indexCheck : letI := indexing; IndexCheck :=
  letI := indexing
  { validateForTable := fun file fields records => displayed (validateForTable file fields records) }

def readSidecar (sidecar : Option Bytes) : Indexed IndexFile := do
  match sidecar with
  | none => .error (.io "No such file or directory")
  | some bytes => do
      let file ← jsonError (IndexSerde.fromSlice bytes)
      validateShape file
      .ok file

def sourceFingerprint (disk : Disk) : Indexed SourceFingerprint :=
  match disk.dbf with
  | none => .error (.io "No such file or directory")
  | some bytes => .ok ⟨fingerprintBytes bytes, disk.memo.map fun memo => fingerprintBytes memo.bytes⟩

def loadWithTable (sidecarPath : String) (disk : Disk) (table : DbfTable) : Indexed IndexFile := do
  let file ← readSidecar disk.index
  let source ← sourceFingerprint disk
  if file.source ≠ source then .error (.stale sidecarPath)
  validateForTable file table.fields table.records
  .ok file

end Files

end TxBase.Index
