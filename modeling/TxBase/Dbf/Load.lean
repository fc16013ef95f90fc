import TxBase.Dbf.Disk
import TxBase.Dbf.Pack

/-! Loading a table from its files: the memos of `src/dbf/parser.rs`, the load of
`src/dbf/recovery.rs`, and what a save makes of the pending memos,
`apply_memo_updates` of `src/dbf/mutation_memo.rs`. -/
namespace TxBase.Dbf
open Lib Json
open Outcome (lift index orPanic orFail)

namespace DbfTable

section Memos
variable [Runtime]

def memoContent (table : DbfTable) (memo : MemoFile) (recordOffset : Nat)
    (field : FieldDescriptor) : Res (Option Bytes) := do
  let pointer ← index table.bytes (recordOffset + field.offset) (recordOffset + field.stop)
  match ← lift (memoIndex pointer) with
  | none => .ok none
  | some block => lift (memo.read block)

def memoText (table : DbfTable) (field : FieldDescriptor) (data : Bytes) : Value :=
  if field.isBinary then .string (hex data)
  else .string (textWithEncoding data table.header.languageDriver table.encodingOverride)

/-- One memo field of a record: null stays null, an empty pointer keeps its value. -/
def resolveField (table : DbfTable) (memo : MemoFile) (recordOffset : Nat) (values : Map)
    (field : FieldDescriptor) : Res Map :=
  if (values.get? field.name).any Value.isNull then .ok values
  else do
    match ← table.memoContent memo recordOffset field with
    | none => .ok values
    | some data => .ok (values.insert field.name (table.memoText field data))

def resolveRecord (table : DbfTable) (memo : MemoFile) (recordIndex : Nat) (record : DbfRecord) :
    Res DbfRecord :=
  if record.deleted then .ok record
  else do
    let offset ← lift (table.recordOffset recordIndex)
    let values ← table.sidecarFields.foldlM (table.resolveField memo offset) record.values
    .ok { record with values := values }

def resolveRecordsFrom (table : DbfTable) (memo : MemoFile) (recordIndex : Nat) :
    List DbfRecord → Res (List DbfRecord)
  | [] => .ok []
  | record :: rest => do
      let resolved ← table.resolveRecord memo recordIndex record
      let others ← resolveRecordsFrom table memo (recordIndex + 1) rest
      .ok (resolved :: others)

def resolveMemos (table : DbfTable) (memo : MemoFile) : Res DbfTable := do
  let records ← table.resolveRecordsFrom memo 0 table.records
  .ok { table with records := records }

def withMemo (table : DbfTable) : Option MemoFile → Res DbfTable
  | none => .ok table
  | some memo => do
      let resolved ← table.resolveMemos memo
      .ok { resolved with memo := some memo }

end Memos

section Load
variable [Runtime] [Filters] [Serde]

def validateSchemaConstraints (table : DbfTable) (deferred : List String) : Res Unit :=
  match table.schema with
  | some schema => schema.validateRecords table.records deferred
  | none => .ok ()

/-- The memo file is opened for a table with memo fields only. -/
def memoFor (table : DbfTable) (openMemo : UInt8 → Res (Option MemoFile)) :
    Res (Option MemoFile) :=
  if table.hasSidecarFields then openMemo table.header.version else .ok none

/-- What loading a path and reading a snapshot have in common: the image, the fields of
the sidecar, the memos of a table that has memo fields, and the records. -/
def assemble (dbf : Bytes) (encodingOverride : Option String) (schema : Option SchemaMetadata)
    (openMemo : UInt8 → Res (Option MemoFile)) : Res DbfTable := do
  let table ← lift (fromBytesWithEncoding dbf encodingOverride)
  lift (checkSome (fun metadata => metadata.validateFields table.fields) schema)
  let memo ← table.memoFor openMemo
  let table ← DbfTable.withMemo { table with schema := schema } memo
  table.validateSchemaConstraints []
  .ok table

/-- `MemoFile::open` on the memo file that is found, if any. -/
def openSidecar (sidecar : Option MemoSidecar) (version : UInt8) : Res (Option MemoFile) :=
  match sidecar with
  | none => .ok none
  | some sidecar => do
      let memo ← lift (MemoFile.fromBytes sidecar.bytes (sidecar.format version))
      .ok (some memo)

def loadPathWithEncoding (path : String) (requested : Option String) (disk : Disk) :
    Res DbfTable := do
  let dbf ← lift (readFile disk.dbf)
  let transactionId ← lift disk.readTransactionState
  let schema ← lift disk.readSchemaMetadata
  let encoding := requested.or (schema.bind fun entry => entry.1.encoding)
  let table ← assemble dbf encoding (schema.map Prod.fst) (openSidecar disk.memo)
  .ok
    { table with
      source := some ⟨path, dbf, disk.memo.map MemoSidecar.bytes, disk.schema, transactionId⟩
      transactionId := transactionId }

/-- A table that was not loaded from a path takes the sidecar it finds there. -/
def bindSchemaIfPresent (table : DbfTable) (disk : Disk) : Res DbfTable :=
  if table.source.isSome ∨ table.schema.isSome then .ok table
  else do
    match ← lift disk.readSchemaMetadata with
    | none => .ok table
    | some (metadata, _) => do
        lift (metadata.validateFields table.fields)
        let memo ← table.memoFor (openSidecar disk.memo)
        let table ← table.withMemo memo
        metadata.validateRecords table.records []
        .ok { table with schema := some metadata, encodingOverride := metadata.encoding }

def ensureSourceCurrent (table : DbfTable) (path : String) (disk : Disk) : Checked Unit := do
  reject table.historicalSnapshot "historical MVCC snapshots are read-only"
  match table.source with
  | none => .ok ()
  | some source =>
      if source.path ≠ path then .ok ()
      else do
        let dbf ← readFile disk.dbf
        reject (dbf ≠ source.dbf) "DBF changed since the table was loaded"
        reject (disk.memo.map MemoSidecar.bytes ≠ source.memo)
          "memo sidecar changed since the table was loaded"
        reject (disk.schema ≠ source.schema)
          "schema metadata changed since the table was loaded"
        let transactionId ← disk.readTransactionState
        reject (transactionId ≠ source.transactionId)
          "transaction state changed since the table was loaded"

end Load

section MemoUpdates
variable [Runtime]

/-- A pending content goes to the end of the memo file; an empty one needs no block. -/
def appendUpdate (table : DbfTable) (memo : MemoFile) (field : FieldDescriptor) :
    MemoUpdate → Res (MemoFile × Nat)
  | .text text =>
      if text.isEmpty then .ok (memo, 0)
      else do
        let bytes ← encodeCharacterWithEncoding (.string text) field table.header.languageDriver
          table.encodingOverride
        lift (memo.appendText bytes)
  | .binary bytes =>
      if bytes.isEmpty then .ok (memo, 0) else lift (memo.appendBinary bytes)

def applyMemoUpdate (table : DbfTable) (state : Compaction) (entry : MemoKey × MemoUpdate) :
    Res Compaction := do
  let record ← orFail (.invalid "memo update record is out of range")
    table.records[entry.1.index]?
  if record.deleted then .ok state
  else do
    let field ← orFail (.invalid s!"sidecar field {entry.1.field} not found")
      (table.fields.find? fun field => field.name = entry.1.field && isSidecarField field)
    let (memo, block) ← table.appendUpdate state.memo field entry.2
    let pointer ← encodeMemoPointer field block
    let recordOffset ← lift (table.recordOffset entry.1.index)
    lift (reject (u64Size ≤ recordOffset + field.offset) "memo pointer offset overflows usize")
    lift (reject (u64Size ≤ recordOffset + field.stop) "memo pointer end overflows usize")
    let bytes ← patchBytes state.bytes (recordOffset + field.offset) (recordOffset + field.stop)
      pointer "memo pointer area is truncated"
    let stored ← orPanic state.storedValues[entry.1.index]?
    let value := decodeFieldWithEncoding field.fieldType pointer table.header.languageDriver
      (some memo.format) table.encodingOverride
    .ok ⟨bytes, state.storedValues.set entry.1.index (stored.insert field.name value), memo⟩

/-- The table without pending memos, and the memo file a save has to write. -/
def applyMemoUpdates (table : DbfTable) (sidecar : Option MemoSidecar) :
    Res (DbfTable × Option MemoSnapshot) :=
  if table.memoUpdates.isEmpty then
    .ok (table, if table.layoutChanged then table.memo.map fun memo => ⟨memo.format, memo.bytes⟩
      else none)
  else do
    lift (reject sidecar.isNone "memo sidecar is missing for pending memo updates")
    let memo ← orFail (.invalid "memo sidecar is not loaded") table.memo
    let state ← table.memoUpdates.foldlM table.applyMemoUpdate
      ⟨table.bytes, table.storedValues, memo⟩
    .ok ({ table with
            bytes := state.bytes
            storedValues := state.storedValues
            memo := some state.memo
            memoUpdates := [] }, some ⟨state.memo.format, state.memo.bytes⟩)

end MemoUpdates

end DbfTable

end TxBase.Dbf
