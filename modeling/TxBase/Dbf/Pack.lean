import TxBase.Dbf.Mutation

/-! PACK, `src/dbf/maintenance.rs`: the deleted records are dropped from the image
and the memo file is rebuilt from the contents that are still referred to.  With it
the calls that change a table are complete. -/
namespace TxBase.Dbf
open Lib Json
open Outcome (lift orPanic orFail index copyFromSlice)

namespace DbfTable

def recordEndForPack (table : DbfTable) : Checked Nat := do
  let recordEnd ← table.recordEnd
  reject (table.bytes.length < recordEnd) "record area is truncated"
  .ok recordEnd

/-- What is kept of the records from `position` on: their bytes, the records under
their new numbers and their stored values. -/
def keptRecords (table : DbfTable) (position number : Nat) :
    List DbfRecord → Res (Bytes × List DbfRecord × List Map)
  | [] => .ok ([], [], [])
  | record :: rest =>
      if record.deleted then keptRecords table (position + 1) number rest
      else do
        let offset := table.header.headerLength + position * table.header.recordLength
        let bytes ← index table.bytes offset (offset + table.header.recordLength)
        let stored ← orPanic table.storedValues[position]?
        let (others, records, storedValues) ← keptRecords table (position + 1) (number + 1) rest
        .ok (bytes ++ others, { record with number := number } :: records, stored :: storedValues)

/-- An image and a memo file that are being compacted, with the stored values. -/
structure Compaction where
  bytes : Bytes
  storedValues : List Map
  memo : MemoFile

section Compact
variable [Runtime]

/-- The content of one memo, moved to the compacted file. -/
def moveContent (compacted : MemoFile) (field : FieldDescriptor) (data : Bytes) :
    Checked (MemoFile × Nat) :=
  if data.isEmpty then .ok (compacted, 0)
  else if field.isBinary then compacted.appendBinary data
  else compacted.appendText data

/-- One memo field of the record at `recordIndex`. -/
def compactField (table : DbfTable) (source : MemoFile) (recordIndex : Nat)
    (state : Compaction) (field : FieldDescriptor) : Res Compaction := do
  let recordOffset := table.header.headerLength + recordIndex * table.header.recordLength
  lift (reject (u64Size ≤ recordOffset) "record offset overflows usize")
  lift (reject (u64Size ≤ recordOffset + field.offset) "memo pointer offset overflows usize")
  lift (reject (u64Size ≤ recordOffset + field.stop) "memo pointer end overflows usize")
  lift (reject (state.bytes.length < recordOffset + field.stop) "memo pointer area is truncated")
  match ← lift (memoIndex (slice state.bytes (recordOffset + field.offset)
      (recordOffset + field.stop))) with
  | none => .ok state
  | some block =>
      match ← lift (source.read block) with
      | none => .ok state
      | some data => do
          let (memo, newBlock) ← lift (moveContent state.memo field data)
          let encoded ← encodeMemoPointer field newBlock
          let bytes ← patchBytes state.bytes (recordOffset + field.offset)
            (recordOffset + field.stop) encoded "memo pointer area is truncated"
          let stored ← orFail (.invalid "stored record values are truncated")
            state.storedValues[recordIndex]?
          let value := decodeFieldWithEncoding field.fieldType encoded
            table.header.languageDriver (some memo.format) table.encodingOverride
          .ok ⟨bytes, state.storedValues.set recordIndex (stored.insert field.name value), memo⟩

/-- The memo fields of one packed record; none of them is deleted. -/
def compactRecord (table : DbfTable) (source : MemoFile) (recordIndex : Nat)
    (state : Compaction) (record : DbfRecord) : Res Compaction :=
  if record.deleted then .ok state
  else table.sidecarFields.foldlM (table.compactField source recordIndex) state

def compactRecords (table : DbfTable) (source : MemoFile) (recordIndex : Nat)
    (state : Compaction) : List DbfRecord → Res Compaction
  | [] => .ok state
  | record :: rest => do
      let state ← table.compactRecord source recordIndex state record
      compactRecords table source (recordIndex + 1) state rest

/-- An empty memo file with the header of `source`. -/
def emptyMemo (source : MemoFile) : Res MemoFile := do
  lift (reject (source.bytes.length < source.blockSize) "memo header is truncated")
  let compacted ← lift (MemoFile.fromBytes (source.bytes.take source.blockSize) source.format)
  let nextBlock := match source.format with
    | .dbase4 => toLeBytes 4 1
    | .dbase3 | .foxPro => toBeBytes 4 1
  let bytes ← copyFromSlice compacted.bytes 0 4 nextBlock
  .ok { compacted with bytes := bytes }

def compactMemoSidecar (table : DbfTable) (bytes : Bytes) (records : List DbfRecord)
    (storedValues : List Map) : Res (Bytes × List Map × Option MemoFile) :=
  match table.memo with
  | none => .ok (bytes, storedValues, none)
  | some source => do
      let compacted ← emptyMemo source
      let state ← table.compactRecords source 0 ⟨bytes, storedValues, compacted⟩ records
      .ok (state.bytes, state.storedValues, some state.memo)

structure Packed where
  bytes : Bytes
  records : List DbfRecord
  storedValues : List Map
  memo : Option MemoFile

def preparePack (table : DbfTable) : Res Packed := do
  lift (reject (!table.memoUpdates.isEmpty) "memo updates must be saved before PACK")
  let recordEnd ← lift table.recordEndForPack
  let suffix := table.bytes.drop recordEnd
  lift (reject (suffix ≠ [] ∧ suffix ≠ [eofMarker])
    "cannot PACK a DBF with trailing sidecar data")
  let header ← index table.bytes 0 table.header.headerLength
  let (kept, records, storedValues) ← table.keptRecords 0 1 table.records
  lift (reject (u32Size ≤ records.length) "record count exceeds DBF limit")
  let bytes ← writeRecordCount (header ++ kept) records.length
  let (bytes, storedValues, memo) ←
    table.compactMemoSidecar (bytes ++ [eofMarker]) records storedValues
  .ok ⟨bytes, records, storedValues, memo⟩

def pack (table : DbfTable) : DbfTable × Res Unit :=
  match table.preparePack with
  | .error stop => (table, .error stop)
  | .ok packed =>
      ({ table with
          bytes := packed.bytes
          header := { table.header with recordCount := packed.records.length }
          records := packed.records
          storedValues := packed.storedValues
          memo := packed.memo
          layoutChanged := true }, .ok ())

end Compact

end DbfTable

inductive Call where
  | insert (values : Map) (deferred : List String)
  | replace (number : Nat) (values : Map) (deferred : List String)
  | patch (number : Nat) (values : Map) (deferred : List String)
  | delete (number : Nat)
  | recall (number : Nat) (deferred : List String)
  | pack

/-- The table a call leaves behind, and whether it returned `Ok`. -/
def Call.run [Runtime] [Filters] (call : Call) (table : DbfTable) : DbfTable × Res Unit :=
  match call with
  | .insert values deferred =>
      let (table, result) := table.insertRecordWithDeferredConstraints values deferred
      (table, result.map fun _ => ())
  | .replace number values deferred =>
      table.replaceRecordWithDeferredConstraints number values deferred
  | .patch number values deferred => table.patchRecordWithDeferredConstraints number values deferred
  | .delete number => table.deleteRecord number
  | .recall number deferred => table.recallRecordWithDeferredConstraints number deferred
  | .pack => table.pack

end TxBase.Dbf
