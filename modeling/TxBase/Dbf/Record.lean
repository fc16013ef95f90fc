import TxBase.Dbf.Memo
import TxBase.Dbf.Schema

/-! One record of a table: where it is, its null flags, its encoding, and the values
that are stored for the fields that live in a memo file.  From
`src/dbf/codec_fields.rs`, `src/dbf/mutation.rs` and `src/dbf/mutation_memo.rs`. -/
namespace TxBase.Dbf
open Lib Json
open Outcome (lift fail orPanic copyFromSlice)

def setFlag (flags : Bytes) (bit : Nat) (value : Bool) : Checked Bytes :=
  match flags[bit / 8]? with
  | none => invalid "_NullFlags field is too short for its descriptors"
  | some byte =>
      let mask : UInt8 := (1 : UInt8) <<< UInt8.ofNat (bit % 8)
      .ok (flags.set (bit / 8) (if value then byte ||| mask else byte &&& ~~~mask))

def setOptionalFlag (flags : Bytes) (bit : Option Nat) (value : Bool) : Checked Bytes :=
  match bit with
  | some bit => setFlag flags bit value
  | none => .ok flags

/-- The flags of one field: its length is always recorded, and it is null when its
value is. -/
def setFieldFlags (values : Map) (flags : Bytes) (field : FieldDescriptor)
    (bits : Option NullFlagBits) : Checked Bytes :=
  match bits with
  | none => .ok flags
  | some bits => do
      let flags ← setOptionalFlag flags bits.varlength true
      setOptionalFlag flags bits.nullable (valueOrNull values field.name).isNull

/-- The flags of the fields that `selected` keeps, in order. -/
def setFlags (values : Map) (selected : FieldDescriptor → Bool) (flags : Bytes) :
    List (FieldDescriptor × Option NullFlagBits) → Checked Bytes
  | [] => .ok flags
  | (field, bits) :: rest =>
      if field.isSystem ∨ ¬ selected field then setFlags values selected flags rest
      else do
        let flags ← setFieldFlags values flags field bits
        setFlags values selected flags rest

def encodeNullFlags (fields : List FieldDescriptor) (values : Map) : Checked (Option Bytes) :=
  match systemField fields with
  | none =>
      if (nullFlagLayout fields).any Option.isSome then
        invalid "VFP variable/null fields require a _NullFlags system field"
      else .ok none
  | some system => do
      let flags ← setFlags values (fun _ => true) (List.replicate system.width 0)
        (fields.zip (nullFlagLayout fields))
      .ok (some flags)

def updateNullFlags (bytes : Bytes) (recordOffset : Nat) (fields : List FieldDescriptor)
    (values : Map) (changedFields : List String) : Checked Bytes :=
  let layout := nullFlagLayout fields
  let relevantChange := (fields.zip layout).any fun entry =>
    !entry.1.isSystem && decide (entry.1.name ∈ changedFields) && entry.2.isSome
  if !relevantChange then .ok bytes
  else
    match systemField fields with
    | none => invalid "VFP variable/null fields require a _NullFlags system field"
    | some system => do
        let start ← required (checkedAdd recordOffset system.offset u64Size)
          "_NullFlags offset overflows usize"
        let stop ← required (checkedAdd start system.width u64Size)
          "_NullFlags range overflows usize"
        reject (bytes.length < stop) "stored _NullFlags field is truncated"
        let flags ← setFlags values (fun field => decide (field.name ∈ changedFields))
          (slice bytes start stop) (fields.zip layout)
        .ok (bytes.take start ++ flags ++ bytes.drop stop)

def sameValue : Option Value → Option Value → Bool
  | some left, some right => left.eqv right
  | none, none => true
  | _, _ => false

def patchBytes (bytes : Bytes) (start stop : Nat) (source : Bytes) (message : String) :
    Res Bytes :=
  if start ≤ stop ∧ stop ≤ bytes.length then copyFromSlice bytes start stop source
  else fail (.invalid message)

def writeRecordCount (bytes : Bytes) (count : Nat) : Res Bytes :=
  patchBytes bytes 4 8 (toLeBytes 4 count) "header is truncated"

namespace DbfTable

def hasSidecarFields (table : DbfTable) : Bool := table.fields.any isSidecarField

def sidecarFields (table : DbfTable) : List FieldDescriptor := table.fields.filter isSidecarField

def recordEnd (table : DbfTable) : Checked Nat :=
  if u64Size ≤ table.header.headerLength + table.records.length * table.header.recordLength then
    invalid "record area overflows usize"
  else .ok (table.header.headerLength + table.records.length * table.header.recordLength)

def recordOffset (table : DbfTable) (index : Nat) : Checked Nat :=
  let offset := index * table.header.recordLength + table.header.headerLength
  if u64Size ≤ offset + table.header.recordLength then invalid "record offset overflows usize"
  else if table.bytes.length < offset + table.header.recordLength then
    invalid "record area is truncated"
  else .ok offset

def activeIndex (table : DbfTable) (number : Nat) : Checked Nat :=
  if number = 0 then invalid "record id must be a positive integer"
  else
    match table.records[number - 1]? with
    | some record => if record.deleted then invalid "record not found" else .ok (number - 1)
    | none => invalid "record not found"

def normalizeValues (table : DbfTable) (values : Map) : Checked Map :=
  match values.keys.find? fun key =>
      !table.fields.any fun field => !field.isSystem && decide (field.name = key) with
  | some key => invalid s!"unknown field {key}"
  | none =>
      .ok (OrderedMap.ofList ((table.fields.filter fun field => !field.isSystem).map fun field =>
        (field.name, valueOrNull values field.name)))

section Encode
variable [Runtime]

/-- The bytes of one field of a new record; a system field holds the null flags. -/
def encodeRecordField (table : DbfTable) (storageValues : Map) (nullFlags : Option Bytes)
    (field : FieldDescriptor) : Res Bytes :=
  if field.isSystem then
    match nullFlags with
    | none => fail (.invalid "system field requires _NullFlags bytes")
    | some flags =>
        if flags.length ≠ field.width then fail (.invalid "_NullFlags field length is inconsistent")
        else .ok flags
  else
    encodeFieldWithEncoding field (valueOrNull storageValues field.name)
      table.header.languageDriver table.encodingOverride

def encodeFields (table : DbfTable) (storageValues : Map) (nullFlags : Option Bytes) :
    List FieldDescriptor → Res Bytes
  | [] => .ok []
  | field :: rest => do
      let encoded ← table.encodeRecordField storageValues nullFlags field
      let others ← encodeFields table storageValues nullFlags rest
      .ok (encoded ++ others)

def encodeRecord (table : DbfTable) (storageValues : Map) : Res Bytes := do
  let nullFlags ← lift (encodeNullFlags table.fields storageValues)
  let encoded ← table.encodeFields storageValues nullFlags table.fields
  let record := activeRecord :: encoded
  if record.length ≠ table.header.recordLength then
    fail (.invalid "encoded record length is incorrect")
  else .ok record

/-- What an insert stores for the memo fields, and the contents it leaves pending. -/
def insertStorage (table : DbfTable) (index : Nat) (values : Map) :
    List FieldDescriptor → Map × MemoUpdates → Checked (Map × MemoUpdates)
  | [], storage => .ok storage
  | field :: rest, (storageValues, updates) =>
      match table.memo with
      | some memo => do
          let update ← sidecarUpdate (valueOrNull values field.name) field memo.format
          insertStorage table index values rest
            (storageValues.insert field.name (emptyMemoValue field),
             match update with
             | some update => updates.insert ⟨index, field.name⟩ update
             | none => updates)
      | none => do
          let stored ← storageValueWithoutSidecar (valueOrNull values field.name) field
          insertStorage table index values rest (storageValues.insert field.name stored, updates)

/-- Whether an update leaves a memo field alone: it is not named, or keeps its value. -/
def keepsField (table : DbfTable) (index : Nat) (values : Map)
    (changedFields : Option (List String)) (field : FieldDescriptor) : Res Bool :=
  if changedFields.any fun fields => decide (field.name ∉ fields) then .ok true
  else do
    let record ← orPanic table.records[index]?
    .ok (sameValue (values.get? field.name) (record.values.get? field.name))

/-- The stored value of a memo field that an update leaves alone. -/
def keptStorage (table : DbfTable) (index : Nat) (storage : Map × MemoUpdates)
    (field : FieldDescriptor) : Res (Map × MemoUpdates) :=
  match table.memo with
  | none => .ok storage
  | some _ => do
      let stored ← orPanic table.storedValues[index]?
      let value ← orPanic (stored.get? field.name)
      .ok (storage.1.insert field.name value, storage.2)

/-- The stored value of a memo field that an update changes, and its pending content. -/
def changedStorage (table : DbfTable) (index : Nat) (values : Map)
    (storage : Map × MemoUpdates) (field : FieldDescriptor) : Res (Map × MemoUpdates) := do
  let value ← orPanic (values.get? field.name)
  match table.memo with
  | none => do
      let stored ← lift (storageValueWithoutSidecar value field)
      .ok (storage.1.insert field.name stored, storage.2)
  | some memo => do
      let update ← lift (sidecarUpdate value field memo.format)
      .ok (storage.1.insert field.name (emptyMemoValue field),
        match update with
        | some update => storage.2.insert ⟨index, field.name⟩ update
        | none => storage.2.erase ⟨index, field.name⟩)

/-- One memo field of `prepare_existing_storage`. -/
def existingStorageField (table : DbfTable) (index : Nat) (values : Map)
    (changedFields : Option (List String)) (storage : Map × MemoUpdates)
    (field : FieldDescriptor) : Res (Map × MemoUpdates) := do
  let kept ← table.keepsField index values changedFields field
  if kept then table.keptStorage index storage field
  else table.changedStorage index values storage field

def prepareExistingStorage (table : DbfTable) (index : Nat) (values : Map)
    (changedFields : Option (List String)) : Res (Map × MemoUpdates) :=
  table.sidecarFields.foldlM (table.existingStorageField index values changedFields)
    (values, table.memoUpdates)

end Encode

end DbfTable

end TxBase.Dbf
