import TxBase.Dbf.Record

/-! Changing a table in memory: `src/dbf/mutation.rs`, `src/dbf/mutation_auto.rs`,
`src/dbf/mutation_update.rs` and `recall_record` of `src/dbf/maintenance.rs`.  A call
computes everything before it assigns to the table; it returns the table it leaves
behind beside its result. -/
namespace TxBase.Dbf
open Lib Json
open Outcome (lift panicked orPanic orFail)

/-- What an insert takes from a counter in the header, and what it leaves there. -/
structure AutoIncrement where
  next : Int
  following : Int
  offset : Nat
  signed : Bool
  deriving DecidableEq

structure CounterUpdate where
  offset : Nat
  bytes : Bytes
  deriving DecidableEq

def AutoIncrement.update (auto : AutoIncrement) (name : String) : Checked CounterUpdate :=
  let exhausted := invalid s!"auto-increment field {name} is exhausted"
  if auto.signed then
    if -2 ^ 31 ≤ auto.following ∧ auto.following < 2 ^ 31 then
      .ok ⟨auto.offset, signedToLeBytes 4 auto.following⟩
    else exhausted
  else if 0 ≤ auto.following ∧ auto.following < 2 ^ 32 then
    .ok ⟨auto.offset, toLeBytes 4 auto.following.toNat⟩
  else exhausted

def writeCounters (bytes : Bytes) (updates : List CounterUpdate) : Res Bytes :=
  updates.foldlM (fun bytes update =>
    patchBytes bytes update.offset (update.offset + 4) update.bytes
      "auto-increment descriptor is truncated") bytes

def level7Counter (bytes : Bytes) (headerLength fieldIndex : Nat) :
    Checked (Option AutoIncrement) := do
  let descriptor := level7HeaderSize + fieldIndex * level7DescriptorSize
  reject (u64Size ≤ descriptor) "field descriptor offset overflows"
  reject (u64Size ≤ descriptor + 44) "auto-increment offset overflows"
  reject (headerLength < descriptor + 44) "auto-increment descriptor is outside the header"
  let next ← readU32 bytes (descriptor + 40)
  .ok (some ⟨next, next + 1, descriptor + 40, false⟩)

def foxproCounter (bytes : Bytes) (headerLength fieldIndex : Nat) (field : FieldDescriptor) :
    Res (Option AutoIncrement) := do
  lift (reject (field.width ≠ 4 ∨ field.kind ≠ .i)
    s!"auto-increment field {field.name} must be a four-byte integer")
  let descriptor := classicHeaderSize + fieldIndex * classicDescriptorSize
  lift (reject (u64Size ≤ descriptor) "field descriptor offset overflows")
  lift (reject (u64Size ≤ descriptor + 24) "auto-increment offset overflows")
  lift (reject (headerLength < descriptor + 24) "auto-increment descriptor is outside the header")
  let stored ← lift (readU32 bytes (descriptor + 19))
  let next := signedOfLeBytes (toLeBytes 4 stored)
  let step ← orPanic bytes[descriptor + 23]?
  lift (reject (step = 0) s!"auto-increment field {field.name} has a zero step")
  let following := next + step.toNat
  lift (reject (following < -2 ^ 63 ∨ 2 ^ 63 ≤ following)
    s!"auto-increment field {field.name} is exhausted")
  .ok (some ⟨following, following, descriptor + 19, true⟩)

section Update
variable [Runtime]

def incrementValue (current : Option Value) (increment : Value) (field : String) :
    Checked Value :=
  match current, increment with
  | some (.number current), .number increment =>
      match current.asI64, increment.asI64 with
      | some left, some right =>
          if -2 ^ 63 ≤ left + right ∧ left + right < 2 ^ 63 then .ok (.int (left + right))
          else invalid s!"$inc overflows integer field {field}"
      | _, _ =>
          match Number.fromF64 (Runtime.addF64 current.asF64 increment.asF64) with
          | some sum => .ok (.number sum)
          | none => invalid s!"$inc result for {field} is not finite"
  | some (.number _), _ => invalid s!"$inc value for {field} must be a JSON number"
  | _, _ => invalid s!"$inc requires a numeric value in field {field}"

def incrementFields (values : Map) (fields : List (String × Value)) : Checked Map :=
  fields.foldlM (fun values entry => do
    let value ← incrementValue (values.get? entry.1) entry.2 entry.1
    .ok (values.insert entry.1 value)) values

/-- The fields of one operator, added to those of the operators before it. -/
def claimFields (changedFields : List String) : List String → Checked (List String)
  | [] => .ok changedFields
  | field :: rest =>
      if field ∈ changedFields then invalid s!"field {field} appears in multiple update operators"
      else claimFields (changedFields ++ [field]) rest

def applyOperator (values : Map) (operator : String) (fields : Map) : Checked Map :=
  if operator = "$set" then .ok (values.extend fields)
  else if operator = "$unset" then
    .ok (fields.keys.foldl (fun values field => values.insert field .null) values)
  else incrementFields values fields

def expandOperator (state : Map × List String) (entry : String × Value) :
    Checked (Map × List String) := do
  reject (entry.1 ∉ ["$set", "$unset", "$inc"]) s!"unsupported update operator {entry.1}"
  let fields ← required entry.2.asObject s!"{entry.1} requires an object"
  let changedFields ← claimFields state.2 fields.keys
  let values ← applyOperator state.1 entry.1 fields
  .ok (values, changedFields)

def isOperator (key : String) : Bool := key.toList.head? = some '$'

/-- The values a patch leads to, and the fields it names. -/
def expandUpdate (current update : Map) : Checked (Map × List String) :=
  if ¬ update.keys.any isOperator then .ok (current.extend update, update.keys)
  else if update.keys.any fun key => !isOperator key then
    invalid "update cannot mix operators and fields"
  else update.foldlM expandOperator (current, [])

end Update

namespace DbfTable

def nextAutoIncrement (table : DbfTable) (fieldIndex : Nat) (field : FieldDescriptor) :
    Res (Option AutoIncrement) :=
  if isLevel7 table.header.version then
    lift (level7Counter table.bytes table.header.headerLength fieldIndex)
  else if table.header.version ≠ 0x31 then .ok none
  else foxproCounter table.bytes table.header.headerLength fieldIndex field

def issueValue (table : DbfTable) (fieldIndex : Nat) (field : FieldDescriptor)
    (values : Map) : Res (Map × List CounterUpdate) := do
  let given ← orPanic (values.get? field.name)
  lift (reject (!given.isNull) s!"auto-increment field {field.name} is read-only")
  match ← table.nextAutoIncrement fieldIndex field with
  | none => .ok (values, [])
  | some auto => do
      let update ← lift (auto.update field.name)
      .ok (values.insert field.name (.int auto.next), [update])

/-- The auto-increment fields of an insert, `fieldIndex` counting the descriptors. -/
def issueValues (table : DbfTable) (fieldIndex : Nat) (values : Map) :
    List FieldDescriptor → Res (Map × List CounterUpdate)
  | [] => .ok (values, [])
  | field :: rest =>
      if field.isAutoIncrement table.header.version then do
        let (values, update) ← table.issueValue fieldIndex field values
        let (values, updates) ← issueValues table (fieldIndex + 1) values rest
        .ok (values, update ++ updates)
      else issueValues table (fieldIndex + 1) values rest

/-- A value given for an auto-increment field must be the one it has. -/
def checkReadOnly (changedFields : List String) (values : Map) (field : FieldDescriptor)
    (current : Value) : Res Unit :=
  if field.name ∈ changedFields then do
    let value ← orPanic (values.get? field.name)
    lift (reject (!value.eqv current) s!"auto-increment field {field.name} is read-only")
  else .ok ()

def preserveField (table : DbfTable) (index : Nat) (changedFields : List String) (values : Map)
    (field : FieldDescriptor) : Res Map := do
  let record ← orPanic table.records[index]?
  let current ← orPanic (record.values.get? field.name)
  checkReadOnly changedFields values field current
  .ok (values.insert field.name current)

def preserveAutoIncrementFields (table : DbfTable) (index : Nat) (values : Map)
    (changedFields : List String) : Res Map :=
  (table.fields.filter fun field => field.isAutoIncrement table.header.version).foldlM
    (table.preserveField index changedFields) values

section Calls
variable [Runtime] [Filters]

def validateCandidate (table : DbfTable) (values : Map) (excludedIndex : Option Nat)
    (deferred : List String) : Res Unit :=
  match table.schema with
  | some schema => schema.validateValues values table.records excludedIndex deferred
  | none => .ok ()

structure InsertedRow where
  number : Nat
  bytes : Bytes
  values : Map
  storageValues : Map
  memoUpdates : MemoUpdates

/-- The image after an insert of `encoded`. -/
def insertedBytes (table : DbfTable) (encoded : Bytes) (number : Nat)
    (counters : List CounterUpdate) : Res Bytes := do
  let recordEnd ← lift table.recordEnd
  lift (reject (table.bytes.length < recordEnd) "record area is shorter than parsed data")
  let suffix := table.bytes.drop recordEnd
  lift (reject (suffix ≠ [] ∧ suffix ≠ [eofMarker])
    "cannot mutate a DBF with trailing sidecar data")
  let bytes := table.bytes.take recordEnd ++ encoded ++ [eofMarker]
  let bytes ← writeRecordCount bytes number
  writeCounters bytes counters

def prepareInsert (table : DbfTable) (values : Map) (deferred : List String) :
    Res InsertedRow := do
  let values := match table.schema with
    | some schema => schema.applyDefaults values
    | none => values
  let values ← lift (table.normalizeValues values)
  let (values, counters) ← table.issueValues 0 values table.fields
  table.validateCandidate values none deferred
  lift (reject (u64Size ≤ table.records.length + 1) "record count overflows usize")
  lift (reject (u32Size ≤ table.records.length + 1) "record count exceeds DBF limit")
  let (storageValues, memoUpdates) ← lift (table.insertStorage table.records.length values
    table.sidecarFields (values, []))
  let encoded ← table.encodeRecord storageValues
  let bytes ← table.insertedBytes encoded (table.records.length + 1) counters
  .ok ⟨table.records.length + 1, bytes, values, storageValues, memoUpdates⟩

def insertRecordWithDeferredConstraints (table : DbfTable) (values : Map)
    (deferred : List String) : DbfTable × Res Nat :=
  match table.prepareInsert values deferred with
  | .error stop => (table, .error stop)
  | .ok row =>
      ({ table with
          bytes := row.bytes
          header := { table.header with recordCount := row.number }
          records := table.records ++ [⟨row.number, false, row.values⟩]
          storedValues := table.storedValues ++ [row.storageValues]
          memoUpdates := table.memoUpdates.extend row.memoUpdates }, .ok row.number)

/-- One field of a rewritten record: unchanged, or encoded in its place. -/
def rewriteField (table : DbfTable) (offset : Nat) (old values storageValues : Map)
    (state : Bytes × List String) (field : FieldDescriptor) : Res (Bytes × List String) :=
  if field.isSystem ∨ sameValue (values.get? field.name) (old.get? field.name) then .ok state
  else do
    let encoded ← encodeFieldWithEncoding field (valueOrNull storageValues field.name)
      table.header.languageDriver table.encodingOverride
    lift (reject (u64Size ≤ offset + field.offset) "field offset overflows usize")
    lift (reject (u64Size ≤ offset + field.stop) "field range overflows usize")
    let bytes ← patchBytes state.1 (offset + field.offset) (offset + field.stop) encoded
      "stored field is truncated"
    .ok (bytes, state.2 ++ [field.name])

/-- The image after the record at `index` was rewritten. -/
def rewrittenBytes (table : DbfTable) (index : Nat) (values storageValues : Map) :
    Res Bytes := do
  let offset ← lift (table.recordOffset index)
  let record ← orPanic table.records[index]?
  let (bytes, changedFields) ← table.fields.foldlM
    (table.rewriteField offset record.values values storageValues) (table.bytes, [])
  lift (updateNullFlags bytes offset table.fields values changedFields)

def writeExistingRecord (table : DbfTable) (index : Nat) (values storageValues : Map) :
    DbfTable × Res Unit :=
  match table.rewrittenBytes index values storageValues with
  | .error stop => (table, .error stop)
  | .ok bytes =>
      let written :=
        { table with
          bytes := bytes
          records := table.records.modify index fun record => { record with values := values } }
      if index < table.storedValues.length then
        ({ written with storedValues := table.storedValues.set index storageValues }, .ok ())
      else (written, panicked)

/-- The end of an update: the record is written, then the pending memos are replaced. -/
def writeUpdate (table : DbfTable) (index : Nat) (values : Map)
    (storage : Map × MemoUpdates) : DbfTable × Res Unit :=
  match table.writeExistingRecord index values storage.1 with
  | (written, .error stop) => (written, .error stop)
  | (written, .ok ()) => ({ written with memoUpdates := storage.2 }, .ok ())

/-- An update up to the first assignment: where it writes, and what. -/
structure Update where
  index : Nat
  values : Map
  storage : Map × MemoUpdates

/-- What a replacement and a patch do with the values they lead to; `named` are the
fields whose memos may change, all of them when there is no list. -/
def prepareUpdate (table : DbfTable) (index : Nat) (values : Map) (changedFields : List String)
    (named : Option (List String)) (deferred : List String) : Res Update := do
  let values ← lift (table.normalizeValues values)
  let values ← table.preserveAutoIncrementFields index values changedFields
  table.validateCandidate values (some index) deferred
  let storage ← table.prepareExistingStorage index values named
  .ok ⟨index, values, storage⟩

def prepareReplace (table : DbfTable) (number : Nat) (values : Map) (deferred : List String) :
    Res Update := do
  let index ← lift (table.activeIndex number)
  table.prepareUpdate index values values.keys none deferred

def preparePatch (table : DbfTable) (number : Nat) (patch : Map) (deferred : List String) :
    Res Update := do
  let index ← lift (table.activeIndex number)
  let record ← orPanic table.records[index]?
  let (values, changedFields) ← lift (expandUpdate record.values patch)
  table.prepareUpdate index values changedFields (some changedFields) deferred

def applyUpdate (table : DbfTable) (update : Res Update) : DbfTable × Res Unit :=
  match update with
  | .error stop => (table, .error stop)
  | .ok update => table.writeUpdate update.index update.values update.storage

def replaceRecordWithDeferredConstraints (table : DbfTable) (number : Nat) (values : Map)
    (deferred : List String) : DbfTable × Res Unit :=
  table.applyUpdate (table.prepareReplace number values deferred)

def patchRecordWithDeferredConstraints (table : DbfTable) (number : Nat) (patch : Map)
    (deferred : List String) : DbfTable × Res Unit :=
  table.applyUpdate (table.preparePatch number patch deferred)

def markRecord (table : DbfTable) (index offset : Nat) (deleted : Bool) : DbfTable :=
  { table with
    bytes := table.bytes.set offset (if deleted then deletedRecord else activeRecord)
    records := table.records.modify index fun record => { record with deleted := deleted } }

def prepareDelete (table : DbfTable) (number : Nat) : Res (Nat × Nat) := do
  let index ← lift (table.activeIndex number)
  let offset ← lift (table.recordOffset index)
  lift (reject (table.bytes.length ≤ offset) "record area is truncated")
  .ok (index, offset)

def deleteRecord (table : DbfTable) (number : Nat) : DbfTable × Res Unit :=
  match table.prepareDelete number with
  | .error stop => (table, .error stop)
  | .ok (index, offset) => (table.markRecord index offset true, .ok ())

def prepareRecall (table : DbfTable) (number : Nat) (deferred : List String) :
    Res (Nat × Nat) := do
  lift (reject (number = 0) "record id must be a positive integer")
  let record ← orFail (.invalid "record not found") table.records[number - 1]?
  lift (reject (!record.deleted) "record is not deleted")
  table.validateCandidate record.values (some (number - 1)) deferred
  let offset ← lift (table.recordOffset (number - 1))
  let _ ← orPanic table.bytes[offset]?
  .ok (number - 1, offset)

def recallRecordWithDeferredConstraints (table : DbfTable) (number : Nat)
    (deferred : List String) : DbfTable × Res Unit :=
  match table.prepareRecall number deferred with
  | .error stop => (table, .error stop)
  | .ok (index, offset) => (table.markRecord index offset false, .ok ())

end Calls

end DbfTable

end TxBase.Dbf
