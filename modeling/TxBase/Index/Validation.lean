import TxBase.Index.Statistics
import TxBase.Lib.Searching

/-! Building an index file and checking one, `src/index/validation.rs`. -/
namespace TxBase.Index
open Lib Json Dbf

def refuse (condition : Prop) [Decidable condition] (message : String) : Indexed Unit :=
  if condition then .error (.invalid message) else .ok ()

def activeRecords (records : List DbfRecord) : List DbfRecord :=
  records.filter fun record => !record.deleted

def isUserField (fields : List FieldDescriptor) (name : String) : Bool :=
  fields.any fun field => field.name = name && !field.isSystem

def validateFieldNames (name : String) (table : Option (List FieldDescriptor)) (seen : List String) :
    List String → Indexed Unit
  | [] => .ok ()
  | field :: rest => do
      refuse (trim field).isEmpty s!"index {name} has an empty field"
      refuse (field ∈ seen) s!"index {name} repeats field: {field}"
      refuse (table.elim false fun fields => !isUserField fields field)
        s!"index field is not a user field: {field}"
      validateFieldNames name table (field :: seen) rest

def validateDefinition (definition : IndexDefinition) (table : Option (List FieldDescriptor))
    (names : List String) : Indexed (List String) := do
  let name := definition.name
  refuse (trim name).isEmpty "index name is empty"
  refuse (name ∈ names) s!"duplicate index name: {name}"
  refuse definition.fields.isEmpty s!"index {name} has no fields"
  refuse (definition.directions.length ≠ definition.fields.length)
    s!"index {name} directions do not match field count"
  refuse (definition.directions.any fun direction => direction ≠ -1 && direction ≠ 1)
    s!"index {name} directions must be 1 or -1"
  refuse (definition.fields.length = 1 ∧ definition.directions.head? ≠ some 1)
    "single-field indexes must use ascending order"
  validateFieldNames name table [] definition.fields
  .ok (name :: names)

/-- A key that holds an array or an object. -/
def IndexKey.isDocument : IndexKey → Bool
  | .scalar (.array _) | .scalar (.object _) => true
  | _ => false

def IndexKey.isCompound : IndexKey → Bool
  | .compound _ => true
  | _ => false

def validateKey (key : IndexKey) (fieldCount : Nat) (name : String) : Indexed Unit :=
  if fieldCount = 1 then do
    refuse key.isDocument "only scalar values can be indexed"
    refuse key.isCompound s!"index {name} has a compound key for one field"
  else match key with
    | .compound parts => do
        refuse (parts.length ≠ fieldCount)
          s!"index {name} has a compound key with the wrong field count"
        refuse (parts.any fun part => part.isCompound || part.isDocument)
          "only scalar values can be indexed"
    | _ => .error (.invalid s!"index {name} requires a compound key")

section Shape
variable [Runtime] [Collators]

def IndexDefinition.compare (definition : IndexDefinition) (left right : IndexKey) : Ordering :=
  compareIndexKeys left right definition.directions definition.collation

def validateRecordNumbers (name : String) (previous : Nat) : List Nat → Indexed Unit
  | [] => .ok ()
  | record :: rest => do
      refuse (record = 0 ∨ record ≤ previous)
        s!"index {name} record numbers are not strictly increasing"
      validateRecordNumbers name record rest

def validateEntries (definition : IndexDefinition) (previous : Option IndexKey) :
    List IndexEntry → Indexed Unit
  | [] => .ok ()
  | entry :: rest => do
      let name := definition.name
      refuse entry.records.isEmpty s!"index {name} has an empty record list"
      validateKey entry.key definition.fields.length name
      refuse (previous.elim false fun previous => definition.compare previous entry.key ≠ .lt)
        s!"index {name} entries are not sorted"
      validateRecordNumbers name 0 entry.records
      validateEntries definition (some entry.key) rest

def validateIndexes (names : List String) : List SecondaryIndex → Indexed Unit
  | [] => .ok ()
  | index :: rest => do
      let names ← validateDefinition index.definition none names
      validateEntries index.definition none index.entries
      validateIndexes names rest

def validateShape (file : IndexFile) : Indexed Unit := do
  let format := file.format
  let version := file.version
  refuse (format ≠ indexFormat) s!"unsupported format: {format}"
  refuse (version ≠ indexVersion) s!"unsupported version: {version}"
  refuse file.indexes.isEmpty "index file has no indexes"
  validateIndexes [] file.indexes

end Shape

section Table
variable [Runtime] [Collators]

def recordKey (definition : IndexDefinition) (values : Map) : Indexed IndexKey :=
  IndexKey.fromValues (definition.fields.map fun field => values.get? field) definition.collation

def entriesMismatch : IndexError := .invalid "index entries do not match the current DBF records"

def IndexEntry.holds (entry : IndexEntry) (number : Nat) : Bool :=
  (binarySearchBy (fun record => compare record number) entry.records).isSome

def validateRecord (index : SecondaryIndex) (record : DbfRecord) : Indexed Unit := do
  let key ← recordKey index.definition record.values
  let position := binarySearchBy (fun entry => index.definition.compare entry.key key) index.entries
  match position.bind fun position => index.entries[position]? with
  | none => .error entriesMismatch
  | some entry => if entry.holds record.number then .ok () else .error entriesMismatch

def validateRecords (index : SecondaryIndex) : List DbfRecord → Indexed Unit
  | [] => .ok ()
  | record :: rest => do
      validateRecord index record
      validateRecords index rest

def validateForRecords (fields : List FieldDescriptor) (records : List DbfRecord)
    (names : List String) :
    List SecondaryIndex → Indexed Unit
  | [] => .ok ()
  | index :: rest => do
      let names ← validateDefinition index.definition (some fields) names
      if indexedRecords index.entries ≠ (activeRecords records).length then .error entriesMismatch
      validateRecords index (activeRecords records)
      validateForRecords fields records names rest

def validateForTable (file : IndexFile) (fields : List FieldDescriptor) (records : List DbfRecord) :
    Indexed Unit := do
  validateShape file
  validateForRecords fields records [] file.indexes
  refuse (file.statistics.elim false fun statistics =>
      !statistics.matchesExpected (buildStatistics (activeRecords records).length file.indexes))
    "collection statistics do not match the current DBF records"

end Table

section Build
variable [Runtime] [Collators] [IndexSerde]

def keyToken (key : IndexKey) : Indexed String :=
  match IndexSerde.keyText key with
  | .ok text => .ok text
  | .error message => .error (.json message)

def groupRecord (grouped : OrderedMap String (IndexKey × List Nat)) (token : String) (key : IndexKey)
    (number : Nat) : OrderedMap String (IndexKey × List Nat) :=
  match grouped.get? token with
  | some (first, numbers) => grouped.insert token (first, numbers ++ [number])
  | none => grouped.insert token (key, [number])

def groupRecords (definition : IndexDefinition) (grouped : OrderedMap String (IndexKey × List Nat)) :
    List DbfRecord → Indexed (OrderedMap String (IndexKey × List Nat))
  | [] => .ok grouped
  | record :: rest => do
      let key ← recordKey definition record.values
      let token ← keyToken key
      groupRecords definition (groupRecord grouped token key record.number) rest

/-- Entries with equal keys become one, under the key of the first. -/
def mergeInto (definition : IndexDefinition) (previous : IndexEntry) :
    List IndexEntry → List IndexEntry
  | [] => [previous]
  | entry :: rest =>
      if definition.compare previous.key entry.key = .eq then
        mergeInto definition ⟨previous.key, sortBy compare (previous.records ++ entry.records)⟩ rest
      else previous :: mergeInto definition entry rest

def mergeEntries (definition : IndexDefinition) : List IndexEntry → List IndexEntry
  | [] => []
  | entry :: rest => mergeInto definition entry rest

def buildIndex (definition : IndexDefinition) (records : List DbfRecord) :
    Indexed SecondaryIndex := do
  let grouped ← groupRecords definition [] (activeRecords records)
  let entries := grouped.map fun (_, key, numbers) => IndexEntry.mk key numbers
  let sorted := sortBy (fun left right => definition.compare left.key right.key) entries
  .ok ⟨definition, mergeEntries definition sorted⟩

def buildEach (fields : List FieldDescriptor) (records : List DbfRecord) (names : List String) :
    List IndexDefinition → Indexed (List SecondaryIndex)
  | [] => .ok []
  | definition :: rest => do
      let names ← validateDefinition definition (some fields) names
      let index ← buildIndex definition records
      let others ← buildEach fields records names rest
      .ok (index :: others)

def buildIndexes (fields : List FieldDescriptor) (records : List DbfRecord)
    (definitions : List IndexDefinition) :
    Indexed (List SecondaryIndex) := do
  refuse definitions.isEmpty "at least one index is required"
  buildEach fields records [] definitions

end Build

end TxBase.Index
