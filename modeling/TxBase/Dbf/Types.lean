import TxBase.Json.Value
import TxBase.Lib.Outcome

/-! The types of `src/dbf/types.rs` and `src/dbf/schema_metadata.rs`: a table holds
its raw image beside the decoded records, and every mutation edits both. -/
namespace TxBase.Dbf
open Lib Json

inductive DbfError where
  | io (message : String)
  | invalid (message : String)
  deriving DecidableEq

def DbfError.display : DbfError → String
  | .io message => "I/O error: " ++ message
  | .invalid message => "invalid DBF: " ++ message

/-- A `Result` of code whose steps may also panic. -/
abbrev Res (α : Type) := Outcome DbfError α

abbrev Checked (α : Type) := Except DbfError α

def invalid {α : Type} (message : String) : Checked α := .error (.invalid message)

def required {α : Type} (value : Option α) (message : String) : Checked α :=
  match value with
  | some value => .ok value
  | none => invalid message

def reject (condition : Prop) [Decidable condition] (message : String) : Checked Unit :=
  if condition then invalid message else .ok ()

@[simp] theorem reject_eq_ok (condition : Prop) [Decidable condition] (message : String)
    (result : Unit) : reject condition message = .ok result ↔ ¬ condition := by
  unfold reject invalid
  split <;> simp [*]

structure DbfHeader where
  version : UInt8
  lastUpdate : Bytes
  recordCount : Nat
  headerLength : Nat
  recordLength : Nat
  languageDriver : UInt8
  deriving DecidableEq

/-- The field types the codec distinguishes, by their upper-case letter. -/
inductive FieldKind where
  | at | b | c | d | f | g | i | l | m | n | o | p | plus | q | t | v | w | y
  | other (letter : UInt8)
  deriving DecidableEq

/-- The letter of a field type, in either case. -/
def FieldKind.ofByte (byte : UInt8) : FieldKind :=
  match (asciiUpper byte).toNat with
  | 0x2b => .plus
  | 0x40 => .at
  | 0x42 => .b
  | 0x43 => .c
  | 0x44 => .d
  | 0x46 => .f
  | 0x47 => .g
  | 0x49 => .i
  | 0x4c => .l
  | 0x4d => .m
  | 0x4e => .n
  | 0x4f => .o
  | 0x50 => .p
  | 0x51 => .q
  | 0x54 => .t
  | 0x56 => .v
  | 0x57 => .w
  | 0x59 => .y
  | _ => .other (asciiUpper byte)

structure FieldDescriptor where
  name : String
  fieldType : UInt8
  length : UInt8
  decimalCount : UInt8
  flags : UInt8
  offset : Nat
  deriving DecidableEq

namespace FieldDescriptor

def kind (field : FieldDescriptor) : FieldKind := .ofByte field.fieldType

def width (field : FieldDescriptor) : Nat := field.length.toNat

def stop (field : FieldDescriptor) : Nat := field.offset + field.width

def isSystem (field : FieldDescriptor) : Bool :=
  field.flags &&& 0x01 ≠ 0 ∨ eqIgnoreAsciiCase field.name "_NULLFLAGS"

def isVariable (field : FieldDescriptor) : Bool := field.kind = .q ∨ field.kind = .v

def isNullable (field : FieldDescriptor) : Bool := field.flags &&& 0x02 ≠ 0

def isBinary (field : FieldDescriptor) : Bool :=
  field.kind = .q ∨ field.kind = .g ∨ field.kind = .p ∨ field.kind = .w ∨
    (field.kind = .b ∧ field.width ≠ 8) ∨ field.flags &&& 0x04 ≠ 0

def isAutoIncrement (field : FieldDescriptor) (version : UInt8) : Bool :=
  field.kind = .plus ∨ (version = 0x31 ∧ field.kind = .i ∧ field.flags &&& 0x0c = 0x0c)

end FieldDescriptor

structure NullFlagBits where
  varlength : Option Nat
  nullable : Option Nat
  deriving DecidableEq

structure DbfRecord where
  number : Nat
  deleted : Bool
  values : Map
  deriving DecidableEq

inductive MemoFormat where
  | dbase3
  | dbase4
  | foxPro
  deriving DecidableEq

namespace MemoFormat

def tag : MemoFormat → UInt8
  | .dbase3 => 0
  | .dbase4 => 1
  | .foxPro => 2

def fromTag (tag : UInt8) : Checked MemoFormat :=
  if tag = 0 then .ok .dbase3
  else if tag = 1 then .ok .dbase4
  else if tag = 2 then .ok .foxPro
  else invalid s!"unknown memo sidecar format tag {tag}"

theorem fromTag_tag (format : MemoFormat) : fromTag format.tag = .ok format := by
  cases format <;> rfl

end MemoFormat

/-- A memo file; `MemoFile::from_bytes` only accepts a positive block size. -/
structure MemoFile where
  bytes : Bytes
  blockSize : Nat
  format : MemoFormat
  blockSize_pos : 0 < blockSize
  deriving DecidableEq

structure MemoSnapshot where
  format : MemoFormat
  bytes : Bytes
  deriving DecidableEq

inductive MemoUpdate where
  | text (text : String)
  | binary (bytes : Bytes)
  deriving DecidableEq

/-- The files a table was loaded from, as they were read. -/
structure PersistedState where
  path : String
  dbf : Bytes
  memo : Option Bytes
  schema : Option Bytes
  transactionId : Option Nat
  deriving DecidableEq

inductive ForeignKeyAction where
  | restrict
  | noAction
  | cascade
  | setNull
  deriving DecidableEq

structure FieldMetadata where
  primary : Bool := false
  unique : Bool := false
  notNull : Bool := false
  default : Option Value := none
  references : Option String := none
  constraintName : Option String := none
  deferrable : Bool := false
  deferred : Bool := false
  onDelete : Option ForeignKeyAction := none
  onUpdate : Option ForeignKeyAction := none
  deriving DecidableEq

structure CompositeForeignKeyMetadata where
  name : Option String
  fields : List String
  referencesTable : String
  referencesFields : List String
  deferrable : Bool
  deferred : Bool
  onDelete : Option ForeignKeyAction
  onUpdate : Option ForeignKeyAction
  deriving DecidableEq

inductive DeferrableConstraintKind where
  | unique
  | primaryKey
  | check
  deriving DecidableEq

structure DeferrableConstraintMetadata where
  name : String
  kind : DeferrableConstraintKind
  fields : List String
  predicate : Option Map
  deferred : Bool
  deriving DecidableEq

structure ConstraintMetadata where
  primary : List String := []
  unique : List (List String) := []
  foreignKeys : List CompositeForeignKeyMetadata := []
  deferrable : List DeferrableConstraintMetadata := []
  deriving DecidableEq

structure SchemaMetadata where
  format : String
  version : Nat
  encoding : Option String := none
  fields : OrderedMap String FieldMetadata := []
  checks : List Map := []
  constraints : ConstraintMetadata := {}
  deriving DecidableEq

/-- The key `(usize, String)` of a pending memo, in the order of a Rust tuple. -/
structure MemoKey where
  index : Nat
  field : String
  deriving DecidableEq

instance : LT MemoKey where
  lt left right := left.index < right.index ∨ (left.index = right.index ∧ left.field < right.field)

instance : DecidableLT MemoKey := fun left right =>
  inferInstanceAs (Decidable (left.index < right.index ∨
    (left.index = right.index ∧ left.field < right.field)))

abbrev MemoUpdates := OrderedMap MemoKey MemoUpdate

structure DbfTable where
  header : DbfHeader
  fields : List FieldDescriptor
  records : List DbfRecord
  storedValues : List Map
  bytes : Bytes
  memo : Option MemoFile
  schema : Option SchemaMetadata
  encodingOverride : Option String
  memoUpdates : MemoUpdates
  transactionId : Option Nat
  source : Option PersistedState
  historicalSnapshot : Bool
  layoutChanged : Bool
  deriving DecidableEq

inductive OperationMethod where
  | get
  | query
  | post
  | put
  | patch
  | delete
  deriving DecidableEq

structure OperationIr where
  method : OperationMethod
  path : String
  body : Option Value
  deriving DecidableEq

structure ChangeState where
  deleted : Bool
  values : Map
  deriving DecidableEq

structure ChangeRecord where
  recordNumber : Nat
  before : Option ChangeState
  after : Option ChangeState
  deriving DecidableEq

structure ChangeEvent where
  transactionId : Nat
  reset : Bool
  changes : List ChangeRecord
  deriving DecidableEq

/-- The JSON text of what the program stores, written and read by `serde_json`. -/
class Serde where
  operationToVec : OperationIr → Except String Bytes
  operationFromSlice : Bytes → Except String OperationIr
  eventToVec : ChangeEvent → Except String Bytes
  eventFromSlice : Bytes → Except String ChangeEvent
  schemaFromSlice : Bytes → Except String SchemaMetadata
  valuesToVec : Map → Except String Bytes
  valuesFromSlice : Bytes → Except String Map

/-- A codec that refuses every document, for runs that never ask it. -/
@[reducible] def Serde.refusing : Serde where
  operationToVec _ := .error "refused"
  operationFromSlice _ := .error "refused"
  eventToVec _ := .error "refused"
  eventFromSlice _ := .error "refused"
  schemaFromSlice _ := .error "refused"
  valuesToVec _ := .error "refused"
  valuesFromSlice _ := .error "refused"

/-- The document at the position that two bytes name. -/
def documentAt {α : Type} (documents : List α) (bytes : Bytes) : Except String α :=
  match documents[fromLeBytes bytes]? with
  | some document => .ok document
  | none => .error "unknown document"

/-- A document of the list as its position. -/
def documentPosition {α : Type} [DecidableEq α] (documents : List α) (document : α) :
    Except String Bytes :=
  match documents.idxOf? document with
  | some position => .ok (toLeBytes 2 position)
  | none => .error "unknown document"

theorem documentAt_of_position {α : Type} [DecidableEq α] {documents : List α}
    (hfew : documents.length ≤ 2 ^ 16) {document : α} {bytes : Bytes}
    (h : documentPosition documents document = .ok bytes) :
    documentAt documents bytes = .ok document := by
  unfold documentPosition at h
  split at h
  · rename_i position hposition
    cases h
    obtain ⟨hlt, hget, -⟩ := List.findIdx?_eq_some_iff_getElem.mp hposition
    rw [documentAt, fromLeBytes_toLeBytes (by omega), List.getElem?_eq_getElem hlt]
    simpa using hget
  · cases h

/-- A codec for the documents that a closed run meets, each written as its position. -/
@[reducible] def Serde.listed (operations : List OperationIr) (events : List ChangeEvent)
    (schemas : List SchemaMetadata) (values : List Map) : Serde where
  operationToVec := documentPosition operations
  operationFromSlice := documentAt operations
  eventToVec := documentPosition events
  eventFromSlice := documentAt events
  schemaFromSlice := documentAt schemas
  valuesToVec := documentPosition values
  valuesFromSlice := documentAt values

end TxBase.Dbf
