import TxBase.Dbf.CodePages
import TxBase.Dbf.Schema

/-! Accepting a schema sidecar: the document itself (`from_bytes` of
`src/dbf/schema_metadata.rs`) and its fit to the fields of a table (`validate_fields`
of `src/dbf/schema_metadata/constraints.rs`). -/
namespace TxBase.Dbf
open Lib Json

structure ForeignKey where
  name : String
  localFields : List String
  parentTable : String
  parentFields : List String
  onDelete : ForeignKeyAction
  onUpdate : ForeignKeyAction
  deferrable : Bool
  deferred : Bool
  deriving DecidableEq

def isNamedField (fields : List FieldDescriptor) (name : String) : Bool :=
  fields.any fun field => !field.isSystem && field.name = name

def validateConstraintName (name path : String) : Checked Unit :=
  reject ((trim name).isEmpty ∨ (utf8 name).length > 128)
    s!"{path} name must contain 1 to 128 non-whitespace bytes"

/-- A loop that refuses a name it has seen, and then what `check` refuses. -/
def checkDistinct (path : String) (check : String → Checked Unit) :
    List String → List String → Checked Unit
  | _, [] => .ok ()
  | seen, name :: rest => do
      reject (name ∈ seen) s!"{path} contains duplicate field {name}"
      check name
      checkDistinct path check (name :: seen) rest

def validateKeyFields (key : List String) (fields : List FieldDescriptor) (path : String)
    (minimum : Nat) : Checked Unit := do
  reject (key.length < minimum) s!"{path} must contain at least {minimum} fields"
  checkDistinct path (fun name => reject (!isNamedField fields name)
    s!"schema metadata refers to unknown field {name}") [] key

/-- The names of the other table; an empty name is refused before a repeated one. -/
def validateNameList (names : List String) (path : String) (minimum : Nat) : Checked Unit := do
  reject (names.length < minimum) s!"{path} must contain at least {minimum} fields"
  checkAll (fun entry => do
    reject entry.1.isEmpty s!"{path} contains an empty field name"
    reject (entry.1 ∈ names.take entry.2) s!"{path} contains duplicate field {entry.1}")
    names.zipIdx

def validateSetNullFields (action : ForeignKeyAction) (localFields : List String) (path : String)
    (fields : List FieldDescriptor) : Checked Unit :=
  reject (action = .setNull ∧ localFields.any fun name => !isNamedField fields name)
    s!"{path} set_null references an unknown child field"

def checkSome {α : Type} (check : α → Checked Unit) : Option α → Checked Unit
  | some value => check value
  | none => .ok ()

def validateCompositeForeignKey (key : CompositeForeignKeyMetadata)
    (fields : List FieldDescriptor) (path : String) : Checked Unit := do
  validateKeyFields key.fields fields s!"{path}.fields" 2
  validateNameList key.referencesFields s!"{path}.references.fields" 2
  reject key.referencesTable.isEmpty s!"{path}.references.table must not be empty"
  reject (key.fields.length ≠ key.referencesFields.length)
    s!"{path}.fields and {path}.references.fields must have the same length"
  checkSome (fun action => validateSetNullFields action key.fields path fields) key.onDelete
  checkSome (fun action => validateSetNullFields action key.fields path fields) key.onUpdate

def splitAt (separator : Char) : List Char → List (List Char)
  | [] => [[]]
  | c :: rest =>
      if c = separator then [] :: splitAt separator rest
      else
        match splitAt separator rest with
        | part :: parts => (c :: part) :: parts
        | [] => [[c]]

def splitReference (reference : String) : Option (String × String) :=
  match splitAt '.' reference.toList with
  | [table, field] =>
      if table.isEmpty ∨ field.isEmpty then none
      else some (String.ofList table, String.ofList field)
  | _ => none

namespace SchemaMetadata

def fieldForeignKey (generated : Nat) (localField : String) (metadata : FieldMetadata)
    (reference : String) : Checked ForeignKey := do
  let (table, field) ← required (splitReference reference)
    s!"schema reference for field {localField} must be TABLE.FIELD"
  .ok
    { name := metadata.constraintName.getD s!"fk_{generated}"
      localFields := [localField]
      parentTable := table
      parentFields := [field]
      onDelete := metadata.onDelete.getD .restrict
      onUpdate := metadata.onUpdate.getD .restrict
      deferrable := metadata.deferrable || metadata.deferred
      deferred := metadata.deferred }

/-- The foreign keys of single fields; `generated` counts the keys so far. -/
def fieldForeignKeys (generated : Nat) : List (String × FieldMetadata) → Checked (List ForeignKey)
  | [] => .ok []
  | (localField, metadata) :: rest =>
      match metadata.references with
      | none => fieldForeignKeys generated rest
      | some reference => do
          let key ← fieldForeignKey generated localField metadata reference
          let keys ← fieldForeignKeys (generated + 1) rest
          .ok (key :: keys)

def compositeForeignKeys (generated : Nat) :
    List CompositeForeignKeyMetadata → Checked (List ForeignKey)
  | [] => .ok []
  | key :: rest => do
      reject key.referencesTable.isEmpty "composite foreign-key reference table must not be empty"
      reject key.referencesFields.isEmpty
        "composite foreign-key reference fields must not be empty"
      let keys ← compositeForeignKeys (generated + 1) rest
      .ok ({ name := key.name.getD s!"fk_{generated}"
             localFields := key.fields
             parentTable := key.referencesTable
             parentFields := key.referencesFields
             onDelete := key.onDelete.getD .restrict
             onUpdate := key.onUpdate.getD .restrict
             deferrable := key.deferrable || key.deferred
             deferred := key.deferred } :: keys)

def foreignKeys (schema : SchemaMetadata) : Checked (List ForeignKey) := do
  let single ← fieldForeignKeys 0 schema.fields
  let composite ← compositeForeignKeys single.length schema.constraints.foreignKeys
  .ok (single ++ composite)

def validateActionFields (schema : SchemaMetadata) (action : ForeignKeyAction)
    (localFields : List String) (fields : List FieldDescriptor) (path : String) :
    Checked Unit := do
  validateSetNullFields action localFields path fields
  reject (action = .setNull ∧ localFields.any fun field =>
      ((schema.fields.get? field).any fun metadata => metadata.notNull || metadata.primary) ||
        schema.constraints.primary.contains field)
    s!"{path} set_null requires nullable child fields"

/-- One field of the sidecar; `fieldPrimary` says whether an earlier one is primary. -/
def validateFieldMetadata (schema : SchemaMetadata) (fields : List FieldDescriptor)
    (fieldPrimary : Bool) (entry : String × FieldMetadata) : Checked Bool := do
  reject (!isNamedField fields entry.1) s!"schema metadata refers to unknown field {entry.1}"
  reject (entry.2.default.any Value.isCompound)
    s!"schema default for field {entry.1} must be a scalar"
  reject (entry.2.primary && fieldPrimary)
    "composite primary keys are not supported by this schema version"
  reject (entry.2.references.isNone && (entry.2.constraintName.isSome || entry.2.deferrable ||
      entry.2.deferred || entry.2.onDelete.isSome || entry.2.onUpdate.isSome))
    s!"schema field {entry.1} foreign-key options require references"
  checkSome (fun action => schema.validateActionFields action [entry.1] fields
    s!"fields.{entry.1}.on_delete") entry.2.onDelete
  checkSome (fun action => schema.validateActionFields action [entry.1] fields
    s!"fields.{entry.1}.on_update") entry.2.onUpdate
  .ok (fieldPrimary || entry.2.primary)

def validateForeignKeyMetadata (schema : SchemaMetadata) (fields : List FieldDescriptor)
    (entry : CompositeForeignKeyMetadata × Nat) : Checked Unit := do
  let path := s!"constraints.foreign_keys[{entry.2}]"
  validateCompositeForeignKey entry.1 fields path
  checkSome (fun action => schema.validateActionFields action entry.1.fields fields
    s!"{path}.on_delete") entry.1.onDelete
  checkSome (fun action => schema.validateActionFields action entry.1.fields fields
    s!"{path}.on_update") entry.1.onUpdate

def claimName (names : List String) (name : String) : Checked (List String) := do
  reject (name ∈ names) s!"duplicate schema constraint name: {name}"
  .ok (name :: names)

section Filters
variable [Filters]

/-- The fields or the predicate of a named constraint; how many primary keys it adds. -/
def validateDeferrableKind (constraint : DeferrableConstraintMetadata)
    (fields : List FieldDescriptor) (path : String) : Checked Nat :=
  match constraint.kind with
  | .unique | .primaryKey => do
      validateKeyFields constraint.fields fields s!"{path}.fields" 1
      reject constraint.predicate.isSome s!"{path}.predicate is only valid for check constraints"
      .ok (if constraint.kind = .primaryKey then 1 else 0)
  | .check => do
      reject (!constraint.fields.isEmpty) s!"{path}.fields is only valid for key constraints"
      let predicate ← required constraint.predicate s!"{path}.predicate is required"
      match Filters.validateFilter predicate s!"{path}.predicate" with
      | .ok () => .ok 0
      | .error error => invalid s!"invalid {path}.predicate: {error}"

def validateDeferrableMetadata (fields : List FieldDescriptor) (state : List String × Nat)
    (entry : DeferrableConstraintMetadata × Nat) : Checked (List String × Nat) := do
  let path := s!"constraints.deferrable[{entry.2}]"
  validateConstraintName entry.1.name path
  let names ← claimName state.1 entry.1.name
  let keys ← validateDeferrableKind entry.1 fields path
  .ok (names, state.2 + keys)

def validateFields (schema : SchemaMetadata) (fields : List FieldDescriptor) : Checked Unit := do
  let fieldPrimary ← schema.fields.foldlM (schema.validateFieldMetadata fields) false
  let foreignKeys ← schema.foreignKeys
  checkAll (schema.validateForeignKeyMetadata fields) schema.constraints.foreignKeys.zipIdx
  checkAll (fun primary => do
    reject fieldPrimary "schema primary constraints cannot mix field and composite definitions"
    validateKeyFields primary fields "constraints.primary" 2)
    (if schema.constraints.primary.isEmpty then [] else [schema.constraints.primary])
  checkAll (fun entry => validateKeyFields entry.1 fields s!"constraints.unique[{entry.2}]" 2)
    schema.constraints.unique.zipIdx
  let primaryKeys := if fieldPrimary || !schema.constraints.primary.isEmpty then 1 else 0
  let (names, primaryKeys) ← schema.constraints.deferrable.zipIdx.foldlM
    (validateDeferrableMetadata fields) ([], primaryKeys)
  reject (primaryKeys > 1) "schema metadata may declare only one primary key"
  let _ ← foreignKeys.foldlM (fun names key => do
    validateConstraintName key.name "foreign-key constraint"
    claimName names key.name) names
  .ok ()

/-- The document: its format and version, its encoding under the canonical name, and
filters that can be evaluated. -/
def canonicalEncoding (encoding : Option String) : Checked (Option String) :=
  match encoding with
  | none => .ok none
  | some encoding => do
      let canonical ← required (canonicalEncodingName encoding)
        s!"unsupported schema encoding override: {encoding}"
      .ok (some canonical)

def fromBytes [Serde] (bytes : Bytes) : Checked SchemaMetadata :=
  match Serde.schemaFromSlice bytes with
  | .error error => invalid s!"invalid schema metadata JSON: {error}"
  | .ok metadata => do
      reject (metadata.format ≠ "txbase-schema")
        s!"unsupported schema metadata format: {metadata.format}"
      reject (metadata.version < 1 ∨ 2 < metadata.version)
        s!"unsupported schema metadata version: {metadata.version}"
      reject (metadata.version < 2 ∧ (!metadata.constraints.deferrable.isEmpty ||
          (metadata.fields.any fun entry => entry.2.constraintName.isSome || entry.2.deferrable) ||
          metadata.constraints.foreignKeys.any fun key => key.name.isSome || key.deferrable))
        "named deferrable constraints require schema metadata version 2"
      let encoding ← canonicalEncoding metadata.encoding
      checkAll (fun entry =>
        match Filters.validateFilter entry.1 s!"schema.checks[{entry.2}]" with
        | .ok () => .ok ()
        | .error error => invalid s!"invalid schema check {entry.2}: {error}")
        metadata.checks.zipIdx
      .ok { metadata with encoding := encoding }

end Filters

end SchemaMetadata

end TxBase.Dbf
