import TxBase.Dbf.Types

/-! The constraints of a schema sidecar, `src/dbf/schema_metadata.rs` and
`src/dbf/schema_metadata/constraints.rs`: what makes a sidecar acceptable for a
table, and what makes a record acceptable for a sidecar. -/
namespace TxBase.Dbf
open Lib Json

/-- The filter language of the query engine, in which checks are written. -/
class Filters where
  matchesFilter : Map → Map → Except String Bool
  validateFilter : Map → String → Except String Unit

/-- A filter language without filters, for runs that check none. -/
@[reducible] def Filters.bare : Filters where
  matchesFilter _ _ := .error "refused"
  validateFilter _ _ := .error "refused"

def valueOrNull (values : Map) (name : String) : Value := (values.get? name).getD .null

section Values
variable [Runtime]

def valuesEqual (left right : Value) : Bool :=
  match compareScalarValues left right with
  | some ordering => ordering = .eq
  | none => left.eqv right

/-- The records a candidate is compared with: active, and not the one it replaces. -/
def otherRecords (records : List DbfRecord) (excludedIndex : Option Nat) : List DbfRecord :=
  (records.zipIdx.filter fun entry =>
    !entry.1.deleted && excludedIndex ≠ some entry.2).map Prod.fst

def validateCompositeUnique (fields : List String) (values : Map) (records : List DbfRecord)
    (excludedIndex : Option Nat) : Checked Unit :=
  if fields.any fun field => (valueOrNull values field).isNull then .ok ()
  else if (otherRecords records excludedIndex).any fun record =>
      fields.all fun field =>
        !(valueOrNull record.values field).isNull &&
          valuesEqual (valueOrNull values field) (valueOrNull record.values field) then
    invalid ("constraint violation: duplicate composite value for fields " ++
      ", ".intercalate fields)
  else .ok ()

def validateNamedUnique (name : String) (fields : List String) (values : Map)
    (records : List DbfRecord) (excludedIndex : Option Nat) : Checked Unit :=
  if fields.any fun field => (valueOrNull values field).isNull then .ok ()
  else if (otherRecords records excludedIndex).any fun record =>
      fields.all fun field =>
        valuesEqual (valueOrNull values field) (valueOrNull record.values field) then
    invalid s!"constraint violation: duplicate key for constraint {name}"
  else .ok ()

def validateField (name : String) (metadata : FieldMetadata) (values : Map)
    (records : List DbfRecord) (excludedIndex : Option Nat) : Checked Unit :=
  let value := valueOrNull values name
  if (metadata.notNull ∨ metadata.primary) ∧ value.isNull then
    invalid s!"constraint violation: field {name} must not be null"
  else if ¬ (metadata.unique ∨ metadata.primary) ∨ value.isNull then .ok ()
  else if (otherRecords records excludedIndex).any fun record =>
      !(valueOrNull record.values name).isNull &&
        valuesEqual value (valueOrNull record.values name) then
    invalid s!"constraint violation: duplicate value for field {name}"
  else .ok ()

end Values

def checkAll {α : Type} (check : α → Checked Unit) : List α → Checked Unit
  | [] => .ok ()
  | item :: rest => do
      check item
      checkAll check rest

namespace SchemaMetadata

def applyDefaults (schema : SchemaMetadata) (values : Map) : Map :=
  schema.fields.foldl (fun values entry =>
    match entry.2.default with
    | some default =>
        if (values.get? entry.1).isSome then values else values.insert entry.1 default
    | none => values) values

section Validate
variable [Runtime] [Filters]

def validateCheck (index : Nat) (check values : Map) : Checked Unit :=
  match Filters.matchesFilter values check with
  | .error error => invalid s!"schema check {index} could not be evaluated: {error}"
  | .ok true => .ok ()
  | .ok false => invalid s!"constraint violation: check {index} failed"

/-- A named constraint.  The predicate of a check is present in every sidecar that
was accepted for a table; its absence would be a panic. -/
def validateDeferrable (constraint : DeferrableConstraintMetadata) (values : Map)
    (records : List DbfRecord) (excludedIndex : Option Nat) (deferred : List String) : Res Unit :=
  if constraint.kind = .primaryKey ∧
      constraint.fields.any (fun field => (valueOrNull values field).isNull) then
    Outcome.fail (.invalid
      s!"constraint violation: primary key {constraint.name} contains null")
  else if constraint.name ∈ deferred then .ok ()
  else
    match constraint.kind with
    | .unique | .primaryKey =>
        Outcome.lift (validateNamedUnique constraint.name constraint.fields values records
          excludedIndex)
    | .check => do
        let predicate ← Outcome.orPanic constraint.predicate
        Outcome.lift (match Filters.matchesFilter values predicate with
          | .error error =>
              invalid s!"schema constraint {constraint.name} could not be evaluated: {error}"
          | .ok true => .ok ()
          | .ok false => invalid s!"constraint violation: check {constraint.name} failed")

def validateDeferrables (values : Map) (records : List DbfRecord) (excludedIndex : Option Nat)
    (deferred : List String) : List DeferrableConstraintMetadata → Res Unit
  | [] => .ok ()
  | constraint :: rest => do
      validateDeferrable constraint values records excludedIndex deferred
      validateDeferrables values records excludedIndex deferred rest

def validateValues (schema : SchemaMetadata) (values : Map) (records : List DbfRecord)
    (excludedIndex : Option Nat) (deferred : List String) : Res Unit := do
  Outcome.lift (checkAll (fun entry => validateCheck entry.2 entry.1 values) schema.checks.zipIdx)
  Outcome.lift (checkAll (fun entry =>
    validateField entry.1 entry.2 values records excludedIndex) schema.fields)
  Outcome.lift (checkAll (fun name =>
    if (valueOrNull values name).isNull then
      invalid s!"constraint violation: field {name} must not be null"
    else .ok ()) schema.constraints.primary)
  Outcome.lift (if schema.constraints.primary.isEmpty then .ok ()
    else validateCompositeUnique schema.constraints.primary values records excludedIndex)
  Outcome.lift (checkAll (fun key =>
    validateCompositeUnique key values records excludedIndex) schema.constraints.unique)
  validateDeferrables values records excludedIndex deferred schema.constraints.deferrable

def validateRecordsFrom (schema : SchemaMetadata) (records : List DbfRecord)
    (deferred : List String) (index : Nat) : List DbfRecord → Res Unit
  | [] => .ok ()
  | record :: rest => do
      if record.deleted then .ok ()
      else schema.validateValues record.values records (some index) deferred
      validateRecordsFrom schema records deferred (index + 1) rest

def validateRecords (schema : SchemaMetadata) (records : List DbfRecord)
    (deferred : List String) : Res Unit :=
  schema.validateRecordsFrom records deferred 0 records

end Validate

end SchemaMetadata

end TxBase.Dbf
