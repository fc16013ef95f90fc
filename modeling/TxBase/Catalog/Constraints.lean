import TxBase.Catalog.Steps

/-! The constraints across the tables of a catalog, `src/catalog/constraints.rs`: which of them
are deferred, and what a statement and a commit check. -/
namespace TxBase.Catalog
open Lib Json Dbf

def formatFields (fields : List String) : String :=
  if fields.length = 1 then fields.headD "" else "(" ++ ", ".intercalate fields ++ ")"

def initialDeferredConstraints (tables : Tables) : Outcome CatalogError Deferred :=
  tables.foldlM (fun deferred entry => do
    let modes ← ofTable entry.1 entry.2.deferrableConstraintModes
    .ok (deferred.insert entry.1 ((modes.filter fun mode => mode.2 = .deferred).map Prod.fst))) []

section Validation
variable [Runtime] [Filters]

def hasParentRow (parent : DbfTable) (fields : List String) (values : List Value) : Bool :=
  parent.activeRecords.any fun candidate => (fields.zip values).all fun entry =>
    valuesEqual entry.2 (valueOrNull candidate.values entry.1)

def validateChildRows (childName : String) (child parent : DbfTable) (key : ForeignKey) :
    Outcome CatalogError Unit :=
  child.activeRecords.forM fun record =>
    let values := key.localFields.map (valueOrNull record.values)
    refuseCatalog (!values.any Value.isNull && !hasParentRow parent key.parentFields values)
      (s!"table {childName} foreign key {formatFields key.localFields} has no matching " ++
        s!"{key.parentTable}.{formatFields key.parentFields}")

def validateForeignKey (tables : Tables) (deferred : Option Deferred)
    (changed : Option (List String))
    (childName : String) (child : DbfTable) (key : ForeignKey) : Outcome CatalogError Unit :=
  if changed.any fun changed => !changed.contains childName && !changed.contains key.parentTable then
    .ok ()
  else do
    let parent ← Outcome.orFail
      (.invalid s!"table {childName} references missing table {key.parentTable}")
      (tables.get? key.parentTable)
    key.parentFields.forM fun field => refuseCatalog (!isNamedField parent.fields field)
      s!"table {childName} references unknown field {key.parentTable}.{field}"
    refuseCatalog (!parent.hasUniqueKey key.parentFields)
      (s!"table {childName} foreign key {formatFields key.localFields} references parent key " ++
        s!"{formatFields key.parentFields} on table {key.parentTable}, " ++
        "which is not declared primary or unique")
    if key.deferrable && (deferred.bind fun names => names.get? childName).any fun names =>
        names.contains key.name then .ok ()
    else validateChildRows childName child parent key

def validateLoadedTable (tables : Tables) (deferred : Option Deferred)
    (changed : Option (List String))
    (childName : String) (child : DbfTable) : Outcome CatalogError Unit := do
  if changed.all fun changed => changed.contains childName then
    onTable childName (child.validateSchemaConstraints
      ((deferred.bind fun names => names.get? childName).getD []))
  else .ok ()
  let keys ← ofTable childName child.foreignKeys
  keys.forM (validateForeignKey tables deferred changed childName child)

def validateLoadedTablesWithDeferred (tables : Tables) (deferred : Option Deferred)
    (changed : Option (List String)) : Outcome CatalogError Unit :=
  tables.forM fun entry => validateLoadedTable tables deferred changed entry.1 entry.2

def validateLoadedTables (tables : Tables) : Outcome CatalogError Unit :=
  validateLoadedTablesWithDeferred tables none none

def validateStatementConstraints (tables : Tables) (changed : List String) (deferred : Deferred) :
    Outcome CatalogError Unit :=
  validateLoadedTablesWithDeferred tables (some deferred) (some changed)

def validateTransactionConstraints (tables : Tables) (deferred : Deferred) :
    Outcome CatalogError Unit :=
  validateLoadedTablesWithDeferred tables (some deferred) none

end Validation

abbrev Transacting (α : Type) := Outcome CatalogTransactionError α

def invalidTransaction {α : Type} (message : String) : Transacting α :=
  Outcome.fail (.invalid message)

def refuseTransaction (condition : Prop) [Decidable condition] (message : String) :
    Transacting Unit :=
  if condition then invalidTransaction message else .ok ()

def inCatalog {α : Type} (outcome : Outcome CatalogError α) : Transacting α :=
  outcome.mapError CatalogTransactionError.catalog

def constraintTargets (tables : Tables) (tableName : Option String) (names : List String)
    (all : Bool) :
    Transacting (List (String × String)) :=
  match all, tableName with
  | true, some name => do
      let table ← Outcome.orFail (.invalid s!"table not found: {name}") (tables.get? name)
      let modes ← inCatalog (ofTable name table.deferrableConstraintModes)
      .ok (modes.map fun mode => (name, mode.1))
  | true, none => do
      let targets ← tables.mapM fun entry => do
        let modes ← inCatalog (ofTable entry.1 entry.2.deferrableConstraintModes)
        .ok (modes.map fun mode => (entry.1, mode.1))
      .ok targets.flatten
  | false, some name => do
      refuseTransaction (tables.get? name).isNone s!"table not found: {name}"
      .ok (names.map fun constraint => (name, constraint))
  | false, none => invalidTransaction "a table name is required when setting named constraints"

def changeMode (tables : Tables) (mode : ConstraintMode) (next : Deferred)
    (target : String × String) :
    Transacting Deferred := do
  -- `expect`: the table was selected from the table set
  let table ← Outcome.orPanic (tables.get? target.1)
  let modes ← inCatalog (ofTable target.1 table.deferrableConstraintModes)
  refuseTransaction (modes.get? target.2).isNone
    s!"constraint {target.2} is not deferrable in table {target.1}"
  let deferred := (next.get? target.1).getD []
  .ok (next.insert target.1 (match mode with
    | .immediate => deferred.filter (· ≠ target.2)
    | .deferred => if deferred.contains target.2 then deferred else deferred ++ [target.2]))

def changeConstraintModes [Runtime] [Filters] (tables : Tables) (current : Deferred)
    (tableName : Option String) (names : List String) (all : Bool) (mode : ConstraintMode) :
    Transacting Deferred := do
  refuseTransaction ((all && !names.isEmpty) || (!all && names.isEmpty))
    "specify either all constraints or one or more constraint names"
  refuseTransaction (tableName.any fun name => (trim name).isEmpty)
    "constraint table name must not be empty"
  refuseTransaction (names.any fun name => (trim name).isEmpty) "constraint names must not be empty"
  let targets ← constraintTargets tables tableName names all
  let next ← targets.foldlM (changeMode tables mode) current
  if mode = .immediate then inCatalog (validateTransactionConstraints tables next) else .ok ()
  .ok next

end TxBase.Catalog
