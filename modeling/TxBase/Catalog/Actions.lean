import TxBase.Catalog.Constraints

/-! What a change of a parent does to the rows that refer to it,
`src/catalog/constraint_actions.rs`. -/
namespace TxBase.Catalog
open Lib Json Dbf

/-- The rows of the tables before a statement, with the fields that other tables refer to. -/
abbrev Images := OrderedMap String (List DbfRecord)

def referencedFields (name : String) (tables : Tables) : Outcome CatalogError (List String) :=
  tables.foldlM (fun fields entry => do
    let keys ← ofTable entry.1 entry.2.foreignKeys
    .ok (fields ++ (keys.filter fun key => key.parentTable = name).flatMap ForeignKey.parentFields))
      []

def snapshotReferencedTable (name : String) (table : DbfTable) (tables : Tables) :
    Outcome CatalogError (Option (List DbfRecord)) := do
  let fields ← referencedFields name tables
  if fields.isEmpty then .ok none
  else .ok (some (table.records.map fun record =>
    { record with
      values := OrderedMap.ofList (fields.filterMap fun field =>
        (record.values.get? field).map fun value => (field, value)) }))

def snapshotReferencedTables (images tables : Tables) : Outcome CatalogError Images :=
  images.foldlM (fun snapshots entry => do
    match ← snapshotReferencedTable entry.1 entry.2 tables with
    | some records => .ok (snapshots.insert entry.1 records)
    | none => .ok snapshots) []

structure ParentChange where
  old : List Value
  new : Option (List Value)
  deriving DecidableEq

def tupleValues (record : DbfRecord) (fields : List String) : Option (List Value) :=
  fields.mapM fun field => record.values.get? field

def fieldsPatch (fields : List String) (values : List Value) : Map :=
  OrderedMap.ofList (fields.zip values)

section Actions
variable [Runtime]

def tuplesEqual (left right : List Value) : Bool :=
  left.length = right.length && (left.zip right).all fun entry => valuesEqual entry.1 entry.2

def parentChange (old : DbfRecord) (new : Option DbfRecord) (parentFields : List String) :
    Option ParentChange :=
  if old.deleted then none
  else do
    let oldValues ← tupleValues old parentFields
    match new.filter fun record => !record.deleted with
    | none => some ⟨oldValues, none⟩
    | some new => do
        let newValues ← tupleValues new parentFields
        if tuplesEqual oldValues newValues then none else some ⟨oldValues, some newValues⟩

def parentChanges (before : List DbfRecord) (current : DbfTable) (parentFields : List String) :
    List ParentChange :=
  before.zipIdx.filterMap fun entry => parentChange entry.1 current.records[entry.2]? parentFields

variable [Filters]

def acted (name : String) (run : DbfTable × Res Unit) : Outcome CatalogError DbfTable := do
  onTable name run.2
  .ok run.1

def actOnRecord (childName : String) (key : ForeignKey) (change : ParentChange)
    (action : ForeignKeyAction) (deferred : List String) (child : DbfTable) (number : Nat) :
    Outcome CatalogError DbfTable :=
  match action, change.new with
  | .cascade, some new =>
      acted childName (child.patchRecordWithDeferredConstraints number
        (fieldsPatch key.localFields new) deferred)
  | .cascade, none => acted childName (child.deleteRecord number)
  | .setNull, _ =>
      acted childName (child.patchRecordWithDeferredConstraints number
        (fieldsPatch key.localFields (key.localFields.map fun _ => .null)) deferred)
  | .restrict, _ | .noAction, _ => Outcome.panicked

def applyAction (child : DbfTable) (childName : String) (key : ForeignKey) (change : ParentChange)
    (action : ForeignKeyAction) (deferred : List String) : Outcome CatalogError (DbfTable × Bool) :=
  let matching := (child.activeRecords.filter fun record =>
    (tupleValues record key.localFields).any fun values => tuplesEqual values change.old).map
      DbfRecord.number
  if matching.isEmpty then .ok (child, false)
  else match action with
    | .restrict => invalidCatalog
        (s!"table {childName} foreign key {formatFields key.localFields} has no matching " ++
          s!"{key.parentTable}.{formatFields key.parentFields}; RESTRICT prevents the parent change")
    | .noAction => .ok (child, false)
    | .cascade | .setNull => do
        let child ← matching.foldlM (actOnRecord childName key change action deferred) child
        .ok (child, true)

structure Cascade where
  tables : Tables
  before : Images
  changed : List String
  passChanged : Bool

/-- A changed parent key, for one foreign key of the child. -/
def applyParentChange (before : Images) (deferred : Deferred) (childName : String) (key : ForeignKey)
    (cascade : Cascade) (change : ParentChange) : Outcome CatalogError Cascade :=
  match cascade.tables.get? childName with
  | none => .ok cascade
  | some child => do
      let action := if change.new.isSome then key.onUpdate else key.onDelete
      let childBefore ←
        if (action = .cascade || action = .setNull) && (before.get? childName).isNone &&
            (cascade.before.get? childName).isNone then
          snapshotReferencedTable childName child cascade.tables
        else .ok none
      let (child, changed) ← applyAction child childName key change action
        ((deferred.get? childName).getD [])
      if changed then
        .ok
          { tables := cascade.tables.insert childName child
            before := (childBefore.map fun records => cascade.before.insert childName records).getD
              cascade.before
            changed := childName :: cascade.changed
            passChanged := true }
      else .ok cascade

def applyForeignKey (before : Images) (deferred : Deferred) (childName : String) (cascade : Cascade)
    (key : ForeignKey) : Outcome CatalogError Cascade :=
  match (before.get? key.parentTable).or (cascade.before.get? key.parentTable),
      cascade.tables.get? key.parentTable with
  | some beforeParent, some currentParent =>
      (parentChanges beforeParent currentParent key.parentFields).foldlM
        (applyParentChange before deferred childName key) cascade
  | _, _ => .ok cascade

def applyChild (before : Images) (deferred : Deferred) (cascade : Cascade) (childName : String) :
    Outcome CatalogError Cascade := do
  -- `expect`: the name is one of the tables
  let child ← Outcome.orPanic (cascade.tables.get? childName)
  let keys ← ofTable childName child.foreignKeys
  keys.foldlM (applyForeignKey before deferred childName) cascade

def applyPasses (before : Images) (deferred : Deferred) : Nat → Cascade →
    Outcome CatalogError (Tables × List String)
  | 0, _ => invalidCatalog "foreign-key cascade did not converge"
  | passes + 1, cascade => do
      let next ← (cascade.tables.map Prod.fst).foldlM (applyChild before deferred)
        { cascade with passChanged := false }
      if next.passChanged then applyPasses before deferred passes next
      else .ok (next.tables, next.changed)

def relationshipCount (tables : Tables) : Outcome CatalogError Nat :=
  (tables.foldlM (fun count entry => do
    let keys ← Outcome.lift entry.2.foreignKeys
    .ok (count + keys.length) : Nat → String × DbfTable → Outcome DbfError Nat) 0).mapError
      fun source => .invalid s!"foreign-key metadata: {source.display}"

def totalRows (tables : Tables) : Nat := (tables.map fun entry => entry.2.records.length).sum

def applyActions (before : Images) (tables : Tables) (deferred : Deferred) :
    Outcome CatalogError (Tables × List String) := do
  let relationships ← relationshipCount tables
  let maxPasses := min ((totalRows tables + 1) * max relationships 1) (u64Size - 1)
  applyPasses before deferred maxPasses ⟨tables, [], [], false⟩

end Actions

end TxBase.Catalog
