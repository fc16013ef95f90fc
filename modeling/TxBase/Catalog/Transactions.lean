import TxBase.Catalog.Engine

/-! A catalog transaction, `src/catalog/transaction.rs`: preconditions, the steps one after the
other, and the commit of all files that they changed. -/
set_option linter.dupNamespace false

namespace TxBase.Catalog
open Lib Json Dbf
open Procedure (ask collect ofExcept)
open Outcome (orPanic orFail)

inductive CommitPrecondition where
  | catalog (expectedTransactionId : Option Nat) (expectedCatalogTag : Option String)
      (ifMatch ifNoneMatch : Option String)
  | table (expectedTransactionId : Option Nat) (expectedCatalogTag : Option String) (name : String)
      (ifMatch ifNoneMatch : Option String)
  deriving DecidableEq

namespace CommitPrecondition

def expectedTransactionId : CommitPrecondition → Option Nat
  | .catalog expected .. => expected
  | .table expected .. => expected

def expectedCatalogTag : CommitPrecondition → Option String
  | .catalog _ expected .. => expected
  | .table _ expected .. => expected

def isCatalog : CommitPrecondition → Bool
  | .catalog .. => true
  | .table .. => false

end CommitPrecondition

/-- A sidecar that is written with a commit, from the id that the commit gets. -/
structure SidecarChange where
  name : String
  before : Option Bytes
  after : Nat → Transacting Bytes

def headerTags (value : String) : List String :=
  (splitChars ',' value.toList).map fun tag => trim (String.ofList tag)

def isWeak (tag : String) : Bool := ['W', '/'].isPrefixOf tag.toList

def strongTag (tag : String) : String :=
  if isWeak tag then String.ofList (tag.toList.drop 2) else tag

def matchesIfNoneMatch (value current : String) : Bool :=
  headerTags value = ["*"] || (headerTags value).any fun tag => strongTag tag = current

def matchesIfMatch (value current : String) : Bool :=
  headerTags value = ["*"] ||
    (!(headerTags value).any (fun tag =>
      tag = "*" || isWeak tag) && (headerTags value).contains current)

def transactionOperationPath (path : String) : Option (String × String) :=
  match path.toList with
  | '/' :: rest =>
      match (splitChars '/' rest).map String.ofList with
      | [table, "records"] => if table.isEmpty then none else some (table, "/records")
      | [table, "records", record] =>
          if table.isEmpty || record.isEmpty then none else some (table, "/records/" ++ record)
      | _ => none
  | _ => none

structure Running where
  tables : Tables
  touched : List String
  deferred : Deferred
  deriving DecidableEq

structure CommitSideEffects where
  extraChanges : List Change
  sidecar : Option SidecarChange

namespace Catalog

section Steps
variable [Runtime] [Filters]

def applyOperationToTables (catalog : Catalog) (running : Running) (operation : OperationIr) :
    Transacting Running := do
  let (name, localPath) ← orFail
    (.invalid s!"operation path is not a named record route: {operation.path}")
    (transactionOperationPath operation.path)
  refuseTransaction (isRead operation.method)
    s!"operation method {methodName operation.method} is not a mutation"
  refuseTransaction (catalog.entry? name).isNone s!"table not found: {name}"
  let table ← orPanic (running.tables.get? name)
  let beforeSnapshot ← inCatalog (snapshotReferencedTable name table running.tables)
  let run := table.applyOperationWithDeferredConstraints { operation with path := localPath }
    ((running.deferred.get? name).getD [])
  run.2.mapError fun error => .invalid s!"table {name}: {error.display}"
  let before : Images := (beforeSnapshot.map fun records => [(name, records)]).getD []
  let (tables, cascaded) ← inCatalog
    (applyActions before (running.tables.insert name run.1) running.deferred)
  inCatalog (validateStatementConstraints tables (name :: cascaded) running.deferred)
  .ok { running with tables := tables, touched := name :: cascaded ++ running.touched }

def applyStep (catalog : Catalog) (running : Running) : TransactionStep → Transacting Running
  | .mutation operation => catalog.applyOperationToTables running operation
  | .command (.setConstraints table all names mode) => do
      let deferred ← changeConstraintModes running.tables running.deferred table names all mode
      .ok { running with deferred := deferred }

def applySteps (catalog : Catalog) (before : Tables) (steps : List TransactionStep) :
    Transacting Running := do
  let deferred ← inCatalog (initialDeferredConstraints before)
  steps.foldlM catalog.applyStep ⟨before, [], deferred⟩

end Steps

section Commit
variable [Runtime] [Filters] [Serde] [Indexing] [SchemaJson] [EventSerde]

def withReplacements (catalog : Catalog) (replacements : Tables) : Reading Tables :=
  collect catalog.tables fun entry =>
    match replacements.get? entry.name with
    | some table => .done (entry.name, table)
    | none => do
        let table ← catalog.openTableUnlocked entry.name
        .done (entry.name, table)

def validateReplacements (catalog : Catalog) (replacements : Tables) : Reading Unit := do
  let tables ← catalog.withReplacements replacements
  ofExcept (validateLoadedTables tables)

def stageTable (catalog : Catalog) (name : String) (table : DbfTable) :
    Reading (DbfTable × List Change) := do
  let entry ← ofExcept (orPanic (catalog.entry? name))
  let disk ← performOn name (.readTable name)
  let (table, prepared) ← ofExcept (onTable name (table.prepareSnapshot (catalog.pathOf entry) disk))
  -- the contents before, for the journal
  let _ ← perform (.readTable name)
  let index ← ofExcept (match prepared.indexPayload with
    | none => .ok []
    | some payload =>
        match decodeSnapshotPayload payload with
        | .error error => invalidCatalog s!"index snapshot error: {error}"
        | .ok none => invalidCatalog "index snapshot payload is missing"
        | .ok (some bytes) => .ok [Change.index name bytes])
  .done (table, .dbf name prepared.dbf :: ((prepared.memo.map (Change.memo name)).toList ++ index))

def stageTables (catalog : Catalog) (replacements : Tables) :
    Reading (List ((String × DbfTable) × List Change)) :=
  collect replacements fun entry => do
    let (table, changes) ← catalog.stageTable entry.1 entry.2
    .done ((entry.1, table), changes)

def tableSnapshot (catalog : Catalog) (before replacements : Tables) (reuseLoadedTables : Bool)
    (entry : CatalogTable) : Reading (String × TableSnapshot) := do
  let table ← (match replacements.get? entry.name with
    | some table => .done table
    | none =>
        if reuseLoadedTables then ofExcept (orPanic (before.get? entry.name))
        else catalog.openTableUnlocked entry.name : Reading DbfTable)
  let disk ← performOn entry.name (.readTable entry.name)
  .done (entry.name, ⟨entry.fileName, table.bytes, table.memoPart, disk.schema⟩)

def tableSnapshots (catalog : Catalog) (before replacements : Tables) (reuseLoadedTables : Bool) :
    Reading (List (String × TableSnapshot)) :=
  collect catalog.tables (catalog.tableSnapshot before replacements reuseLoadedTables)

/-- `staged_bytes`: the change log behind which the event is put. -/
def stageEvent (event : CatalogChangeEvent) : Reading Bytes := do
  let encoded ← ofExcept (Outcome.lift (ChangeLog.payload event))
  -- `Path::exists` takes a failure for absence
  match (← ask CatalogOp.cdcExists : Except IoError Bool) with
  | .ok true => do
      let records ← (do
        match (← ask CatalogOp.openCdc : Except IoError
          (Except Transaction.TransactionError (List Bytes))) with
        | .ok (.ok records) => .done records
        | .ok (.error error) => .fail (.err (ChangeLog.transactionError error))
        | .error error => .fail (.err (ChangeLog.transactionError (.io error.message))) :
          Reading (List Bytes))
      ofExcept (Outcome.lift (ChangeLog.stagedBytes records event encoded))
  | _ => ofExcept (Outcome.lift (ChangeLog.stagedBytes [] event encoded))

def sidecarAfter (sidecar : Option SidecarChange) (transactionId : Nat) :
    Transacting (Option (String × Bytes)) :=
  match sidecar with
  | none => .ok none
  | some sidecar => do
      let after ← sidecar.after transactionId
      .ok (some (sidecar.name, after))

def sidecarChange (sidecar : Option (String × Bytes)) : List Change :=
  (sidecar.map fun entry => Change.sidecar entry.1 (some entry.2)).toList

/-- A commit of nothing but further files keeps the transaction id. -/
def commitUntouched (effects : CommitSideEffects) : Committing (Nat × Option Bytes) := do
  let transactionId ← readTransactionIdLocked.committing
  let sidecar ← ofExcept (sidecarAfter effects.sidecar (transactionId.getD 0))
  let changes := effects.extraChanges ++ sidecarChange sidecar
  if changes.isEmpty then .done (transactionId.getD 0, sidecar.map Prod.snd)
  else do
    (perform (.commitFiles changes)).committing
    .done (transactionId.getD 0, sidecar.map Prod.snd)

def commit (changes : List Change) : Reading Nat := do
  let transactionId ← nextTransactionIdLocked
  perform (.commitFiles (changes ++ [.state (transactionStateBytes transactionId)]))
  .done transactionId

def commitReplacements (catalog : Catalog) (before replacements : Tables) (reuseLoadedTables : Bool)
    (effects : CommitSideEffects) : Committing (Nat × Option Bytes) := do
  let transactionId ← nextTransactionIdLocked.committing
  let sidecar ← ofExcept (sidecarAfter effects.sidecar transactionId)
  let staged ← (catalog.stageTables replacements).committing
  let replacements : Tables := staged.map Prod.fst
  let snapshots ← (catalog.tableSnapshots before replacements reuseLoadedTables).committing
  let historyBefore ← (perform .readHistory).committing
  let historyAfter ← ofExcept (inCatalog (Outcome.lift
    (History.appendSnapshot historyBefore ⟨transactionId, OrderedMap.ofList snapshots⟩)))
  let event ← ofExcept (inCatalog (ChangeLog.eventForTables transactionId before replacements))
  let cdcAfter ← (stageEvent event).committing
  let committed ← (commit (sidecarChange sidecar ++ staged.flatMap Prod.snd ++
    [.history historyAfter, .cdc cdcAfter] ++ effects.extraChanges)).committing
  .done (committed, sidecar.map Prod.snd)

def commitLoadedTablesLocked (catalog : Catalog) (before : Tables) (running : Running)
    (reuseLoadedTables : Bool) (effects : CommitSideEffects) : Committing (Nat × Option Bytes) := do
  if running.touched.isEmpty then commitUntouched effects
  else do
    let images ← ofExcept (inCatalog (snapshotReferencedTables before running.tables))
    let (tables, cascaded) ← ofExcept (inCatalog
      (applyActions images running.tables running.deferred))
    let touched := cascaded ++ running.touched
    let replacements : Tables := tables.filter fun entry => touched.contains entry.1
    if reuseLoadedTables then ofExcept (inCatalog (validateLoadedTables tables))
    else (catalog.validateReplacements replacements).committing
    catalog.commitReplacements before replacements reuseLoadedTables effects

def requireSidecar (sidecar : Option SidecarChange) : Committing Unit :=
  match sidecar with
  | none => .done ()
  | some sidecar => do
      let actual ← (perform (.readSidecar sidecar.name)).committing
      if actual ≠ sidecar.before then .fail (.err (.sidecarPreconditionFailed sidecar.name))
      else .done ()

def requireTag (ifMatch ifNoneMatch : Option String) (tag : String) : Transacting Unit :=
  if ifMatch.any (fun value => !matchesIfMatch value tag) ||
      ifNoneMatch.any (fun value => matchesIfNoneMatch value tag) then
    Outcome.fail (.preconditionFailed tag)
  else .ok ()

def requireCatalogTag (expected actual : Option String) : Transacting Unit :=
  match expected, actual with
  | some expected, some actual =>
      if expected ≠ actual then Outcome.fail (.catalogTagChanged expected actual) else .ok ()
  | _, _ => .ok ()

def requirePrecondition (catalog : Catalog) (before : Tables) (precondition : CommitPrecondition) :
    Committing Unit := do
  let schemaTag ← (if precondition.expectedCatalogTag.isSome || precondition.isCatalog then do
      let (_, tag) ← catalog.schemaRepresentationUnlocked.committing
      .done (some tag)
    else .done none : Committing (Option String))
  ofExcept (requireCatalogTag precondition.expectedCatalogTag schemaTag)
  match precondition with
  | .catalog _ _ ifMatch ifNoneMatch => do
      let tag ← ofExcept (orPanic schemaTag)
      ofExcept (requireTag ifMatch ifNoneMatch tag)
  | .table _ _ name ifMatch ifNoneMatch => do
      let table ← ofExcept (orFail (.invalid s!"table not found: {name}") (before.get? name))
      ofExcept (requireTag ifMatch ifNoneMatch (tableTag table))

def commitStepsInternal (catalog : Catalog) (steps : List TransactionStep)
    (precondition : Option CommitPrecondition) (sidecar : Option SidecarChange) :
    Committing (Nat × Option Bytes) := do
  ofExcept (refuseTransaction steps.isEmpty "operations must not be empty")
  ofExcept (refuseTransaction catalog.isHistorical "historical catalog snapshots are read-only")
  acquireLock.committing
  requireTransactionId (precondition.bind CommitPrecondition.expectedTransactionId)
  requireSidecar sidecar
  let before ← catalog.openTables.committing
  (match precondition with
    | none => .done ()
    | some precondition => catalog.requirePrecondition before precondition)
  let running ← ofExcept (catalog.applySteps before steps)
  catalog.commitLoadedTablesLocked before running false ⟨[], sidecar⟩

def commitStepsWithSidecar (catalog : Catalog) (steps : List TransactionStep) (name : String)
    (expected : Option Bytes) (after : Bytes) : Committing Nat := do
  let (transactionId, _) ← catalog.commitStepsInternal steps none
    (some ⟨name, expected, fun _ => .ok after⟩)
  .done transactionId

def commitStepsWithPreconditionsAndSidecar (catalog : Catalog) (steps : List TransactionStep)
    (ifMatch ifNoneMatch : Option String) (name : String) (expected : Option Bytes) (after : Bytes) :
    Committing Nat := do
  let (transactionId, _) ← catalog.commitStepsInternal steps
    (some (.catalog none none ifMatch ifNoneMatch)) (some ⟨name, expected, fun _ => .ok after⟩)
  .done transactionId

def commitOperationsWithSidecarAndTablePreconditions (catalog : Catalog)
    (operations : List OperationIr) (tableName : String) (ifMatch ifNoneMatch : Option String)
    (name : String) (expected : Option Bytes) (after : Bytes) : Committing Nat := do
  let (transactionId, _) ← catalog.commitStepsInternal (operations.map TransactionStep.mutation)
    (some (.table none none tableName ifMatch ifNoneMatch))
    (some ⟨name, expected, fun _ => .ok after⟩)
  .done transactionId

end Commit

end Catalog

end TxBase.Catalog
