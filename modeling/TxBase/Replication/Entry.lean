import TxBase.Catalog.Engine

/-! Replication entries, `src/replication/entry.rs`, the errors of `src/replication/error.rs`,
and the JSON texts that `serde` derives. -/
namespace TxBase.Replication
open Lib Json Dbf Catalog

inductive ReplicationError where
  | invalid (message : String)
  | serialization (message : String)
  | catalog (error : CatalogError)
  | commit (error : CatalogTransactionError)
  | termMismatch (expected actual : Nat)
  | indexGap (expected actual : Nat)
  | transactionGap (expected actual : Nat)
  | catalogStateMismatch (expected actual : Nat)
  | schemaMismatch (expected actual : String)
  | historyUnavailable (index baseIndex : Nat)
  | conflictingDuplicate (index : Nat)
  | sidecarStateMismatch
  | snapshotUnavailable (requested applied : Nat)
  | entriesUnavailable (requested applied : Nat)
  | progressUnavailable (requested applied : Nat)
  | progressRegression (followerId : String) (previousIndex requestedIndex : Nat)
  | noFollowerProgress
  | compactionNotAcknowledged (requested acknowledged : Nat)
  | snapshotStale (requested current : Nat)
  | snapshotConflict (transactionId : Nat)
  | snapshotInstallRace (expected actual : Nat)
  deriving DecidableEq

abbrev Replicated (α : Type) := Except ReplicationError α

def refused {α : Type} (message : String) : Replicated α := .error (.invalid message)

def refuse (condition : Prop) [Decidable condition] (message : String) : Replicated Unit :=
  if condition then refused message else .ok ()

def raise (condition : Prop) [Decidable condition] (error : ReplicationError) : Replicated Unit :=
  if condition then .error error else .ok ()

variable {condition : Prop} {result : Unit}

@[simp] theorem raise_eq_ok [Decidable condition] {error : ReplicationError} :
    raise condition error = .ok result ↔ ¬ condition := by
  unfold raise
  split <;> simp [*]

@[simp] theorem refuse_eq_ok [Decidable condition] {message : String} :
    refuse condition message = .ok result ↔ ¬ condition := raise_eq_ok

structure ReplicationEntry where
  version : Nat
  term : Nat
  index : Nat
  transactionId : Nat
  schemaTag : String
  operations : List OperationIr
  steps : List TransactionStep
  deriving DecidableEq

def replicationEntryVersion : Nat := 1

def replicationEntryStepsVersion : Nat := 2

/-- The limit of the parsers of JSON input. -/
def maxJsonInputBytes : Nat := 1024 * 1024

section Texts
variable [Runtime]

def operationText (operation : OperationIr) : Bytes :=
  structText
    [("method", quoted (methodName operation.method)),
     ("path", quoted operation.path),
     ("body", optionText (operation.body.map Value.toVec))]

def modeText : ConstraintMode → Bytes
  | .immediate => quoted "immediate"
  | .deferred => quoted "deferred"

/-- A step is written as its operation or its command; defaults are left out. -/
def stepText : TransactionStep → Bytes
  | .mutation operation => operationText operation
  | .command (.setConstraints table all names mode) =>
      structText
        ([("type", quoted "setConstraints")] ++
          (table.map fun name => ("table", quoted name)).toList ++
          (if all then [("all", utf8 "true")] else []) ++
          (if names.isEmpty then [] else [("names", arrayText (names.map quoted))]) ++
          [("mode", modeText mode)])

def entryText (entry : ReplicationEntry) : Bytes :=
  structText
    ([("version", natText entry.version),
      ("term", natText entry.term),
      ("index", natText entry.index),
      ("transaction_id", natText entry.transactionId),
      ("schema_tag", quoted entry.schemaTag)] ++
      (if entry.operations.isEmpty then []
        else [("operations", arrayText (entry.operations.map operationText))]) ++
      (if entry.steps.isEmpty then [] else [("steps", arrayText (entry.steps.map stepText))]))

end Texts

def isBlank (text : String) : Bool := (trim text).isEmpty

namespace ReplicationEntry

def transactionSteps (entry : ReplicationEntry) : List TransactionStep :=
  if entry.version = replicationEntryVersion then entry.operations.map .mutation else entry.steps

def validateStep (step : TransactionStep) : Replicated Unit := do
  match step.validate with
  | .error message => refused message
  | .ok () =>
      match step with
      | .mutation operation =>
          refuse (isRead operation.method) s!"{methodName operation.method} is a read operation"
      | .command (.setConstraints table all _ _) =>
          refuse (!all ∧ table.isNone)
            "table is required when setting named constraints in a replication entry"

def fieldsFit (entry : ReplicationEntry) : Bool :=
  !((entry.version = replicationEntryVersion &&
    (entry.operations.isEmpty || !entry.steps.isEmpty)) ||
    (entry.version = replicationEntryStepsVersion &&
      (!entry.operations.isEmpty || entry.steps.isEmpty ||
        !entry.steps.any TransactionStep.isConstraintCommand)))

def validate (entry : ReplicationEntry) : Replicated Unit := do
  refuse (entry.version ≠ replicationEntryVersion ∧ entry.version ≠ replicationEntryStepsVersion)
    s!"unsupported replication entry version: {entry.version}"
  refuse (entry.term = 0 ∨ entry.index = 0 ∨ entry.transactionId = 0)
    "term, index, and transaction_id must be positive"
  refuse (isBlank entry.schemaTag) "schema_tag must not be empty"
  refuse (!entry.fieldsFit) "replication entry fields do not match their version"
  refuse entry.transactionSteps.isEmpty "operations must not be empty"
  refuse (maxOperationBatch < entry.transactionSteps.length)
    s!"operation count exceeds {maxOperationBatch}"
  entry.transactionSteps.forM validateStep
  refuse (!entry.transactionSteps.any fun step => !step.isConstraintCommand)
    "replication entry must contain a record mutation"

def create (term index transactionId : Nat) (schemaTag : String) (operations : List OperationIr) :
    Replicated ReplicationEntry := do
  let entry : ReplicationEntry :=
    ⟨replicationEntryVersion, term, index, transactionId, schemaTag, operations, []⟩
  entry.validate
  .ok entry

def createWithSteps (term index transactionId : Nat) (schemaTag : String)
    (steps : List TransactionStep) : Replicated ReplicationEntry :=
  if steps.any TransactionStep.isConstraintCommand then do
    let entry : ReplicationEntry :=
      ⟨replicationEntryStepsVersion, term, index, transactionId, schemaTag, [], steps⟩
    entry.validate
    .ok entry
  else
    match steps.mapM TransactionStep.intoMutation with
    | none => refused "constraint command requires a version 2 replication entry"
    | some operations => create term index transactionId schemaTag operations

end ReplicationEntry

end TxBase.Replication
