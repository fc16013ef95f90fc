import TxBase.Catalog.Transactions
import TxBase.Dbf.ExportJournal
import TxBase.Replication.Log

/-! What is done with a replication log and its catalog, `src/replication.rs`,
`src/replication/progress.rs` and `src/replication/snapshot.rs`.  An operation that succeeds
returns the log as it leaves it in memory; one that fails leaves the log as it was. -/
namespace TxBase.Replication
open Lib Json Dbf Catalog
open Procedure (ofExcept)

abbrev Replicating (α : Type) :=
  Procedure CatalogOp CatalogOp.Reply IoError (Stop ReplicationError) α

def onCatalog {α : Type} (program : Reading α) : Replicating α :=
  program.mapError (mapStop ReplicationError.catalog)

def onCommit {α : Type} (program : Committing α) : Replicating α :=
  program.mapError (mapStop ReplicationError.commit)

def check {α : Type} (result : Replicated α) : Replicating α := ofExcept (Outcome.lift result)

def currentTransactionId (catalog : Catalog) : Replicating Nat := do
  let transactionId ← onCatalog catalog.transactionId
  .done (transactionId.getD 0)

inductive ApplyOutcome where
  | applied (index transactionId : Nat)
  | duplicate (index transactionId : Nat)
  | snapshotInstalled (index transactionId : Nat)
  | snapshotDuplicate (index transactionId : Nat)
  deriving DecidableEq

inductive CommitPreconditions where
  | catalog (ifMatch ifNoneMatch : Option String)
  | table (name : String) (ifMatch ifNoneMatch : Option String)
  deriving DecidableEq

namespace ReplicationLog

section Catalog
variable [Runtime] [Filters] [Serde] [SchemaJson]

section Entries
variable [Indexing] [EventSerde]

/-- The sidecar of the log is that of the log in memory, or absent. -/
def expectedSidecar (log : ReplicationLog) (actual : Option Bytes) : Replicated (Option Bytes) :=
  match actual with
  | none => .ok none
  | some bytes => do
      let expected ← log.toSidecarBytes
      raise (bytes ≠ expected) .sidecarStateMismatch
      .ok (some bytes)

/-- The commit of the steps of an entry with the log behind it. -/
def commitEntry (catalog : Catalog) (entry : ReplicationEntry)
    (preconditions : Option CommitPreconditions)
    (expected : Option Bytes) (after : Replicated Bytes) : Replicating Nat := do
  match preconditions with
  | some (.catalog ifMatch ifNoneMatch) => do
      let after ← check after
      onCommit (catalog.commitStepsWithPreconditionsAndSidecar entry.transactionSteps
        ifMatch ifNoneMatch
        replicationSidecarName expected after)
  | some (.table name ifMatch ifNoneMatch) => do
      let operations ← check (match entry.transactionSteps.mapM TransactionStep.intoMutation with
        | some operations => .ok operations
        | none => refused "constraint commands require catalog transaction preconditions")
      let after ← check after
      onCommit (catalog.commitOperationsWithSidecarAndTablePreconditions operations name ifMatch
        ifNoneMatch replicationSidecarName expected after)
  | none => do
      let after ← check after
      onCommit (catalog.commitStepsWithSidecar entry.transactionSteps replicationSidecarName
        expected after)

def applyNewWithPreconditions (log : ReplicationLog) (catalog : Catalog) (entry : ReplicationEntry)
    (preconditions : Option CommitPreconditions) : Replicating (ApplyOutcome × ReplicationLog) := do
  let expectedIndex ← check (next log.lastIndex "index")
  check (raise (entry.index ≠ expectedIndex) (.indexGap expectedIndex entry.index))
  let expectedTransactionId ← check (next log.lastTransactionId "transaction_id")
  check (raise (entry.transactionId ≠ expectedTransactionId)
    (.transactionGap expectedTransactionId entry.transactionId))
  let current ← currentTransactionId catalog
  check (log.ensureCatalogPosition current)
  let (_, schemaTag) ← onCatalog catalog.schemaRepresentation
  check (raise (entry.schemaTag ≠ schemaTag) (.schemaMismatch schemaTag entry.schemaTag))
  let actualSidecar ← onCatalog (Catalog.readSidecarBytes replicationSidecarName)
  let expected ← check (log.expectedSidecar actualSidecar)
  let nextLog := { log with entries := log.entries ++ [entry] }
  let transactionId ← commitEntry catalog entry preconditions expected nextLog.toSidecarBytes
  check (refuse (transactionId ≠ entry.transactionId)
    s!"catalog committed transaction {transactionId}, expected {entry.transactionId}")
  .done (.applied entry.index transactionId, nextLog)

def proposeEntry (log : ReplicationLog) (catalog : Catalog)
    (make : Nat → Nat → Nat → String → Replicated ReplicationEntry)
    (preconditions : CommitPreconditions) : Replicating (ReplicationEntry × ReplicationLog) := do
  let current ← currentTransactionId catalog
  check (log.ensureCatalogPosition current)
  let (_, schemaTag) ← onCatalog catalog.schemaRepresentation
  let index ← check (next log.lastIndex "index")
  let transactionId ← check (next log.lastTransactionId "transaction_id")
  let entry ← check (make log.term index transactionId schemaTag)
  let (_, log) ← log.applyNewWithPreconditions catalog entry (some preconditions)
  .done (entry, log)

def proposeWithCatalogPreconditions (log : ReplicationLog) (catalog : Catalog)
    (operations : List OperationIr) (ifMatch ifNoneMatch : Option String) :
    Replicating (ReplicationEntry × ReplicationLog) :=
  log.proposeEntry catalog (fun term index transactionId schemaTag =>
    ReplicationEntry.create term index transactionId schemaTag operations)
      (.catalog ifMatch ifNoneMatch)

def propose (log : ReplicationLog) (catalog : Catalog) (operations : List OperationIr) :
    Replicating (ReplicationEntry × ReplicationLog) :=
  log.proposeWithCatalogPreconditions catalog operations none none

def proposeStepsWithCatalogPreconditions (log : ReplicationLog) (catalog : Catalog)
    (steps : List TransactionStep) (ifMatch ifNoneMatch : Option String) :
    Replicating (ReplicationEntry × ReplicationLog) :=
  log.proposeEntry catalog (fun term index transactionId schemaTag =>
    ReplicationEntry.createWithSteps term index transactionId schemaTag steps)
      (.catalog ifMatch ifNoneMatch)

def proposeWithTablePreconditions (log : ReplicationLog) (catalog : Catalog) (tableName : String)
    (operations : List OperationIr) (ifMatch ifNoneMatch : Option String) :
    Replicating (ReplicationEntry × ReplicationLog) :=
  log.proposeEntry catalog (fun term index transactionId schemaTag =>
    ReplicationEntry.create term index transactionId schemaTag operations)
    (.table tableName ifMatch ifNoneMatch)

end Entries

end Catalog

end ReplicationLog

inductive Proposal where
  | ofOperations (operations : List OperationIr) (ifMatch ifNoneMatch : Option String)
  | ofSteps (steps : List TransactionStep) (ifMatch ifNoneMatch : Option String)
  | onTable (name : String) (operations : List OperationIr) (ifMatch ifNoneMatch : Option String)

def Proposal.run [Runtime] [Filters] [Serde] [Indexing] [SchemaJson] [EventSerde]
    (log : ReplicationLog)
    (catalog : Catalog) : Proposal → Replicating (ReplicationEntry × ReplicationLog)
  | .ofOperations operations ifMatch ifNoneMatch =>
      log.proposeWithCatalogPreconditions catalog operations ifMatch ifNoneMatch
  | .ofSteps steps ifMatch ifNoneMatch =>
      log.proposeStepsWithCatalogPreconditions catalog steps ifMatch ifNoneMatch
  | .onTable name operations ifMatch ifNoneMatch =>
      log.proposeWithTablePreconditions catalog name operations ifMatch ifNoneMatch

end TxBase.Replication
