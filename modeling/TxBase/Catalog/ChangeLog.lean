import TxBase.Catalog.Steps
import TxBase.Dbf.Cdc

/-! The change log of a catalog, `src/catalog/cdc.rs`: one event a transaction, with the changed
rows of each table that was written. -/
namespace TxBase.Catalog
open Lib Dbf Transaction

structure CatalogTableChange where
  reset : Bool
  changes : List ChangeRecord
  deriving DecidableEq

structure CatalogChangeEvent where
  transactionId : Nat
  tables : OrderedMap String CatalogTableChange
  deriving DecidableEq

class EventSerde where
  toVec : CatalogChangeEvent → Except String Bytes
  fromSlice : Bytes → Except String CatalogChangeEvent

@[reducible] def EventSerde.blank : EventSerde := ⟨fun _ => .ok [], fun _ => .error "refused"⟩

namespace ChangeLog

def magic : Bytes := [0x54, 0x58, 0x43, 0x43]

def version : UInt8 := 1

def headerSize : Nat := 9

/-- `transaction_error` makes an invalid catalog of every error of the log, an I/O error too. -/
def transactionError (error : TransactionError) : CatalogError :=
  .invalid ("catalog CDC WAL error: " ++ match error with
    | .io message => s!"transaction I/O error: {message}"
    | .unsupported => "transaction operation is unsupported"
    | .invalid message => s!"invalid transaction: {message}")

def tableEvent (transactionId : Nat) (before : Tables) (name : String) (after : DbfTable) :
    Outcome CatalogError CatalogTableChange := do
  let beforeTable ← Outcome.orFail (.invalid s!"catalog CDC table is missing before state: {name}")
    (before.get? name)
  let event ← ofTable name (Dbf.eventForTables transactionId beforeTable after false)
  .ok ⟨event.reset, event.changes⟩

def eventForTables (transactionId : Nat) (before after : Tables) :
    Outcome CatalogError CatalogChangeEvent := do
  refuseCatalog (transactionId = 0) "catalog CDC transaction ID must be positive"
  let tables ← after.mapM fun entry => do
    let change ← tableEvent transactionId before entry.1 entry.2
    .ok (entry.1, change)
  refuseCatalog tables.isEmpty "catalog CDC event must contain at least one table"
  .ok ⟨transactionId, OrderedMap.ofList tables⟩

def validateChanges (name : String) (previous : Nat) : List ChangeRecord → Except CatalogError Unit
  | [] => .ok ()
  | change :: rest => do
      if change.recordNumber = 0 ∨ change.recordNumber ≤ previous then
        .error (.invalid
          s!"catalog CDC record numbers for {name} must be positive and strictly increasing")
      if change.before.isNone ∧ change.after.isNone then
        .error (.invalid "catalog CDC change must contain before or after state")
      validateChanges name change.recordNumber rest

def validateEvent (event : CatalogChangeEvent) : Except CatalogError Unit := do
  if event.transactionId = 0 then .error (.invalid "catalog CDC transaction ID must be positive")
  if event.tables.isEmpty then
    .error (.invalid "catalog CDC event must contain at least one table")
  event.tables.forM fun entry => do
    if entry.1.isEmpty then .error (.invalid "catalog CDC table name must not be empty")
    validateChanges entry.1 0 entry.2.changes

/-- `==` on events, whose values compare as JSON values do. -/
def sameEvent (left right : CatalogChangeEvent) : Bool :=
  left.transactionId = right.transactionId && left.tables.length = right.tables.length &&
    (left.tables.zip right.tables).all fun entry =>
      entry.1.1 = entry.2.1 && entry.1.2.reset = entry.2.2.reset &&
        entry.1.2.changes.length = entry.2.2.changes.length &&
        (entry.1.2.changes.zip entry.2.2.changes).all fun change => change.1.eqv change.2

variable [EventSerde]

def payload (event : CatalogChangeEvent) : Except CatalogError Bytes := do
  validateEvent event
  match EventSerde.toVec event with
  | .error error => .error (.invalid s!"catalog CDC event encoding failed: {error}")
  | .ok body =>
      if u32Size ≤ body.length then .error (.invalid "catalog CDC event payload is too large")
      else if maxWalRecordSize < headerSize + body.length then
        .error (.invalid "catalog CDC event payload exceeds the WAL record limit")
      else .ok (magic ++ version :: (toLeBytes 4 body.length ++ body))

def decodePayload (payload : Bytes) : Except CatalogError (Option CatalogChangeEvent) :=
  match afterMagic magic payload with
  | none => .ok none
  | some body =>
      if body.length < 5 then .error (.invalid "catalog CDC event header is truncated")
      else if body.headD 0 ≠ version then
        .error (.invalid s!"unknown catalog CDC event version {body.headD 0}")
      else if (body.drop 5).length ≠ fromLeBytes (slice body 1 5) then
        .error (.invalid "catalog CDC event length does not match payload")
      else match EventSerde.fromSlice (body.drop 5) with
        | .error error => .error (.invalid s!"catalog CDC event decoding failed: {error}")
        | .ok event => do
            validateEvent event
            .ok (some event)

/-- Whether the log already holds the event; an event may only be appended behind older ones. -/
def holds (event : CatalogChangeEvent) (last : Option Nat) : List Bytes → Except CatalogError Bool
  | [] =>
      if last.any fun last => event.transactionId < last then
        .error (.invalid s!"catalog CDC transaction {event.transactionId} is older than the log tail")
      else .ok false
  | record :: rest => do
      match ← decodePayload record with
      | none => .error (.invalid "catalog CDC log contains an unknown record")
      | some existing =>
          if last.any fun last => existing.transactionId ≤ last then
            .error (.invalid "catalog CDC transaction IDs are not strictly increasing")
          else if existing.transactionId = event.transactionId then
            if sameEvent existing event then .ok true
            else .error (.invalid
              s!"catalog CDC transaction {event.transactionId} has conflicting event data")
          else holds event (some existing.transactionId) rest

/-- The file with the event behind the records that are there. -/
def stagedBytes (records : List Bytes) (event : CatalogChangeEvent) (encoded : Bytes) :
    Except CatalogError Bytes := do
  let held ← holds event none records
  (encodeRecords (if held then records else records ++ [encoded])).mapError transactionError

end ChangeLog

end TxBase.Catalog
