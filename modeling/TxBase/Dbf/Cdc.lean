import TxBase.Dbf.RowMvcc

/-! The change log of a table, `src/dbf/cdc.rs`: each commit appends one event with the
rows it changed, and the transaction ids of the log grow. -/
namespace TxBase.Dbf
open Lib
open Durable (ask step)
open Outcome (lift)

def cdcMagic : Bytes := [0x54, 0x58, 0x43, 0x44]
def cdcHeaderSize : Nat := 9

def ChangeState.eqv (left right : ChangeState) : Bool :=
  left.deleted = right.deleted && sameValues left.values right.values

def ChangeRecord.eqv (left right : ChangeRecord) : Bool :=
  left.recordNumber = right.recordNumber && eqvOption ChangeState.eqv left.before right.before &&
    eqvOption ChangeState.eqv left.after right.after

def ChangeEvent.eqv (left right : ChangeEvent) : Bool :=
  left.transactionId = right.transactionId && left.reset = right.reset &&
    eqvList ChangeRecord.eqv left.changes right.changes

def changeState (record : DbfRecord) : ChangeState := ⟨record.deleted, record.values⟩

/-- The rows `start`, `start + 1`, … of the two tables, up to the longer one. -/
def changesFrom (reset : Bool) (before after : DbfTable) (start : Nat) :
    Nat → List ChangeRecord
  | 0 => []
  | count + 1 =>
      let old := before.records[start]?.map changeState
      let new := after.records[start]?.map changeState
      let rest := changesFrom reset before after (start + 1) count
      if reset || !eqvOption ChangeState.eqv old new then ⟨start + 1, old, new⟩ :: rest else rest

def eventForTables (transactionId : Nat) (before after : DbfTable) (reset : Bool) :
    Checked ChangeEvent := do
  reject (transactionId = 0) "CDC transaction ID must be positive"
  .ok ⟨transactionId, reset,
    changesFrom reset before after 0 (max before.records.length after.records.length)⟩

def validateChanges (previous : Nat) : List ChangeRecord → Checked Unit
  | [] => .ok ()
  | change :: rest => do
      reject (change.recordNumber = 0 ∨ change.recordNumber ≤ previous)
        "CDC record numbers must be positive and strictly increasing"
      reject (change.before.isNone ∧ change.after.isNone)
        "CDC change must contain before or after state"
      validateChanges change.recordNumber rest

def validateEvent (event : ChangeEvent) : Checked Unit := do
  reject (event.transactionId = 0) "CDC transaction ID must be positive"
  validateChanges 0 event.changes

section Log
variable [Serde]

def cdcPayload (event : ChangeEvent) : Checked Bytes := do
  validateEvent event
  match Serde.eventToVec event with
  | .error error => invalid s!"CDC event encoding failed: {error}"
  | .ok body => do
      reject (u32Size ≤ body.length) "CDC event payload is too large"
      reject (Transaction.maxWalRecordSize < cdcHeaderSize + body.length)
        "CDC event payload exceeds the WAL record limit"
      .ok (cdcMagic ++ 1 :: (toLeBytes 4 body.length ++ body))

def decodeCdcPayload (payload : Bytes) : Checked (Option ChangeEvent) :=
  match afterMagic cdcMagic payload with
  | none => .ok none
  | some body => do
      reject (body.length < 5) "CDC event header is truncated"
      reject (body.headD 0 ≠ 1) s!"unknown CDC event version {body.headD 0}"
      reject ((body.drop 5).length ≠ fromLeBytes (slice body 1 5))
        "CDC event length does not match payload"
      match Serde.eventFromSlice (body.drop 5) with
      | .error error => invalid s!"CDC event decoding failed: {error}"
      | .ok event => do
          validateEvent event
          .ok (some event)

/-- One record of the log beside the event found so far. -/
def mergeEvent (found : Option ChangeEvent) (payload : Bytes) : Checked (Option ChangeEvent) := do
  match ← decodeCdcPayload payload, found with
  | none, found => .ok found
  | some candidate, none => .ok (some candidate)
  | some candidate, some existing => do
      reject (!existing.eqv candidate) "WAL contains conflicting CDC events"
      .ok (some existing)

def eventFromWal (payloads : List Bytes) : Checked (Option ChangeEvent) :=
  payloads.foldlM mergeEvent none

/-- Whether the log already ends with the event; it may only be appended behind older
ones. -/
def scanCdc (event : ChangeEvent) (last : Option Nat) : List Bytes → Checked Bool
  | [] => do
      reject (last.any fun last => event.transactionId < last)
        s!"CDC transaction {event.transactionId} is older than the log tail"
      .ok false
  | record :: rest => do
      match ← decodeCdcPayload record with
      | none => invalid "CDC log contains an unknown record"
      | some existing => do
          reject (last.any fun last => existing.transactionId ≤ last)
            "CDC transaction IDs are not strictly increasing"
          if existing.transactionId = event.transactionId then do
            reject (!existing.eqv event)
              s!"CDC transaction {event.transactionId} has conflicting event data"
            .ok true
          else scanCdc event (some existing.transactionId) rest

def appendCdc (event : ChangeEvent) : Saving Unit := do
  let encoded ← ask fun _ => lift (cdcPayload event)
  let records ← ask fun disk => lift disk.cdc.payloads
  step fun disk => { disk with cdc := disk.cdc.created }
  let present ← ask fun _ => lift (scanCdc event none records)
  Durable.when (!present) do
    ask fun _ => lift (checkRecordSize encoded)
    step fun disk => { disk with cdc := disk.cdc.append encoded }

end Log

end TxBase.Dbf
