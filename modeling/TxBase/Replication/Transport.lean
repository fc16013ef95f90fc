import TxBase.Replication.Log

/-! Pages of entries, `src/replication/transport.rs`. -/
namespace TxBase.Replication
open Lib Json

def maxReplicationEntryBatch : Nat := 128

def maxReplicationEntryBatchBytes : Nat := maxJsonInputBytes

def replicationTransportVersion : Nat := 1

structure ReplicationEntryBatch where
  transportVersion : Nat
  term : Nat
  baseIndex : Nat
  baseTransactionId : Nat
  afterIndex : Nat
  lastIndex : Nat
  lastTransactionId : Nat
  entries : List ReplicationEntry
  nextAfter : Option Nat
  deriving DecidableEq

/-- What `serde_json::from_slice` makes of the text of a page. -/
class BatchSerde where
  batchFromSlice : Bytes → Except String ReplicationEntryBatch

def checkedAdd (left right : Nat) : Option Nat :=
  if left + right < u64Size then some (left + right) else none

def continuation (entries : List ReplicationEntry) (lastIndex : Nat) : Option Nat :=
  entries.getLast?.bind fun last => if last.index < lastIndex then some last.index else none

namespace ReplicationEntryBatch

def ofEntries (log : ReplicationLog) (afterIndex : Nat) (entries : List ReplicationEntry) :
    ReplicationEntryBatch where
  transportVersion := replicationTransportVersion
  term := log.term
  baseIndex := log.baseIndex
  baseTransactionId := log.baseTransactionId
  afterIndex := afterIndex
  lastIndex := log.lastIndex
  lastTransactionId := log.lastTransactionId
  entries := entries
  nextAfter := continuation entries log.lastIndex

/-- The entries of a page stand one after the other. -/
def validateEntries (batch : ReplicationEntryBatch) :
    Option Nat → Option Nat → List ReplicationEntry → Replicated Unit
  | _, _, [] => .ok ()
  | expectedIndex, expectedTransactionId, entry :: rest => do
      entry.validate
      raise (entry.term ≠ batch.term) (.termMismatch batch.term entry.term)
      raise (some entry.index ≠ expectedIndex)
        (.indexGap (expectedIndex.getD (u64Size - 1)) entry.index)
      refuse (batch.lastIndex < entry.index)
        "replication entry batch contains an index beyond last_index"
      match expectedTransactionId with
      | none => refused "replication entry transaction ID is exhausted"
      | some expected => do
          raise (entry.transactionId ≠ expected) (.transactionGap expected entry.transactionId)
          refuse (batch.lastTransactionId < entry.transactionId)
            "replication entry batch contains a transaction beyond last_transaction_id"
          validateEntries batch (checkedAdd entry.index 1) (checkedAdd entry.transactionId 1) rest

def validate (batch : ReplicationEntryBatch) : Replicated Unit := do
  refuse (batch.transportVersion ≠ replicationTransportVersion)
    s!"unsupported replication transport version: {batch.transportVersion}"
  refuse (batch.term = 0 ∨ batch.afterIndex < batch.baseIndex ∨ batch.lastIndex < batch.afterIndex ∨
      batch.lastTransactionId < batch.baseTransactionId)
    "replication entry batch position is invalid"
  match checkedAdd batch.baseTransactionId (batch.lastIndex - batch.baseIndex) with
  | none => refused "replication transaction ID exhausted"
  | some expected => do
      raise (batch.lastTransactionId ≠ expected) (.transactionGap expected batch.lastTransactionId)
      refuse (maxReplicationEntryBatch < batch.entries.length)
        s!"replication entry batch exceeds {maxReplicationEntryBatch} entries"
      refuse (batch.entries = [] ∧ batch.afterIndex < batch.lastIndex)
        "replication entry batch cannot be empty before the last index"
      batch.validateEntries (checkedAdd batch.afterIndex 1)
        ((checkedAdd batch.baseTransactionId (batch.afterIndex - batch.baseIndex)).bind
          (checkedAdd · 1))
        batch.entries
      refuse (batch.nextAfter ≠ continuation batch.entries batch.lastIndex)
        "replication entry batch continuation is invalid"

section Text
variable [Runtime]

def text (batch : ReplicationEntryBatch) : Bytes :=
  structText
    [("transport_version", natText batch.transportVersion),
     ("term", natText batch.term),
     ("base_index", natText batch.baseIndex),
     ("base_transaction_id", natText batch.baseTransactionId),
     ("after_index", natText batch.afterIndex),
     ("last_index", natText batch.lastIndex),
     ("last_transaction_id", natText batch.lastTransactionId),
     ("entries", arrayText (batch.entries.map entryText)),
     ("next_after", optionText (batch.nextAfter.map natText))]

def toJson (batch : ReplicationEntryBatch) : Replicated Bytes := do
  batch.validate
  refuse (maxReplicationEntryBatchBytes < batch.text.length)
    s!"replication entry batch JSON exceeds {maxReplicationEntryBatchBytes} bytes"
  .ok batch.text

def fromJson [BatchSerde] (bytes : Bytes) : Replicated ReplicationEntryBatch := do
  refuse (maxReplicationEntryBatchBytes < bytes.length)
    s!"replication entry batch JSON exceeds {maxReplicationEntryBatchBytes} bytes"
  let batch ← serialized (BatchSerde.batchFromSlice bytes)
  batch.validate
  .ok batch

/-- Entries are taken as long as the page that they make is not too long. -/
def gather (log : ReplicationLog) (afterIndex : Nat) (entries : List ReplicationEntry) :
    List ReplicationEntry → Replicated (List ReplicationEntry)
  | [] => .ok entries
  | entry :: rest => do
      let candidate := ofEntries log afterIndex (entries ++ [entry])
      candidate.validate
      if maxReplicationEntryBatchBytes < candidate.text.length then
        if entries.isEmpty then
          refused
            s!"one replication entry exceeds the {maxReplicationEntryBatchBytes}-byte batch response limit"
        else .ok entries
      else gather log afterIndex (entries ++ [entry]) rest

def fromLog (log : ReplicationLog) (afterIndex limit : Nat) : Replicated ReplicationEntryBatch := do
  refuse (limit < 1 ∨ maxReplicationEntryBatch < limit)
    s!"replication entry batch limit must be between 1 and {maxReplicationEntryBatch}"
  log.validate
  raise (afterIndex < log.baseIndex) (.historyUnavailable afterIndex log.baseIndex)
  raise (log.lastIndex < afterIndex) (.entriesUnavailable afterIndex log.lastIndex)
  let entries ← gather log afterIndex []
    ((log.entries.drop (afterIndex - log.baseIndex)).take limit)
  let batch := ofEntries log afterIndex entries
  batch.validate
  .ok batch

end Text

end ReplicationEntryBatch

@[reducible] def BatchSerde.listed [Runtime] (batches : List ReplicationEntryBatch) :
    BatchSerde where
  batchFromSlice bytes :=
    match batches.find? fun batch => batch.text = bytes with
    | some batch => .ok batch
    | none => .error "refused"

namespace ReplicationLog
variable [Runtime]

def entryBatch (log : ReplicationLog) (afterIndex limit : Nat) : Replicated ReplicationEntryBatch :=
  ReplicationEntryBatch.fromLog log afterIndex limit

/-- A reader asks for the pages of a log one after the other, each where the one before it ends. -/
inductive Pages (log : ReplicationLog) (limit : Nat) : Nat → List ReplicationEntryBatch → Prop
  | last {afterIndex : Nat} {batch : ReplicationEntryBatch}
      (h : log.entryBatch afterIndex limit = .ok batch) (hend : batch.nextAfter = none) :
      Pages log limit afterIndex [batch]
  | more {afterIndex next : Nat} {batch : ReplicationEntryBatch} {rest : List ReplicationEntryBatch}
      (h : log.entryBatch afterIndex limit = .ok batch) (hnext : batch.nextAfter = some next)
      (hrest : Pages log limit next rest) : Pages log limit afterIndex (batch :: rest)

end ReplicationLog

end TxBase.Replication
