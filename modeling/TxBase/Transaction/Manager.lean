import TxBase.Lib.OrderedMap
import TxBase.Transaction.Wal

/-! The transaction manager of `src/transaction/mod.rs`, generic over its log, and
the two facts a log owes it: what is appended is in the log, and what was synced
survives a restart. -/
namespace TxBase.Transaction
open Lib

structure Snapshot where
  lsn : Lsn
  deriving DecidableEq

set_option linter.dupNamespace false in
structure Transaction where
  id : Nat
  snapshot : Snapshot
  deriving DecidableEq

inductive IsolationLevel where
  | snapshot
  deriving DecidableEq

/-- The trait `Wal` with its default methods; a failed call may change the log. -/
class Wal (W : Type) where
  append : W → Bytes → W × Except TransactionError Lsn
  sync : W → W × Except TransactionError Unit
  currentLsn : W → Lsn := fun _ => 0
  nextTransactionId : W → Nat := fun _ => 1

def commitMarker : UInt8 := 0x43
def rollbackMarker : UInt8 := 0x52

def transactionRecord (marker : UInt8) (transaction : Transaction) : Bytes :=
  marker :: toLeBytes 8 transaction.id ++ toLeBytes 8 transaction.snapshot.lsn

def transactionIdFromRecord (record : Bytes) : Option Nat :=
  if record.length = 17 ∧ (record.head? = some commitMarker ∨ record.head? = some rollbackMarker)
  then some (fromLeBytes (slice record 1 9))
  else none

def outcomeIds (records : List (Lsn × Bytes)) : List Nat :=
  records.filterMap fun record => transactionIdFromRecord record.2

def nextTransactionIdAfterRecords (records : List (Lsn × Bytes)) : Nat :=
  match (outcomeIds records).max? with
  | some id => min (id + 1) (u64Size - 1)
  | none => 1

structure TransactionManager (W : Type) where
  wal : W
  currentLsn : Lsn
  nextTransactionId : Nat
  active : OrderedMap Nat Transaction
  deriving DecidableEq

namespace TransactionManager
variable {W : Type} [Wal W]

def new (wal : W) : TransactionManager W :=
  { wal, currentLsn := Wal.currentLsn wal, nextTransactionId := Wal.nextTransactionId wal,
    active := [] }

def finish (manager : TransactionManager W) (transaction : Transaction) (marker : UInt8) :
    TransactionManager W × Except TransactionError Lsn :=
  if manager.active.get? transaction.id ≠ some transaction then
    (manager, .error (.invalid "transaction is not active"))
  else
    match Wal.append manager.wal (transactionRecord marker transaction) with
    | (wal, .error error) => ({ manager with wal }, .error error)
    | (wal, .ok lsn) =>
      match Wal.sync wal with
      -- The record is in the log and the transaction stays active.
      | (wal, .error error) => ({ manager with wal }, .error error)
      | (wal, .ok ()) =>
        ({ manager with
            wal, active := manager.active.erase transaction.id, currentLsn := lsn }, .ok lsn)

def begin (manager : TransactionManager W) (_isolation : IsolationLevel) :
    TransactionManager W × Except TransactionError Transaction :=
  match checkedAdd manager.nextTransactionId 1 u64Size with
  | none => (manager, .error (.invalid "transaction ID overflows"))
  | some next =>
    let transaction : Transaction := ⟨manager.nextTransactionId, ⟨manager.currentLsn⟩⟩
    ({ manager with
        nextTransactionId := next,
        active := manager.active.insert transaction.id transaction }, .ok transaction)

def commit (manager : TransactionManager W) (transaction : Transaction) :
    TransactionManager W × Except TransactionError Lsn :=
  manager.finish transaction commitMarker

def rollback (manager : TransactionManager W) (transaction : Transaction) :
    TransactionManager W × Except TransactionError Unit :=
  match manager.finish transaction rollbackMarker with
  | (manager, .ok _) => (manager, .ok ())
  | (manager, .error error) => (manager, .error error)

end TransactionManager

/-- A log whose calls may fail: `contents` is what it holds, `durable` the part
that a restart keeps. -/
class LogWal (W : Type) extends Wal W where
  contents : W → List (Lsn × Bytes)
  durable : W → List (Lsn × Bytes)
  durable_contents (wal : W) : durable wal <+: contents wal
  nextTransactionId_eq (wal : W) :
    nextTransactionId wal = nextTransactionIdAfterRecords (contents wal)
  append_ok {wal next : W} {record : Bytes} {lsn : Lsn} : append wal record = (next, .ok lsn) →
    contents next = contents wal ++ [(lsn, record)] ∧ durable next = durable wal
  append_error {wal next : W} {record : Bytes} {error : TransactionError} :
    append wal record = (next, .error error) →
    contents next = contents wal ∧ durable next = durable wal
  sync_ok {wal next : W} : sync wal = (next, .ok ()) →
    contents next = contents wal ∧ durable next = contents wal
  sync_error {wal next : W} {error : TransactionError} : sync wal = (next, .error error) →
    contents next = contents wal ∧ durable next = durable wal

structure MemoryWal where
  records : List (Lsn × Bytes) := []
  lastLsn : Option Lsn := none
  synced : Bool := false
  deriving DecidableEq

namespace MemoryWal

def append (wal : MemoryWal) (record : Bytes) : MemoryWal × Except TransactionError Lsn :=
  match validateRecordSize record with
  | .error error => (wal, .error error)
  | .ok () =>
    match nextLsn wal.lastLsn with
    | .error error => (wal, .error error)
    | .ok lsn => (⟨wal.records ++ [(lsn, record)], some lsn, false⟩, .ok lsn)

def sync (wal : MemoryWal) : MemoryWal × Except TransactionError Unit :=
  ({ wal with synced := true }, .ok ())

variable {wal next : MemoryWal} {record : Bytes} {lsn : Lsn} {error : TransactionError}

theorem append_ok (h : wal.append record = (next, .ok lsn)) :
    next.records = wal.records ++ [(lsn, record)] := by
  unfold append at h
  split at h
  · cases h
  · split at h <;> cases h
    rfl

theorem append_error (h : wal.append record = (next, .error error)) : next = wal := by
  unfold append at h
  split at h
  · cases h
    rfl
  · split at h <;> cases h
    rfl

end MemoryWal

/-- `MemoryWal` on a faulty device: the `n`-th call of `append` or `sync` fails
when the `n`-th entry of `faults` is set.  A restart may lose the last `unsynced` records. -/
structure FaultyWal where
  memory : MemoryWal := {}
  unsynced : Nat := 0
  faults : List Bool
  deriving DecidableEq

namespace FaultyWal

def append (wal : FaultyWal) (record : Bytes) : FaultyWal × Except TransactionError Lsn :=
  if wal.faults.headD false then ({ wal with faults := wal.faults.tail }, .error (.io "append"))
  else
    match wal.memory.append record with
    | (memory, .error error) => (⟨memory, wal.unsynced, wal.faults.tail⟩, .error error)
    | (memory, .ok lsn) => (⟨memory, wal.unsynced + 1, wal.faults.tail⟩, .ok lsn)

def sync (wal : FaultyWal) : FaultyWal × Except TransactionError Unit :=
  if wal.faults.headD false then ({ wal with faults := wal.faults.tail }, .error (.io "sync"))
  else (⟨wal.memory.sync.1, 0, wal.faults.tail⟩, wal.memory.sync.2)

instance : LogWal FaultyWal where
  append := append
  sync := sync
  currentLsn wal := wal.memory.lastLsn.getD 0
  nextTransactionId wal := nextTransactionIdAfterRecords wal.memory.records
  contents wal := wal.memory.records
  durable wal := wal.memory.records.take (wal.memory.records.length - wal.unsynced)
  durable_contents wal := List.take_prefix _ _
  nextTransactionId_eq _ := rfl
  append_ok h := by
    unfold append at h
    split at h
    · cases h
    · split at h <;> cases h
      rename_i happend
      simp [MemoryWal.append_ok happend, List.take_append_of_le_length]
  append_error h := by
    unfold append at h
    split at h
    · cases h
      simp
    · split at h <;> cases h
      rename_i happend
      simp [MemoryWal.append_error happend]
  sync_ok h := by
    unfold sync at h
    split at h <;> cases h
    simp [MemoryWal.sync]
  sync_error h := by
    unfold sync at h
    split at h <;> cases h
    simp

end FaultyWal

end TxBase.Transaction
