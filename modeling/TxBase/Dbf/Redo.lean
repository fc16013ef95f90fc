import TxBase.Dbf.PendingLog

/-! What the redo of a save leaves on disk when it ends normally. -/
namespace TxBase.Dbf
open Lib Json
open Durable (finishes_bind Keeps finishes_ask forSome)
open Outcome (lift_eq_ok)
variable {value : Unit} {txn : Nat} {written : Option MemoSnapshot} {forceNewEpoch : Bool}

section Finishes
variable {disk last : Disk}

theorem finishes_persistRecoveredTransactionId :
    (persistRecoveredTransactionId txn).Finishes disk last value ↔
      ∃ current bytes, disk.readTransactionState = .ok current ∧
        transactionStateBytes (max (current.getD 0) txn) = .ok bytes ∧
        last = { disk with state := some bytes } := by
  simp only [persistRecoveredTransactionId, finishes_bind, finishes_ask, lift_eq_ok,
    finishes_writeTransactionState]
  constructor
  · rintro ⟨_, current, ⟨rfl, hcurrent⟩, bytes, hbytes, hlast⟩
    exact ⟨current, bytes, hcurrent, hbytes, hlast⟩
  · rintro ⟨current, bytes, hcurrent, hbytes, hlast⟩
    exact ⟨disk, current, ⟨rfl, hcurrent⟩, bytes, hbytes, hlast⟩

theorem finishes_applySnapshotPayloads [Indexing] {payload : Option Bytes}
    (h : (forSome payload applySnapshotPayload).Finishes disk last value) :
    ∃ index, last = { disk with index := index } := by
  cases payload with
  | none => exact ⟨disk.index, (Durable.finishes_pure.mp h).1⟩
  | some payload =>
    obtain ⟨bytes, -, rfl⟩ := finishes_applySnapshotPayload.mp h
    exact ⟨_, rfl⟩

variable [Serde]

/-- The change log after the event of a log, if the log has one. -/
def cdcLogSome (event : Option ChangeEvent) (log : LogFile) : Res LogFile :=
  match event with
  | none => .ok log
  | some event => cdcLog event log

theorem finishes_appendCdcs {event : Option ChangeEvent} :
    (forSome event appendCdc).Finishes disk last value ↔
      ∃ log, cdcLogSome event disk.cdc = .ok log ∧ last = { disk with cdc := log } := by
  cases event with
  | none =>
    simp only [Durable.forSome_none, Durable.finishes_pure, cdcLogSome, Except.ok.injEq, and_true]
    constructor
    · rintro rfl
      exact ⟨last.cdc, rfl, rfl⟩
    · rintro ⟨_, rfl, rfl⟩
      rfl
  | some event => exact finishes_appendCdc

variable [Runtime] [Filters]

theorem finishes_commitRecoveredSnapshot {dbf : Bytes} {memo : Option MemoSnapshot} :
    (commitRecoveredSnapshot txn dbf memo forceNewEpoch).Finishes disk last value ↔
      ∃ kept log, recoveredMemo disk dbf memo = .ok kept ∧
        commitLog txn dbf kept disk.schema forceNewEpoch disk.mvcc = .ok log ∧
        last = { disk with mvcc := log } := by
  simp only [commitRecoveredSnapshot, finishes_bind, finishes_ask, lift_eq_ok,
    Except.ok.injEq, finishes_commitSnapshot]
  constructor
  · rintro ⟨_, kept, ⟨rfl, hkept⟩, _, _, ⟨rfl, rfl⟩, log, hlog, hlast⟩
    exact ⟨kept, log, hkept, hlog, hlast⟩
  · rintro ⟨kept, log, hkept, hlog, hlast⟩
    exact ⟨disk, kept, ⟨rfl, hkept⟩, disk, disk.schema, ⟨rfl, rfl⟩, log, hlog, hlast⟩

end Finishes

section Redo
theorem recoveredMemo_congr {other : Disk} {image : Bytes} (h : disk.memo = other.memo) :
    recoveredMemo disk image written = recoveredMemo other image written := by
  unfold recoveredMemo currentMemoSnapshot
  rw [h]

variable [Runtime] [Filters] [Serde] [Indexing] {disk last : Disk}

/-- What is left by a redo of the transaction `transactionId` from images and an event. -/
structure Redone (transactionId : Nat) (image : Bytes) (written : Option MemoSnapshot)
    (forceNewEpoch : Bool) (event : Option ChangeEvent) (disk last : Disk) : Prop where
  dbf : last.dbf = some image
  memo : last.memo = disk.memoAfter written
  schema : last.schema = disk.schema
  history : ∃ kept,
    recoveredMemo { disk with memo := disk.memoAfter written } image written = .ok kept ∧
    commitLog transactionId image kept disk.schema forceNewEpoch disk.mvcc = .ok last.mvcc
  changes : cdcLogSome event disk.cdc = .ok last.cdc
  state : ∃ current bytes, disk.readTransactionState = .ok current ∧
    transactionStateBytes (max (current.getD 0) transactionId) = .ok bytes ∧
    last.state = some bytes
  wal : last.wal = .absent
  exportJournal : last.exportJournal = disk.exportJournal

variable {encoding : Option String} {pending : PendingLog}

theorem redone_of_snapshot {snapshot : RecoverySnapshot} (hid : pending.transactionId = some txn)
    (h : (redoSnapshot encoding pending snapshot).Finishes disk last value) :
    Redone txn snapshot.dbf snapshot.memo pending.forceNewEpoch pending.event disk last := by
  simp only [redoSnapshot, hid, Durable.forSome_some, commitRecovered, finishes_bind,
    finishes_ask,
    finishes_replaceMemos, replaceDbf, Durable.finishes_step, finishes_persistRecoveredTransactionId,
    finishes_commitRecoveredSnapshot, finishes_appendCdcs, finishes_removeWal] at h
  obtain ⟨_, _, ⟨rfl, -⟩, _, -, rfl, _, -, rfl, _, _, hindex, _, -, ⟨_, -, ⟨current, bytes, hcurrent,
    hbytes, rfl⟩, _, -, ⟨kept, log, hkept, hlog, rfl⟩, changes, hchanges, rfl⟩, rfl⟩ := h
  obtain ⟨index, rfl⟩ := finishes_applySnapshotPayloads hindex
  exact ⟨rfl, rfl, rfl, ⟨kept, (recoveredMemo_congr rfl).symm.trans hkept, hlog⟩, hchanges,
    ⟨current, bytes, hcurrent, hbytes, rfl⟩, rfl, rfl⟩

variable {plan : OperationPlan}

theorem planOperation_transactionId {path : String} {operation : OperationIr}
    (hid : pending.transactionId = some txn)
    (h : planOperation path encoding pending operation disk = .ok plan) :
    ∃ current, disk.readTransactionState = .ok current ∧
      plan.transactionId = max (current.getD 0) txn := by
  obtain ⟨found, hfound, h⟩ := bind_eq_ok.mp h
  obtain ⟨current, hcurrent, hfound⟩ := bind_eq_ok.mp (lift_eq_ok.mp hfound)
  rw [hid] at hfound
  cases hfound
  refine ⟨current, hcurrent, ?_⟩
  obtain ⟨before, -, h⟩ := bind_eq_ok.mp h
  simp only [bind_eq_ok] at h
  obtain ⟨-, -, _, -, _, -, _, -, _, -, _, -, _, -, h⟩ := h
  cases h
  rfl

theorem redone_of_operation {current : Option Nat}
    (hcurrent : disk.readTransactionState = .ok current)
    (hle : current.getD 0 ≤ plan.transactionId)
    (h : (redoOperation plan forceNewEpoch).Finishes disk last value) :
    Redone plan.transactionId plan.table.bytes plan.memoSnapshot forceNewEpoch (some plan.event)
      disk last := by
  have hlogged : ∀ {program : Saving Unit} {start stop : Disk} {value : Unit},
      Keeps (fun state => ∃ wal, state = { start with wal := wal }) program →
      program.Finishes start stop value → ∃ wal, stop = { start with wal := wal } :=
    fun hkeeps hrun => hkeeps.finishes ⟨_, rfl⟩ hrun
  have happend : ∀ (start : Disk) (payload : Bytes),
      Keeps (fun state => ∃ wal, state = { start with wal := wal }) (appendWal payload) :=
    fun start payload => keeps_appendWal
      (fun state log hstate => ⟨log, by obtain ⟨wal, rfl⟩ := hstate; rfl⟩) payload
  simp only [redoOperation, finishes_bind, finishes_replaceMemos, replaceDbf, Durable.finishes_step,
    finishes_writeTransactionState, finishes_commitRecoveredSnapshot,
    finishes_appendCdc, finishes_removeWal] at h
  obtain ⟨_, _, hid, _, _, hevent, _, _, hpayload, _, _, hpending, _, -, rfl, _, -,
    rfl, _, _, hindex,
    _, -, ⟨bytes, hbytes, rfl⟩, _, -, ⟨kept, log, hkept, hlog, rfl⟩, _, -, ⟨changes, hchanges, rfl⟩,
    rfl⟩ := h
  obtain ⟨_, rfl⟩ := hlogged (happend _ _) hid
  obtain ⟨_, rfl⟩ := hlogged (.bind (.ask _) fun _ => .when (happend _ _)) hevent
  obtain ⟨_, rfl⟩ := hlogged (happend _ _) hpayload
  obtain ⟨_, rfl⟩ := hlogged (.forSome (happend _)) hpending
  obtain ⟨index, rfl⟩ := finishes_applySnapshotPayloads hindex
  exact ⟨rfl, rfl, rfl, ⟨kept, (recoveredMemo_congr rfl).symm.trans hkept, hlog⟩, hchanges,
    ⟨current, bytes, hcurrent, by rwa [Nat.max_eq_right hle], rfl⟩, rfl, rfl⟩

end Redo

end TxBase.Dbf
