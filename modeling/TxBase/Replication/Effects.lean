import TxBase.Catalog.CommitEffects
import TxBase.Replication.Operations

/-! What the operations on a replication log leave: the log in memory, the transaction id of the
catalog and the sidecars move together. -/
namespace TxBase.Replication
open Lib Json Dbf Catalog
open Procedure (run_bind_eq_ok run_done_eq_ok)
variable {disk last : CatalogDisk} {catalog : Catalog} {log result : ReplicationLog}
  {entry : ReplicationEntry}
  {α : Type} {value : α} {expected : Option Bytes}

section Runs
variable [Runtime] [Filters] [Serde] [Indexing] [SchemaExport]

theorem runOn_check {result : Replicated α} :
    (check result).run CatalogOp.exec disk = (.ok value, last) ↔ result = .ok value ∧
      disk = last := by
  unfold check
  rw [Procedure.run_ofExcept_eq_ok, Outcome.lift_eq_ok]

theorem runOn_onCatalog {program : Reading α} :
    (onCatalog program).run CatalogOp.exec disk = (.ok value, last) ↔
      runOn program disk = (.ok value, last) := Procedure.run_mapError_eq_ok

theorem runOn_onCommit {program : Committing α} :
    (onCommit program).run CatalogOp.exec disk = (.ok value, last) ↔
      runOn program disk = (.ok value, last) := Procedure.run_mapError_eq_ok

theorem runOn_currentTransactionId (hlive : catalog.historicalSnapshot = none) {current : Nat} :
    (currentTransactionId catalog).run CatalogOp.exec disk = (.ok current, last) ↔
      Catalog.currentTransactionId disk.state = .ok current ∧ disk = last := by
  unfold currentTransactionId Catalog.transactionId
  rw [hlive]
  simp only [run_bind_eq_ok, runOn_onCatalog, runOn, run_done_eq_ok]
  constructor
  · rintro ⟨found, _, ⟨_, middle, hlock, hread⟩, rfl, rfl⟩
    obtain ⟨-, rfl⟩ := runOn_acquireLock.mp hlock
    rw [show Procedure.run _ _ _ = _ from runOn_readTransactionIdLocked disk, Prod.mk.injEq,
      Outcome.lift_eq_ok] at hread
    exact ⟨currentTransactionId_eq_ok.mpr ⟨found, hread.1, rfl⟩, hread.2⟩
  · rintro ⟨hcurrent, rfl⟩
    obtain ⟨found, hfound, hvalue⟩ := currentTransactionId_eq_ok.mp hcurrent
    refine ⟨found, disk, ⟨(), disk, runOn_acquireLock.mpr ⟨⟨_, hcurrent⟩, rfl⟩, ?_⟩, hvalue, rfl⟩
    rw [show Procedure.run _ _ _ = _ from runOn_readTransactionIdLocked disk, hfound]
    rfl

end Runs

namespace ReplicationEntry

theorem exists_mutation (h : entry.validate = .ok ()) :
    ∃ step ∈ entry.transactionSteps, step.isConstraintCommand = false := by
  unfold validate at h
  simp only [bind_eq_ok, refuse_eq_ok, exists_const] at h
  obtain ⟨_, _, _, _, _, _, _, _, hmutation⟩ := h
  simpa using hmutation

end ReplicationEntry

theorem steps_of_intoMutation {steps : List TransactionStep} {operations : List OperationIr}
    (h : steps.mapM TransactionStep.intoMutation = some operations) :
    steps = operations.map TransactionStep.mutation := by
  induction steps generalizing operations with
  | nil =>
    cases h
    rfl
  | cons step rest ih =>
    simp only [List.mapM_cons, bind_eq_some] at h
    obtain ⟨first, hfirst, others, hothers, h⟩ := h
    cases h
    cases step with
    | mutation operation =>
      cases hfirst
      rw [ih hothers]
      rfl
    | command command => cases hfirst

namespace ReplicationLog
variable [Runtime] [Filters] [Serde] [Indexing] [SchemaExport] [SchemaJson] [EventSerde]
  {preconditions : Option CommitPreconditions}

theorem commitEntry_steps {after : Replicated Bytes} {txn : Nat}
    (h : runOn (commitEntry catalog entry preconditions expected after) disk = (.ok txn, last)) :
    ∃ bytes precondition written, after = .ok bytes ∧
      runOn (catalog.commitStepsInternal entry.transactionSteps precondition
        (some ⟨replicationSidecarName, expected, fun _ => .ok bytes⟩)) disk =
        (.ok (txn, written), last) := by
  unfold runOn commitEntry at h
  split at h
  case h_2 =>
    simp only [run_bind_eq_ok, runOn_check, runOn_onCommit] at h
    obtain ⟨operations, _, ⟨hoperations, rfl⟩, bytes, _, ⟨hafter, rfl⟩, hcommit⟩ := h
    obtain ⟨_, _, hcommit, hdone⟩ := run_bind_eq_ok.mp hcommit
    cases hdone
    split at hoperations
    · rename_i found hfound
      cases hoperations
      rw [steps_of_intoMutation hfound]
      exact ⟨bytes, _, _, hafter, hcommit⟩
    · cases hoperations
  all_goals
    simp only [run_bind_eq_ok, runOn_check, runOn_onCommit] at h
    obtain ⟨bytes, _, ⟨hafter, rfl⟩, hcommit⟩ := h
    obtain ⟨_, _, hcommit, hdone⟩ := run_bind_eq_ok.mp hcommit
    cases hdone
    exact ⟨bytes, _, _, hafter, hcommit⟩

def push (log : ReplicationLog) (entry : ReplicationEntry) : ReplicationLog :=
  { log with entries := log.entries ++ [entry] }

/-- An entry has been applied: the log, the catalog and the sidecar have moved. -/
structure Applied (log : ReplicationLog) (catalog : Catalog) (disk : CatalogDisk)
    (entry : ReplicationEntry)
    (last : CatalogDisk) : Prop where
  live : catalog.historicalSnapshot = none
  valid : (log.push entry).Valid
  position : Catalog.currentTransactionId disk.state = .ok log.lastTransactionId
  stored : disk.sidecars replicationSidecarName = none ∨
    ∃ bytes, disk.sidecars replicationSidecarName = some bytes ∧ log.toSidecarBytes = .ok bytes
  state : last.state = some (Catalog.transactionStateBytes (log.push entry).lastTransactionId)
  sidecars : ∃ bytes, (log.push entry).toSidecarBytes = .ok bytes ∧
    last.sidecars = Function.update disk.sidecars replicationSidecarName (some bytes)

omit [Filters] [Serde] [Indexing] [SchemaExport] [SchemaJson] [EventSerde] in
theorem toSidecarBytes_eq_ok {bytes : Bytes} :
    log.toSidecarBytes = .ok bytes ↔ log.Valid ∧ bytes = magic ++ sidecarVersion :: log.text := by
  unfold toSidecarBytes
  rw [bind_eq_ok]
  constructor
  · rintro ⟨_, hvalid, hbytes⟩
    cases hbytes
    exact ⟨validate_eq_ok.mp hvalid, rfl⟩
  · rintro ⟨hvalid, rfl⟩
    exact ⟨(), validate_eq_ok.mpr hvalid, rfl⟩

omit [Filters] [Serde] [Indexing] [SchemaExport] [SchemaJson] [EventSerde] in
theorem expectedSidecar_eq_ok {actual : Option Bytes}
    (h : log.expectedSidecar actual = .ok expected) :
    expected = actual ∧ (actual = none ∨ ∃ bytes, actual = some bytes ∧
      log.toSidecarBytes = .ok bytes) := by
  cases actual with
  | none =>
    cases h
    exact ⟨rfl, .inl rfl⟩
  | some bytes =>
    simp only [expectedSidecar, bind_eq_ok, raise_eq_ok, not_not, exists_const] at h
    obtain ⟨found, hfound, rfl, h⟩ := h
    cases h
    exact ⟨rfl, .inr ⟨_, rfl, hfound⟩⟩

theorem applyNewWithPreconditions_eq_ok {outcome : ApplyOutcome}
    (h : runOn (log.applyNewWithPreconditions catalog entry preconditions) disk =
      (.ok (outcome, result), last)) :
    result = log.push entry ∧ Applied log catalog disk entry last := by
  unfold runOn applyNewWithPreconditions at h
  simp only [run_bind_eq_ok, runOn_check, runOn_onCatalog, next_eq_ok, raise_eq_ok, not_not,
    refuse_eq_ok, run_done_eq_ok] at h
  obtain ⟨_, _, ⟨⟨_, rfl⟩, rfl⟩, _, _, ⟨_, rfl⟩, _, _, ⟨⟨_, rfl⟩, rfl⟩, _, _, ⟨htransaction, rfl⟩,
    current, first,
    hcurrent, _, _, ⟨hposition, rfl⟩, ⟨_, schemaTag⟩, second, htag, _, _, ⟨_, rfl⟩, actual,
    third, hsidecar,
    expected, _, ⟨hexpected, rfl⟩, txn, fourth, hcommit, _, _, ⟨_, rfl⟩, hdone, rfl⟩ := h
  cases hdone
  obtain ⟨hread, hactual, rfl⟩ := runOn_readSidecarBytes.mp hsidecar
  obtain ⟨rfl, hstored⟩ := expectedSidecar_eq_ok hexpected
  obtain ⟨bytes, precondition, written, hbytes, hcommit⟩ := commitEntry_steps hcommit
  have hvalid : (log.push entry).Valid := (toSidecarBytes_eq_ok.mp hbytes).1
  have hentry : entry.validate = .ok () :=
    (hvalid.placed log.entries.length entry (by simp [push])).valid
  obtain ⟨hlive, -, after, hafter, -, hcommitted⟩ :=
    commitStepsInternal_committed (ReplicationEntry.exists_mutation hentry) hcommit
  cases hafter
  obtain ⟨hstate, rfl⟩ := (runOn_currentTransactionId hlive).mp hcurrent
  have hkept := keeps_of_reads (schemaRepresentation_reads catalog) htag
  have hposition : current = log.lastTransactionId := by
    simpa [ensureCatalogPosition] using hposition
  subst hposition
  obtain ⟨found, hfound, hid, -⟩ := nextTransactionId_eq_ok.mp hcommitted.next
  rw [hkept.state, hstate] at hfound
  cases hfound
  refine ⟨rfl, hlive, hvalid, hstate, ?_, ?_, bytes, hbytes, ?_⟩
  · rw [← hkept.sidecars, hactual]
    exact hstored
  · rw [hcommitted.state, hid]
    simp [push, lastTransactionId, Nat.add_assoc]
  · rw [hcommitted.sidecars, hkept.sidecars]
    rfl

theorem proposeEntry_eq_ok {make : Nat → Nat → Nat → String → Replicated ReplicationEntry}
    {preconditions : CommitPreconditions}
    (h : runOn (log.proposeEntry catalog make preconditions) disk = (.ok (entry, result), last)) :
    ∃ middle, Kept disk middle ∧ result = log.push entry ∧
      Applied log catalog middle entry last := by
  unfold runOn proposeEntry at h
  simp only [run_bind_eq_ok, runOn_check, runOn_onCatalog, run_done_eq_ok] at h
  obtain ⟨current, first, hcurrent, _, _, ⟨_, rfl⟩, _, second, htag, _, _, ⟨_, rfl⟩, _, _,
    ⟨_, rfl⟩, made, _,
    ⟨_, rfl⟩, ⟨outcome, after⟩, third, happly, hdone, rfl⟩ := h
  cases hdone
  obtain ⟨rfl, happlied⟩ := applyNewWithPreconditions_eq_ok happly
  obtain ⟨_, rfl⟩ := (runOn_currentTransactionId happlied.live).mp hcurrent
  exact ⟨second, keeps_of_reads (schemaRepresentation_reads catalog) htag, rfl, happlied⟩

end ReplicationLog

section Proposals
variable [Runtime] [Filters] [Serde] [Indexing] [SchemaExport] [SchemaJson] [EventSerde]

theorem Proposal.run_eq_ok {proposal : Proposal}
    (h : runOn (proposal.run log catalog) disk = (.ok (entry, result), last)) :
    ∃ middle, Kept disk middle ∧ result = log.push entry ∧
      log.Applied catalog middle entry last := by
  cases proposal with
  | ofOperations operations ifMatch ifNoneMatch =>
    unfold Proposal.run ReplicationLog.proposeWithCatalogPreconditions at h
    exact ReplicationLog.proposeEntry_eq_ok h
  | ofSteps steps ifMatch ifNoneMatch =>
    unfold Proposal.run ReplicationLog.proposeStepsWithCatalogPreconditions at h
    exact ReplicationLog.proposeEntry_eq_ok h
  | onTable name operations ifMatch ifNoneMatch =>
    unfold Proposal.run ReplicationLog.proposeWithTablePreconditions at h
    exact ReplicationLog.proposeEntry_eq_ok h

end Proposals

end TxBase.Replication
