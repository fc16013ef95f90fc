import TxBase.Dbf.SaveSteps

/-! The log of a save: the records that it appends, in order, and what each decoder of
recovery makes of each of them.  Every record begins with the magic of its kind. -/
namespace TxBase.Dbf
open Lib List
open Durable (ask finishes_bind forSome)
variable {kind other : RecordKind} {payload : Bytes} {plan : SavePlan}

/-- The kinds of records in the log of a table. -/
inductive RecordKind where
  | layoutChange
  | operation
  | transactionId
  | event
  | snapshot
  | memoSnapshot
  | delta
  | index
  deriving DecidableEq

namespace RecordKind

def magic : RecordKind → Bytes
  | layoutChange => layoutChangeMagic
  | operation => operationMagic
  | transactionId => transactionIdMagic
  | event => cdcMagic
  | snapshot => snapshotMagic
  | memoSnapshot => memoSnapshotMagic
  | delta => deltaMagic
  | index => indexSnapshotMagic

/-- The record begins with the magic of its kind. -/
def Marks (kind : RecordKind) (payload : Bytes) : Prop := kind.magic <+: payload

theorem magic_length (kind : RecordKind) : kind.magic.length = 4 := by
  cases kind <;> rfl

theorem magic_injective (h : kind.magic = other.magic) : kind = other := by
  revert h
  cases kind <;> cases other <;> decide

theorem Marks.isPrefixOf_other (h : kind.Marks payload) (hne : other ≠ kind) :
    other.magic.isPrefixOf payload = false := by
  obtain ⟨body, rfl⟩ := h
  exact not_isPrefixOf (by rw [magic_length, magic_length]) fun heq => hne (magic_injective heq)

theorem Marks.afterMagic_other (h : kind.Marks payload) (hne : other ≠ kind) :
    afterMagic other.magic payload = none := by
  rw [afterMagic, h.isPrefixOf_other hne]
  rfl

end RecordKind

section
variable (h : kind.Marks payload)
include h

theorem decodeTransactionIdPayload_other (hne : .transactionId ≠ kind) :
    decodeTransactionIdPayload payload = .ok none := by
  rw [decodeTransactionIdPayload, show afterMagic transactionIdMagic payload = none from
    h.afterMagic_other hne]

theorem decodeLayoutChangePayload_other (hne : .layoutChange ≠ kind) :
    decodeLayoutChangePayload payload = .ok none := by
  rw [decodeLayoutChangePayload, show afterMagic layoutChangeMagic payload = none from
    h.afterMagic_other hne]

theorem decodeCdcPayload_other [Serde] (hne : .event ≠ kind) :
    decodeCdcPayload payload = .ok none := by
  rw [decodeCdcPayload, show afterMagic cdcMagic payload = none from h.afterMagic_other hne]

theorem decodeSnapshotPayload_other [Indexing] (hne : .index ≠ kind) :
    decodeSnapshotPayload payload = .ok none := by
  rw [decodeSnapshotPayload, show afterMagic indexSnapshotMagic payload = none from
    h.afterMagic_other hne]

theorem decodeOperationPayload_other [Serde] (hne : .operation ≠ kind) :
    decodeOperationPayload payload = .ok none := by
  rw [decodeOperationPayload, show afterMagic operationMagic payload = none from
    h.afterMagic_other hne]

end

theorem decodeWalPayload_other [Serde] (files : TableFiles) (h : kind.Marks payload) :
    decodeWalPayload files payload =
      match kind with
      | .operation => (decodeOperationPayload payload).map fun _ => none
      | .transactionId => (decodeTransactionIdPayload payload).map fun _ => none
      | .layoutChange => (decodeLayoutChangePayload payload).map fun _ => none
      | .event | .index => .ok none
      | .delta => decodeDeltaPayload files payload
      | .snapshot | .memoSnapshot => decodeSnapshot payload := by
  have hself : kind.magic.isPrefixOf payload = true := isPrefixOf_iff_prefix.mpr h
  have hdelta : kind ≠ .delta → deltaMagic.isPrefixOf payload = false := fun hne =>
    h.isPrefixOf_other (Ne.symm hne)
  have hoperation : kind ≠ .operation → operationMagic.isPrefixOf payload = false := fun hne =>
    h.isPrefixOf_other (Ne.symm hne)
  have hid : kind ≠ .transactionId → transactionIdMagic.isPrefixOf payload = false := fun hne =>
    h.isPrefixOf_other (Ne.symm hne)
  have hlayout : kind ≠ .layoutChange → layoutChangeMagic.isPrefixOf payload = false := fun hne =>
    h.isPrefixOf_other (Ne.symm hne)
  have hplain : kind ≠ .snapshot → kind ≠ .memoSnapshot → decodeSnapshot payload = .ok none := by
    intro hsnapshot hmemo
    rw [decodeSnapshot, show afterMagic snapshotMagic payload = none from
      h.afterMagic_other (Ne.symm hsnapshot)]
    dsimp only
    rw [show afterMagic memoSnapshotMagic payload = none from h.afterMagic_other (Ne.symm hmemo)]
  unfold decodeWalPayload
  cases kind <;> simp_all [RecordKind.magic] <;> rfl

section Find
variable {α : Type} {decode : Bytes → Checked (Option α)} {payloads : List Bytes}

theorem findPayload_eq_none :
    findPayload decode payloads = .ok none ↔ ∀ payload ∈ payloads, decode payload = .ok none := by
  induction payloads with
  | nil => simp [findPayload]
  | cons payload rest ih =>
    rw [findPayload, forall_mem_cons, ← ih, bind_eq_ok]
    constructor
    · rintro ⟨found, hfound, h⟩
      cases found with
      | none => exact ⟨hfound, h⟩
      | some value => cases h
    · rintro ⟨hfound, h⟩
      exact ⟨none, hfound, h⟩

variable {value : α}

theorem findPayload_eq_some
    (hall : ∀ payload ∈ payloads, decode payload = .ok none ∨ decode payload = .ok (some value))
    (hone : ∃ payload ∈ payloads, decode payload = .ok (some value)) :
    findPayload decode payloads = .ok (some value) := by
  induction payloads with
  | nil =>
    obtain ⟨payload, hmem, -⟩ := hone
    cases hmem
  | cons payload rest ih =>
    rw [findPayload]
    rcases hall payload mem_cons_self with hnone | hsome
    · obtain ⟨found, hmem, hfound⟩ := hone
      rcases mem_cons.mp hmem with rfl | hmem
      · rw [hnone] at hfound
        cases hfound
      · simpa only [hnone, bind, Except.bind] using
          ih (forall_mem_cons.mp hall).2 ⟨found, hmem, hfound⟩
    · simp only [hsome, bind, Except.bind]

theorem findPayload_mem (h : findPayload decode payloads = .ok (some value)) :
    ∃ payload ∈ payloads, decode payload = .ok (some value) := by
  induction payloads with
  | nil => cases h
  | cons payload rest ih =>
    rw [findPayload] at h
    obtain ⟨found, hfound, h⟩ := bind_eq_ok.mp h
    cases found with
    | some found =>
      cases h
      exact ⟨payload, mem_cons_self, hfound⟩
    | none =>
      obtain ⟨other, hmem, hother⟩ := ih h
      exact ⟨other, mem_cons_of_mem _ hmem, hother⟩

theorem findLastPayload_mem (h : findLastPayload decode payloads = .ok (some value)) :
    ∃ payload ∈ payloads, decode payload = .ok (some value) := by
  obtain ⟨payload, hmem, hpayload⟩ := findPayload_mem h
  exact ⟨payload, mem_reverse.mp hmem, hpayload⟩

theorem findLastPayload_eq_none :
    findLastPayload decode payloads = .ok none ↔
      ∀ payload ∈ payloads, decode payload = .ok none := by
  rw [findLastPayload, findPayload_eq_none]
  simp only [mem_reverse]

theorem findLastPayload_eq_some
    (hall : ∀ payload ∈ payloads, decode payload = .ok none ∨ decode payload = .ok (some value))
    (hone : ∃ payload ∈ payloads, decode payload = .ok (some value)) :
    findLastPayload decode payloads = .ok (some value) := by
  refine findPayload_eq_some (fun payload hmem => hall payload (mem_reverse.mp hmem)) ?_
  obtain ⟨payload, hmem, h⟩ := hone
  exact ⟨payload, mem_reverse.mpr hmem, h⟩

theorem findPayload_append_none {before : List Bytes}
    (h : ∀ payload ∈ before, decode payload = .ok none) :
    findPayload decode (before ++ payloads) = findPayload decode payloads := by
  induction before with
  | nil => rfl
  | cons payload rest ih =>
    rw [cons_append, findPayload, h payload mem_cons_self]
    exact ih (forall_mem_cons.mp h).2

theorem findLastPayload_append_none {behind : List Bytes}
    (h : ∀ payload ∈ behind, decode payload = .ok none) :
    findLastPayload decode (payloads ++ behind) = findLastPayload decode payloads := by
  rw [findLastPayload, reverse_append]
  exact findPayload_append_none fun payload hmem => h payload (mem_reverse.mp hmem)

end Find

/-! ## The records of one save -/

/-- The layout marker of a save. -/
def SavePlan.marker (plan : SavePlan) : List Bytes :=
  if plan.layoutChanged then [layoutChangePayload] else []

theorem eq_of_mem_marker (h : payload ∈ plan.marker) : payload = layoutChangePayload := by
  unfold SavePlan.marker at h
  split at h
  · exact mem_singleton.mp h
  · cases h

/-- The records of a save, in order: its layout marker, the operation if one is logged, and
the records of the transaction. -/
def SavePlan.records (plan : SavePlan) (operation : Option Bytes) : List Bytes :=
  plan.marker ++ (operation.toList ++
    (transactionIdPayload plan.transactionId :: plan.cdcPayload :: plan.payload ::
      plan.indexPayload.toList))

def appendAll : List Bytes → Saving Unit
  | [] => pure ()
  | record :: rest => do
      appendWal record
      appendAll rest

section Append
variable {disk last : Disk} {base records : List Bytes}

theorem LogFile.append_records {log : LogFile} (h : log = .records base) (record : Bytes) :
    log.append record = .records (base ++ [record]) := by
  rw [h, LogFile.append]

theorem appendAll_append (records others : List Bytes) :
    appendAll (records ++ others) = (do appendAll records; appendAll others) := by
  induction records with
  | nil => simp [appendAll]
  | cons record rest ih => simp only [cons_append, appendAll, ih, bind_assoc]

theorem finishes_appendAll {value : Unit} (hwal : disk.wal = .records base) :
    (appendAll records).Finishes disk last value ↔
      (∀ record ∈ records, checkRecordSize record = .ok ()) ∧
        last = { disk with wal := .records (base ++ records) } := by
  induction records generalizing disk base with
  | nil =>
    simp only [appendAll, Durable.finishes_pure, not_mem_nil, false_implies, implies_true,
      true_and, append_nil, and_true, ← hwal]
  | cons record rest ih =>
    simp only [appendAll, finishes_bind, finishes_appendWal, forall_mem_cons]
    constructor
    · rintro ⟨_, -, ⟨hfits, rfl⟩, hrest⟩
      obtain ⟨hall, rfl⟩ := (ih (LogFile.append_records hwal record)).mp hrest
      exact ⟨⟨hfits, hall⟩, by simp⟩
    · rintro ⟨⟨hfits, hall⟩, rfl⟩
      refine ⟨_, (), ⟨hfits, rfl⟩, ?_⟩
      exact (ih (LogFile.append_records hwal record)).mpr ⟨hall, by simp⟩

/-- `FileWal::append` takes the record. -/
def fits (record : Bytes) : Bool := decide (record.length ≤ Transaction.maxWalRecordSize)

theorem fits_eq_true {record : Bytes} : fits record = true ↔ checkRecordSize record = .ok () := by
  unfold fits checkRecordSize Transaction.validateRecordSize
  split <;> rename_i h <;> split at h <;> simp_all

theorem fails_appendAll {stop : Stop DbfError} (hwal : disk.wal = .records base)
    (h : (appendAll records).Fails disk last stop) :
    last = { disk with wal := .records (base ++ records.takeWhile fits) } ∧
      ∃ record ∈ records, checkRecordSize record ≠ .ok () := by
  induction records generalizing disk base with
  | nil => exact absurd h Durable.not_fails_pure
  | cons record rest ih =>
    rcases Durable.fails_bind.mp h with hfirst | ⟨_, _, hfirst, hrest⟩
    · simp only [appendWal, Durable.fails_bind, Durable.fails_ask, Durable.not_fails_step,
        and_false, exists_false, or_false] at hfirst
      obtain ⟨rfl, hcheck⟩ := hfirst
      have hover : checkRecordSize record ≠ .ok () := by
        intro hok
        rw [hok] at hcheck
        cases hcheck
      refine ⟨?_, record, mem_cons_self, hover⟩
      rw [takeWhile_cons_of_neg (fun hfits => hover (fits_eq_true.mp hfits)), append_nil,
        ← hwal]
    · obtain ⟨hfits, rfl⟩ := finishes_appendWal.mp hfirst
      obtain ⟨rfl, other, hmem, hover⟩ := ih (LogFile.append_records hwal record) hrest
      refine ⟨?_, other, mem_cons_of_mem _ hmem, hover⟩
      rw [takeWhile_cons_of_pos (fits_eq_true.mpr hfits)]
      simp

theorem passed_appendAll (hwal : disk.wal = .records base) :
    ∀ state ∈ (appendAll records disk).passed, ∃ written, written <+: records ∧ written ≠ [] ∧
      state = { disk with wal := .records (base ++ written) } := by
  induction records generalizing disk base with
  | nil => exact fun _ hmem => (nomatch hmem)
  | cons record rest ih =>
    intro state hmem
    simp only [appendAll, appendWal, Durable.passed_bind, Durable.not_passed_ask,
      Durable.passed_step, false_or, finishes_bind, Durable.finishes_ask,
      Durable.finishes_step] at hmem
    have happend := LogFile.append_records hwal record
    rcases hmem with ⟨_, -, ⟨rfl, -⟩, rfl⟩ | ⟨_, -, ⟨_, -, ⟨rfl, -⟩, rfl⟩, hrest⟩
    · exact ⟨[record], by simp, by simp, by rw [happend]⟩
    · obtain ⟨written, hwritten, -, rfl⟩ := ih happend state hrest
      exact ⟨record :: written, by simpa using hwritten, by simp, by simp⟩

end Append

section Log
theorem appendAll_marker (plan : SavePlan) :
    appendAll plan.marker = Durable.when plan.layoutChanged (appendWal layoutChangePayload) := by
  unfold SavePlan.marker
  cases plan.layoutChanged <;> simp [appendAll]

variable [Serde] {operation : Option OperationIr}

def operationRecord : Option OperationIr → Checked (Option Bytes)
  | none => .ok none
  | some operation => do
      let record ← operationPayload operation
      .ok (some record)

theorem logSave_eq {record : Option Bytes} (h : operationRecord operation = .ok record) :
    logSave plan operation = (do let _ ← openWal; appendAll (plan.records record)) := by
  have hrest : (do
      appendWal (transactionIdPayload plan.transactionId)
      appendWal plan.cdcPayload
      appendWal plan.payload
      forSome plan.indexPayload appendWal) = appendAll
        (transactionIdPayload plan.transactionId :: plan.cdcPayload :: plan.payload ::
          plan.indexPayload.toList) := by
    cases plan.indexPayload <;> simp [appendAll]
  have hoperation : forSome operation logOperation = appendAll record.toList := by
    cases operation with
    | none => cases h; rfl
    | some operation =>
      obtain ⟨payload, hpayload, h⟩ := bind_eq_ok.mp h
      cases h
      simp only [Durable.forSome_some, logOperation, hpayload, Option.toList_some, appendAll,
        bind_pure_unit]
      rfl
  rw [logSave, hoperation, hrest, SavePlan.records, appendAll_append, appendAll_append,
    appendAll_marker]

theorem logSave_error {error : DbfError} (h : operationRecord operation = .error error) :
    logSave plan operation =
      (do let _ ← openWal; appendAll plan.marker; ask fun _ => Outcome.fail error) := by
  cases operation with
  | none => cases h
  | some operation =>
    have hpayload : operationPayload operation = .error error := by
      cases hpayload : operationPayload operation with
      | error other => simpa [operationRecord, hpayload, bind, Except.bind] using h
      | ok record => simp [operationRecord, hpayload, bind, Except.bind] at h
    rw [logSave, appendAll_marker]
    simp only [Durable.forSome_some, logOperation, hpayload, bind_assoc]
    rfl

end Log

end TxBase.Dbf
