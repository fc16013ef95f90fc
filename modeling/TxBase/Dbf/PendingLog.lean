import TxBase.Dbf.SaveLog

/-! What recovery reads from the log of a save that was stopped: the transaction of the
save, its event, its layout marker, and the record that it is redone from. -/
namespace TxBase.Dbf
open Lib Json List
open Durable (finishes_bind finishes_ask finishes_pure)
open Outcome (lift_eq_ok)
variable {event : ChangeEvent} {payload : Bytes} {path : String} {disk : Disk}
  {payloads : List Bytes}

/-- What the text of an event keeps whatever numbers its rows hold: the transaction, the
reset flag, and which rows have which sides. -/
def ChangeEvent.outline (event : ChangeEvent) : Nat × Bool × List (Nat × Bool × Bool) :=
  (event.transactionId, event.reset, event.changes.map fun change =>
    (change.recordNumber, change.before.isSome, change.after.isSome))

/-- `serde_json` reads an event back from the text that it wrote. -/
def Serde.KeepsEvent [Serde] (event : ChangeEvent) : Prop :=
  ∀ body, Serde.eventToVec event = .ok body →
    ∃ read, Serde.eventFromSlice body = .ok read ∧ read.outline = event.outline

theorem validateChanges_outline {left right : List ChangeRecord} {previous : Nat}
    (h : left.map (fun change => (change.recordNumber, change.before.isSome, change.after.isSome)) =
      right.map fun change => (change.recordNumber, change.before.isSome, change.after.isSome)) :
    validateChanges previous left = validateChanges previous right := by
  induction left generalizing right previous with
  | nil => rw [map_eq_nil_iff.mp h.symm]
  | cons change rest ih =>
    cases right with
    | nil => cases h
    | cons other others =>
      simp only [map_cons, List.cons.injEq, Prod.mk.injEq] at h
      obtain ⟨⟨hnumber, hbefore, hafter⟩, hrest⟩ := h
      have hnone : ∀ {left right : Option ChangeState}, left.isSome = right.isSome →
          left.isNone = right.isNone := by
        intro left right h
        cases left <;> cases right <;> simp_all
      simp only [validateChanges, hnumber, hnone hbefore, hnone hafter, ih hrest]

theorem validateEvent_outline {left right : ChangeEvent} (h : left.outline = right.outline) :
    validateEvent left = validateEvent right := by
  simp only [ChangeEvent.outline, Prod.mk.injEq] at h
  rw [validateEvent, validateEvent, h.1, validateChanges_outline h.2.2]

section Records
theorem marks_magic (kind : RecordKind) (body : Bytes) : kind.Marks (kind.magic ++ body) :=
  prefix_append _ _

theorem marks_layoutChange : RecordKind.layoutChange.Marks layoutChangePayload :=
  marks_magic .layoutChange [1]

theorem marks_transactionId (txn : Nat) :
    RecordKind.transactionId.Marks (transactionIdPayload txn) :=
  marks_magic .transactionId _

theorem decodeTransactionIdPayload_payload {txn : Nat} (hpositive : txn ≠ 0)
    (hsmall : txn < u64Size) :
    decodeTransactionIdPayload (transactionIdPayload txn) = .ok (some txn) := by
  have hid : fromLeBytes (slice (1 :: toLeBytes 8 txn) 1 9) = txn :=
    fromLeBytes_slice 8 [1] prefix_rfl rfl rfl hsmall
  simp [decodeTransactionIdPayload, transactionIdPayload, hid, hpositive]

theorem marks_redoPayload {source : Option PersistedState} {bytes : Bytes}
    {memo : Option MemoSnapshot}
    (h : redoPayload source bytes path memo = .ok payload) :
    ∃ kind : RecordKind, kind.Marks payload ∧
      (kind = .snapshot ∨ kind = .memoSnapshot ∨ kind = .delta) := by
  obtain ⟨full, hfull, h⟩ := bind_eq_ok.mp h
  obtain ⟨delta, hdelta, h⟩ := bind_eq_ok.mp h
  cases delta with
  | some delta =>
    cases h
    obtain ⟨_, _, _, _, _, _, _, ⟨_, rfl⟩ | ⟨_, _, _, _, _, _, _, _, rfl⟩⟩ :=
      deltaPayload_eq_some hdelta
    · exact ⟨.delta, marks_magic .delta _, .inr (.inr rfl)⟩
    · exact ⟨.delta, marks_magic .delta _, .inr (.inr rfl)⟩
  | none =>
    cases h
    unfold fullPayload at hfull
    split at hfull
    · unfold memoSnapshotPayload at hfull
      split at hfull
      · cases hfull
      · split at hfull
        · cases hfull
        · cases hfull
          exact ⟨.memoSnapshot, marks_magic .memoSnapshot _, .inr (.inl rfl)⟩
    · cases hfull
      exact ⟨.snapshot, marks_magic .snapshot _, .inl rfl⟩

theorem decodeDeltaPayload_ne_none (files : TableFiles) :
    decodeDeltaPayload files payload ≠ .ok none := by
  intro hnone
  unfold decodeDeltaPayload at hnone
  simp only [bind, Except.bind] at hnone
  repeat' split at hnone
  all_goals cases hnone

theorem checkRecordSize_eq_ok :
    checkRecordSize payload = .ok () ↔ payload.length ≤ Transaction.maxWalRecordSize := by
  rw [← fits_eq_true, fits, decide_eq_true_iff]

theorem transactionIdPayload_fits (txn : Nat) :
    checkRecordSize (transactionIdPayload txn) = .ok () := by
  rw [checkRecordSize_eq_ok, transactionIdPayload, length_append, length_cons,
    toLeBytes_length]
  decide

variable [Serde]

theorem cdcPayload_eq_ok (h : cdcPayload event = .ok payload) :
    ∃ body, validateEvent event = .ok () ∧ Serde.eventToVec event = .ok body ∧
      body.length < u32Size ∧ cdcHeaderSize + body.length ≤ Transaction.maxWalRecordSize ∧
      payload = cdcMagic ++ 1 :: (toLeBytes 4 body.length ++ body) := by
  obtain ⟨⟨⟩, hvalid, h⟩ := bind_eq_ok.mp h
  split at h
  · cases h
  · rename_i body hbody
    simp only [bind_eq_ok, reject_eq_ok, Nat.not_le, Nat.not_lt] at h
    obtain ⟨-, hsmall, -, hfits, h⟩ := h
    cases h
    exact ⟨body, hvalid, hbody, hsmall, hfits, rfl⟩

theorem marks_cdcPayload (h : cdcPayload event = .ok payload) : RecordKind.event.Marks payload := by
  obtain ⟨body, -, -, -, -, rfl⟩ := cdcPayload_eq_ok h
  exact marks_magic .event _

theorem decodeCdcPayload_cdcPayload (hserde : Serde.KeepsEvent event)
    (h : cdcPayload event = .ok payload) :
    ∃ read, decodeCdcPayload payload = .ok (some read) ∧ read.outline = event.outline := by
  obtain ⟨body, hvalid, hbody, hsmall, -, rfl⟩ := cdcPayload_eq_ok h
  obtain ⟨read, hread, houtline⟩ := hserde body hbody
  refine ⟨read, ?_, houtline⟩
  have hlength : fromLeBytes (slice (1 :: (toLeBytes 4 body.length ++ body)) 1 5) = body.length :=
    fromLeBytes_slice 4 [1] (prefix_append _ body) rfl rfl hsmall
  have hdrop : (1 :: (toLeBytes 4 body.length ++ body)).drop 5 = body := by
    rw [drop_succ_cons, drop_left' (toLeBytes_length 4 _)]
  simp only [decodeCdcPayload, afterMagic_append, hdrop, hlength, hread,
    validateEvent_outline houtline, hvalid]
  simp [reject, bind, Except.bind, show ¬ 4 + body.length + 1 < 5 by omega]

theorem marks_operationPayload {operation : OperationIr}
    (h : operationPayload operation = .ok payload) :
    RecordKind.operation.Marks payload := by
  unfold operationPayload at h
  split at h
  · cases h
  · split at h
    · cases h
    · cases h
      exact marks_magic .operation _

theorem decodeOperationPayload_ne_none (h : RecordKind.operation.Marks payload) :
    decodeOperationPayload payload ≠ .ok none := by
  obtain ⟨body, rfl⟩ := h
  simp only [decodeOperationPayload, show RecordKind.operation.magic = operationMagic from rfl,
    afterMagic_append]
  intro hnone
  repeat' split at hnone
  all_goals first | contradiction | cases hnone

theorem decodeWalPayload_ne_none {kind : RecordKind} (h : kind.Marks payload)
    (hkind : kind = .snapshot ∨ kind = .memoSnapshot ∨ kind = .delta) (files : TableFiles) :
    decodeWalPayload files payload ≠ .ok none := by
  rw [decodeWalPayload_other files h]
  rcases hkind with rfl | rfl | rfl
  · obtain ⟨body, rfl⟩ := h
    simp [decodeSnapshot, RecordKind.magic]
  · intro hnone
    have hother := h.afterMagic_other (show RecordKind.snapshot ≠ .memoSnapshot by decide)
    obtain ⟨body, rfl⟩ := h
    simp only [RecordKind.magic] at hother hnone
    unfold decodeSnapshot at hnone
    simp only [hother, afterMagic_append, bind, Except.bind] at hnone
    repeat' split at hnone
    all_goals cases hnone
  · exact decodeDeltaPayload_ne_none files

theorem cdcPayload_fits (h : cdcPayload event = .ok payload) : checkRecordSize payload = .ok () := by
  obtain ⟨body, -, -, -, hfits, rfl⟩ := cdcPayload_eq_ok h
  rw [checkRecordSize_eq_ok, length_append, length_cons, length_append,
    toLeBytes_length]
  have hmagic : cdcMagic.length = 4 := rfl
  unfold cdcHeaderSize at hfits
  omega

end Records

theorem noteLayoutChanges_none {found : Bool}
    (h : ∀ payload ∈ payloads, decodeLayoutChangePayload payload = .ok none) :
    payloads.foldlM noteLayoutChange found = .ok found := by
  induction payloads with
  | nil => rfl
  | cons payload rest ih =>
    rw [foldlM_cons, noteLayoutChange, h payload mem_cons_self]
    simp only [bind, Except.bind, Option.getD_none, Bool.or_false]
    exact ih (forall_mem_cons.mp h).2

theorem noteLayoutChanges_marker (plan : SavePlan) :
    plan.marker.foldlM noteLayoutChange false = .ok plan.layoutChanged := by
  unfold SavePlan.marker
  cases plan.layoutChanged <;> rfl

/-! ## The records of one save, by kind -/

section Kinds
variable [Runtime] [Filters] [Serde] [Indexing] {table : DbfTable} {plan : SavePlan}
  {operation : Option OperationIr} {record : Option Bytes}

/-- Of each kind a save logs one record at most. -/
structure RecordOf (plan : SavePlan) (operation : Option OperationIr) (payload : Bytes)
    (kind : RecordKind) : Prop where
  marks : kind.Marks payload
  layoutChange : kind = .layoutChange → payload = layoutChangePayload ∧ plan.layoutChanged = true
  operation : kind = .operation → operation.isSome
  transactionId : kind = .transactionId → payload = transactionIdPayload plan.transactionId
  event : kind = .event → payload = plan.cdcPayload
  redo : kind = .snapshot ∨ kind = .memoSnapshot ∨ kind = .delta → payload = plan.payload

section
variable (hplan : Planned table path disk plan)
include hplan

theorem marks_indexPayload (h : plan.indexPayload = some payload) :
    RecordKind.index.Marks payload := by
  obtain ⟨bytes, -, hbytes⟩ := bind_eq_ok.mp hplan.index
  rw [Except.ok.injEq] at hbytes
  rw [← hbytes, Option.map_eq_some_iff] at h
  obtain ⟨body, -, rfl⟩ := h
  exact marks_magic .index body

theorem records_kind (hrecord : operationRecord operation = .ok record) :
    ∀ payload ∈ plan.records record, ∃ kind, RecordOf plan operation payload kind := by
  intro payload hmem
  simp only [SavePlan.records, mem_append, mem_cons, Option.mem_toList] at hmem
  rcases hmem with hmarker | hoperation | rfl | rfl | rfl | hindex
  · unfold SavePlan.marker at hmarker
    split at hmarker
    · rename_i hlayout
      rw [mem_singleton.mp hmarker]
      exact ⟨.layoutChange, marks_layoutChange, fun _ => ⟨rfl, hlayout⟩, by simp, by simp, by simp,
        by simp⟩
    · cases hmarker
  · cases operation with
    | none =>
      cases hrecord
      cases hoperation
    | some operation =>
      obtain ⟨encoded, hencoded, hrecord⟩ := bind_eq_ok.mp hrecord
      cases hrecord
      cases hoperation
      exact ⟨.operation, marks_operationPayload hencoded, by simp, fun _ => rfl, by simp,
        by simp, by simp⟩
  · exact ⟨.transactionId, marks_transactionId _, by simp, by simp, fun _ => rfl, by simp, by simp⟩
  · exact ⟨.event, marks_cdcPayload hplan.cdc, by simp, by simp, by simp, fun _ => rfl, by simp⟩
  · obtain ⟨kind, hkind, hone⟩ := marks_redoPayload hplan.payload
    refine ⟨kind, hkind, ?_, ?_, ?_, ?_, fun _ => rfl⟩
    all_goals
      rintro rfl
      rcases hone with hone | hone | hone <;> cases hone
  · exact ⟨.index, marks_indexPayload hplan hindex, by simp, by simp, by simp, by simp, by simp⟩

theorem records_transactionId (hrecord : operationRecord operation = .ok record) :
    ∀ payload ∈ plan.records record, decodeTransactionIdPayload payload = .ok none ∨
      decodeTransactionIdPayload payload = .ok (some plan.transactionId) := by
  obtain ⟨current, -, hnext⟩ := hplan.transactionId
  obtain ⟨hid, hsmall⟩ := nextTransactionId_eq_ok.mp hnext
  intro payload hmem
  obtain ⟨kind, hkind⟩ := records_kind hplan hrecord payload hmem
  by_cases hone : .transactionId = kind
  · rw [hkind.transactionId hone.symm]
    exact .inr (decodeTransactionIdPayload_payload (by omega) hsmall)
  · exact .inl (decodeTransactionIdPayload_other hkind.marks hone)

theorem records_operation :
    ∀ payload ∈ plan.records none, decodeOperationPayload payload = .ok none := by
  intro payload hmem
  obtain ⟨kind, hkind⟩ :=
    records_kind hplan (show operationRecord none = .ok none from rfl) payload hmem
  refine decodeOperationPayload_other hkind.marks ?_
  rintro rfl
  cases hkind.operation rfl

end

end Kinds

section Pending
variable [Serde] {found : Option ChangeEvent}

theorem mergeEvent_none (h : decodeCdcPayload payload = .ok none) :
    mergeEvent found payload = .ok found := by
  simp only [mergeEvent, h, bind, Except.bind]

theorem mergeEvents_none (h : ∀ payload ∈ payloads, decodeCdcPayload payload = .ok none) :
    payloads.foldlM mergeEvent found = .ok found := by
  induction payloads with
  | nil => rfl
  | cons payload rest ih =>
    rw [foldlM_cons, mergeEvent_none (h payload mem_cons_self)]
    exact ih (forall_mem_cons.mp h).2

theorem eventFromWal_eq_none :
    eventFromWal payloads = .ok none ↔ ∀ payload ∈ payloads,
      decodeCdcPayload payload = .ok none := by
  refine ⟨fun h => ?_, fun h => mergeEvents_none h⟩
  unfold eventFromWal at h
  induction payloads with
  | nil => exact nofun
  | cons payload rest ih =>
    rw [foldlM_cons] at h
    obtain ⟨found, hfound, hrest⟩ := bind_eq_ok.mp h
    obtain ⟨candidate, hcandidate, hmerge⟩ := bind_eq_ok.mp hfound
    cases candidate with
    | none =>
      cases hmerge
      exact forall_mem_cons.mpr ⟨hcandidate, ih hrest⟩
    | some candidate =>
      -- Once an event was found, the fold does not lose it.
      cases hmerge
      have hkept := foldlM_invariant (P := fun found : Option ChangeEvent => found.isSome = true)
        (by
          intro state item next _ hstate hnext
          obtain ⟨other, -, hmerge⟩ := bind_eq_ok.mp hnext
          cases state with
          | none => cases hstate
          | some state =>
            cases other with
            | none => cases hmerge; rfl
            | some other =>
              obtain ⟨-, -, hmerge⟩ := bind_eq_ok.mp hmerge
              cases hmerge
              rfl) rfl hrest
      cases hkept

theorem eventFromWal_eq_some {before behind : List Bytes}
    (hbefore : ∀ other ∈ before, decodeCdcPayload other = .ok none)
    (hevent : decodeCdcPayload payload = .ok (some event))
    (hbehind : ∀ other ∈ behind, decodeCdcPayload other = .ok none) :
    eventFromWal (before ++ payload :: behind) = .ok (some event) := by
  have hmerge : mergeEvent none payload = .ok (some event) := by
    simp only [mergeEvent, hevent, bind, Except.bind]
  rw [eventFromWal, foldlM_append, mergeEvents_none hbefore]
  simp only [bind, Except.bind, foldlM_cons, hmerge]
  exact mergeEvents_none hbehind

variable [Indexing]

/-- A log that recovery leaves as it is: no transaction, nothing to redo. -/
structure Idle (files : TableFiles) (payloads : List Bytes) : Prop where
  index : ∃ index, findLastPayload (fun payload =>
    indexed (decodeSnapshotPayload payload)) payloads =
    .ok index
  transactionId : ∀ payload ∈ payloads, decodeTransactionIdPayload payload = .ok none
  event : ∀ payload ∈ payloads, decodeCdcPayload payload = .ok none
  layout : ∃ found, payloads.foldlM noteLayoutChange false = .ok found
  snapshot : ∀ payload ∈ payloads, decodeWalPayload files payload = .ok none
  operation : ∀ payload ∈ payloads, decodeOperationPayload payload = .ok none

variable {pending : PendingLog}

theorem readPending_eq_ok :
    readPending disk payloads = .ok pending ↔
      findLastPayload (fun payload => indexed (decodeSnapshotPayload payload)) payloads =
          .ok pending.indexPayload ∧
        findLastPayload decodeTransactionIdPayload payloads = .ok pending.transactionId ∧
        eventFromWal payloads = .ok pending.event ∧
        checkLoggedEvent pending.event pending.transactionId = .ok () ∧
        payloads.foldlM noteLayoutChange false = .ok pending.forceNewEpoch ∧
        findLastPayload (decodeWalPayload disk.files) payloads = .ok pending.snapshot := by
  simp only [readPending, bind_eq_ok]
  constructor
  · rintro ⟨_, hindex, _, hid, _, hevent, ⟨⟩, hcheck, _, hlayout, _, hsnapshot, h⟩
    cases h
    exact ⟨hindex, hid, hevent, hcheck, hlayout, hsnapshot⟩
  · rintro ⟨hindex, hid, hevent, hcheck, hlayout, hsnapshot⟩
    exact ⟨_, hindex, _, hid, _, hevent, (), hcheck, _, hlayout, _, hsnapshot, rfl⟩

theorem Idle.readPending (h : Idle disk.files payloads) :
    ∃ pending, readPending disk payloads = .ok pending ∧ pending.transactionId = none ∧
      pending.snapshot = none := by
  obtain ⟨index, hindex⟩ := h.index
  obtain ⟨found, hfound⟩ := h.layout
  exact ⟨⟨index, none, none, found, none⟩, readPending_eq_ok.mpr ⟨hindex,
    findLastPayload_eq_none.mpr h.transactionId, eventFromWal_eq_none.mpr h.event, rfl, hfound,
    findLastPayload_eq_none.mpr h.snapshot⟩, rfl, rfl⟩

variable [Runtime] [Filters] {last : Disk} {encoding : Option String}

theorem finishes_recover_empty (hwal : disk.wal = .records []) :
    (recoverWalWithEncoding path encoding).Finishes disk { disk with wal := .absent } false := by
  simp only [recoverWalWithEncoding, finishes_bind, finishes_ask, Except.ok.injEq]
  refine ⟨disk, _, ⟨rfl, rfl⟩, ?_⟩
  rw [hwal]
  simp only [finishes_bind, finishes_removeWal, finishes_pure]
  exact ⟨_, (), rfl, rfl, trivial⟩

theorem finishes_recover_nothing (hwal : disk.wal = .records payloads) (hsome : payloads ≠ [])
    (hpending : readPending disk payloads = .ok pending) (hsnapshot : pending.snapshot = none)
    (hoperation : findLastPayload decodeOperationPayload payloads = .ok none) :
    (recoverWalWithEncoding path encoding).Finishes disk
      (if pending.transactionId.isSome then { disk with wal := .absent } else disk) false := by
  obtain ⟨payload, rest, rfl⟩ := exists_cons_of_ne_nil hsome
  simp only [recoverWalWithEncoding, finishes_bind, finishes_ask, Except.ok.injEq]
  refine ⟨disk, _, ⟨rfl, rfl⟩, ?_⟩
  rw [hwal]
  simp only [recoverPending, finishes_bind, finishes_ask, lift_eq_ok]
  refine ⟨disk, pending, ⟨rfl, hpending⟩, ?_⟩
  rw [hsnapshot]
  simp only [recoverOperation, finishes_bind, finishes_ask, lift_eq_ok]
  refine ⟨disk, none, ⟨rfl, hoperation⟩, ?_⟩
  simp only [finishes_bind, finishes_pure]
  refine ⟨_, (), ?_, rfl, trivial⟩
  cases pending.transactionId with
  | none => simp
  | some txn => simp [finishes_removeWal]

theorem Idle.recover (hwal : disk.wal = .records payloads) (hsome : payloads ≠ [])
    (h : Idle disk.files payloads) :
    (recoverWalWithEncoding path encoding).Finishes disk disk false := by
  obtain ⟨pending, hpending, hid, hsnapshot⟩ := h.readPending
  have hrun : (recoverWalWithEncoding path encoding).Finishes disk _ false :=
    finishes_recover_nothing hwal hsome hpending hsnapshot
      (findLastPayload_eq_none.mpr h.operation)
  rwa [hid] at hrun

/-- What a recovery that ends normally has done. -/
inductive Recovered (path : String) (encoding : Option String) (disk last : Disk) : Bool → Prop
  | clean (hwal : disk.wal = .absent) (hlast : last = disk) : Recovered path encoding disk last false
  | empty (hwal : disk.wal = .records []) (hlast : last = { disk with wal := .absent }) :
      Recovered path encoding disk last false
  | nothing (payloads : List Bytes) (pending : PendingLog) (hwal : disk.wal = .records payloads)
      (hpending : readPending disk payloads = .ok pending) (hsnapshot : pending.snapshot = none)
      (hoperation : findLastPayload decodeOperationPayload payloads = .ok none)
      (hlast : last = if pending.transactionId.isSome then { disk with wal := .absent } else disk) :
      Recovered path encoding disk last false
  | redone (payloads : List Bytes) (pending : PendingLog) (snapshot : RecoverySnapshot)
      (hwal : disk.wal = .records payloads) (hpending : readPending disk payloads = .ok pending)
      (hsnapshot : pending.snapshot = some snapshot)
      (hrun : (redoSnapshot encoding pending snapshot).Finishes disk last ()) :
      Recovered path encoding disk last true
  | executed (payloads : List Bytes) (pending : PendingLog) (operation : OperationIr)
      (plan : OperationPlan) (hwal : disk.wal = .records payloads)
      (hpending : readPending disk payloads = .ok pending) (hsnapshot : pending.snapshot = none)
      (hoperation : findLastPayload decodeOperationPayload payloads = .ok (some operation))
      (hplan : planOperation path encoding pending operation disk = .ok plan)
      (hrun : (redoOperation plan pending.forceNewEpoch).Finishes disk last ()) :
      Recovered path encoding disk last true

theorem recovered {result : Bool}
    (h : (recoverWalWithEncoding path encoding).Finishes disk last result) :
    Recovered path encoding disk last result := by
  simp only [recoverWalWithEncoding, finishes_bind, finishes_ask, Except.ok.injEq] at h
  obtain ⟨_, log, ⟨rfl, hlog⟩, h⟩ := h
  cases log with
  | absent =>
    obtain ⟨hlast, rfl⟩ := finishes_pure.mp h
    exact .clean hlog hlast
  | unreadable error => cases (finishes_ask.mp h).2
  | records payloads =>
    cases payloads with
    | nil =>
      simp only [finishes_bind, finishes_removeWal, finishes_pure] at h
      obtain ⟨_, -, rfl, rfl, rfl⟩ := h
      exact .empty hlog rfl
    | cons payload rest =>
      simp only [recoverPending, finishes_bind, finishes_ask, lift_eq_ok] at h
      obtain ⟨_, pending, ⟨rfl, hpending⟩, h⟩ := h
      split at h
      · rename_i snapshot hsnapshot
        simp only [finishes_bind, finishes_pure] at h
        obtain ⟨_, ⟨⟩, hrun, rfl, rfl⟩ := h
        exact .redone _ pending snapshot hlog hpending hsnapshot hrun
      · rename_i hsnapshot
        simp only [recoverOperation, finishes_bind, finishes_ask, lift_eq_ok] at h
        obtain ⟨_, operation, ⟨rfl, hoperation⟩, h⟩ := h
        cases operation with
        | none =>
          simp only [finishes_bind, finishes_pure] at h
          obtain ⟨_, ⟨⟩, hrun, rfl, rfl⟩ := h
          refine .nothing _ pending hlog hpending hsnapshot hoperation ?_
          cases hid : pending.transactionId with
          | none => simpa [hid] using hrun
          | some txn => simpa [hid, finishes_removeWal] using hrun
        | some operation =>
          simp only [finishes_bind, finishes_ask, finishes_pure] at h
          obtain ⟨_, plan, ⟨rfl, hplan⟩, _, ⟨⟩, hrun, rfl, rfl⟩ := h
          exact .executed _ pending operation plan hlog hpending hsnapshot hoperation hplan hrun

end Pending

end TxBase.Dbf
