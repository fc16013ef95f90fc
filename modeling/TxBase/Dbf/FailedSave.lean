import Mathlib.Data.List.TakeWhile
import TxBase.Dbf.Redo
import TxBase.Dbf.Saved

/-! A save that fails.  Up to its first record that recovery can redo, a save has changed
nothing; from that record on, the next load completes the save that was reported as
failed, or fails itself.  A save of a table that was read before another save fails. -/
namespace TxBase.Dbf
open Lib Json List
open Durable (ask finishes_bind Keeps fails_bind fails_ask finishes_ask finish?_eq_some Fails)
open Outcome (lift_eq_ok)
open DbfTable (fromPath loadPathWithEncoding)
open Serde (listed KeepsEvent)
variable {disk left last : Disk} {table before after : DbfTable} {txn : Nat} {path : String}
  {base : List Bytes} {plan : SavePlan} {operation : Option OperationIr} {stop : Stop DbfError}

section Logs
variable [Serde] [Indexing]

theorem Idle.append_marker {files : TableFiles} (h : Idle files base)
    (plan : SavePlan) : Idle files (base ++ plan.marker) := by
  have hall : ∀ {P : Bytes → Prop}, (∀ payload ∈ base, P payload) → P layoutChangePayload →
      ∀ payload ∈ base ++ plan.marker, P payload := by
    intro P hbase hone payload hmem
    rcases mem_append.mp hmem with hmem | hmem
    · exact hbase payload hmem
    · rwa [eq_of_mem_marker hmem]
  obtain ⟨index, hindex⟩ := h.index
  obtain ⟨found, hfound⟩ := h.layout
  refine ⟨⟨index, ?_⟩, hall h.transactionId ?_, hall h.event ?_, ?_, hall h.snapshot ?_,
    hall h.operation ?_⟩
  · rw [findLastPayload_append_none, hindex]
    intro payload hmem
    rw [eq_of_mem_marker hmem, decodeSnapshotPayload_other marks_layoutChange (by decide)]
    rfl
  · exact decodeTransactionIdPayload_other marks_layoutChange (by decide)
  · exact decodeCdcPayload_other marks_layoutChange (by decide)
  · rw [foldlM_append, hfound]
    unfold SavePlan.marker
    split
    · exact ⟨true, by cases found <;> rfl⟩
    · exact ⟨found, rfl⟩
  · rw [decodeWalPayload_other files marks_layoutChange]
    rfl
  · exact decodeOperationPayload_other marks_layoutChange (by decide)

theorem readPending_cut {event : ChangeEvent} {payload : Bytes}
    (hserde : KeepsEvent event) (h : Idle disk.files base)
    (hpayload : cdcPayload event = .ok payload)
    (hpositive : event.transactionId ≠ 0) (hsmall : event.transactionId < u64Size) :
    ∃ pending, readPending disk (base ++ [transactionIdPayload event.transactionId, payload]) =
        .ok pending ∧ pending.transactionId = some event.transactionId ∧ pending.snapshot = none ∧
      findLastPayload decodeOperationPayload
        (base ++ [transactionIdPayload event.transactionId, payload]) = .ok none := by
  have hid := marks_transactionId event.transactionId
  have hevent := marks_cdcPayload hpayload
  obtain ⟨read, hread, houtline⟩ := decodeCdcPayload_cdcPayload hserde hpayload
  obtain ⟨index, hindex⟩ := h.index
  obtain ⟨found, hfound⟩ := h.layout
  have htwo : ∀ {P : Bytes → Prop}, P (transactionIdPayload event.transactionId) → P payload →
      ∀ other ∈ [transactionIdPayload event.transactionId, payload], P other := by
    intro P hfirst hsecond
    simp [hfirst, hsecond]
  refine ⟨⟨index, some event.transactionId, some read, found, none⟩, readPending_eq_ok.mpr
    ⟨?_, ?_, ?_, ?_, ?_, ?_⟩, rfl, rfl, ?_⟩
  · rw [findLastPayload_append_none, hindex]
    refine htwo ?_ ?_
    · rw [decodeSnapshotPayload_other hid (by decide)]
      rfl
    · rw [decodeSnapshotPayload_other hevent (by decide)]
      rfl
  · refine findLastPayload_eq_some ?_ ⟨_, by simp,
      decodeTransactionIdPayload_payload hpositive hsmall⟩
    refine forall_mem_append.mpr ⟨fun other hmem => .inl (h.transactionId other hmem), htwo ?_ ?_⟩
    · exact .inr (decodeTransactionIdPayload_payload hpositive hsmall)
    · exact .inl (decodeTransactionIdPayload_other hevent (by decide))
  · rw [show base ++ [transactionIdPayload event.transactionId, payload] =
      (base ++ [transactionIdPayload event.transactionId]) ++ payload :: [] by simp]
    refine eventFromWal_eq_some (forall_mem_append.mpr ⟨h.event, ?_⟩) hread (by simp)
    simpa using decodeCdcPayload_other hid (by decide)
  · have hsame : read.transactionId = event.transactionId := congrArg Prod.fst houtline
    simp [checkLoggedEvent, reject, hsame]
  · rw [foldlM_append, hfound]
    simp [noteLayoutChange, decodeLayoutChangePayload_other hid (by decide),
      decodeLayoutChangePayload_other hevent (by decide), bind, Except.bind]
    rfl
  · refine findLastPayload_eq_none.mpr (forall_mem_append.mpr ⟨h.snapshot, htwo ?_ ?_⟩)
    · rw [decodeWalPayload_other disk.files hid, decodeTransactionIdPayload_payload hpositive hsmall]
      rfl
    · rw [decodeWalPayload_other disk.files hevent]
  · refine findLastPayload_eq_none.mpr (forall_mem_append.mpr ⟨h.operation, htwo ?_ ?_⟩)
    · exact decodeOperationPayload_other hid (by decide)
    · exact decodeOperationPayload_other hevent (by decide)

end Logs

section Save
variable [Runtime] [Filters] [Serde] [Indexing]

/-- Nothing is pending beside a table. -/
structure Settled (disk : Disk) : Prop where
  exportJournal : disk.exportJournal = .absent
  wal : disk.wal = .absent ∨
    ∃ payloads, disk.wal = .records payloads ∧ payloads ≠ [] ∧ Idle disk.files payloads

theorem Recovered.wal {encoding : Option String} {result : Bool}
    (h : Recovered path encoding disk last result) :
    last.wal = .absent ∨ last = disk ∧ ∃ payloads, disk.wal = .records payloads ∧
      Idle disk.files payloads := by
  cases h with
  | clean hwal hlast => exact .inl (hlast ▸ hwal)
  | empty hwal hlast => exact .inl (by rw [hlast])
  | nothing payloads pending hwal hpending hsnapshot hoperation hlast =>
    obtain ⟨hindex, hid, hevent, hcheck, hlayout, hredo⟩ := readPending_eq_ok.mp hpending
    cases htransaction : pending.transactionId with
    | some txn =>
      rw [htransaction, Option.isSome_some, if_pos rfl] at hlast
      exact .inl (by rw [hlast])
    | none =>
      rw [htransaction] at hlast hid hcheck
      rw [hsnapshot] at hredo
      have hnone : pending.event = none := by
        cases hsome : pending.event with
        | none => rfl
        | some event =>
          rw [hsome] at hcheck
          cases hcheck
      rw [hnone] at hevent
      exact .inr ⟨by simpa using hlast, payloads, hwal, ⟨_, hindex⟩,
        findLastPayload_eq_none.mp hid, eventFromWal_eq_none.mp hevent, ⟨_, hlayout⟩,
        findLastPayload_eq_none.mp hredo, findLastPayload_eq_none.mp hoperation⟩
  | redone payloads pending snapshot hwal hpending hsnapshot hrun =>
    simp only [redoSnapshot, finishes_bind, finishes_removeWal] at hrun
    obtain ⟨_, _, -, _, _, -, _, _, -, _, _, -, _, _, -, rfl⟩ := hrun
    exact .inl rfl
  | executed payloads pending operation plan hwal hpending hsnapshot hoperation hplan hrun =>
    simp only [redoOperation, finishes_bind, finishes_removeWal] at hrun
    obtain ⟨_, _, -, _, _, -, _, _, -, _, _, -, _, _, -, _, _, -, _, _, -, _, _, -, _, _, -, _, _, -,
      rfl⟩ := hrun
    exact .inl rfl

theorem Settled.recover (h : Settled disk) (path : String) (encoding : Option String) :
    (recoverWalWithEncoding path encoding).Finishes disk disk false := by
  rcases h.wal with habsent | ⟨payloads, hrecords, hsome, hidle⟩
  · simp [recoverWalWithEncoding, finishes_bind, habsent]
  · exact hidle.recover hrecords hsome

omit [Indexing] in
theorem Redone.readTransactionState {image : Bytes} {written : Option MemoSnapshot}
    {forceNewEpoch : Bool} {event : Option ChangeEvent}
    (h : Redone txn image written forceNewEpoch event disk last) {current : Option Nat}
    (hcurrent : disk.readTransactionState = .ok current) (hle : current.getD 0 ≤ txn)
    (hsmall : txn < u64Size) : last.readTransactionState = .ok (some txn) := by
  obtain ⟨found, bytes, hfound, hbytes, hstate⟩ := h.state
  cases hcurrent.symm.trans hfound
  rw [Nat.max_eq_right hle] at hbytes
  exact readTransactionState_eq hstate hsmall hbytes

theorem fails_installSave (h : (installSave plan).Fails disk left stop) :
    left.wal = disk.wal ∧ left.exportJournal = disk.exportJournal ∧ (left.state = disk.state ∨
      ∃ bytes, transactionStateBytes plan.transactionId = .ok bytes ∧ left.state = some bytes) := by
  have hsplit : installSave plan = (do
      prepareSnapshot plan.transactionId plan.prepared.bytes plan.historyMemo plan.schemaBytes
        plan.layoutChanged
      Durable.forSome plan.memoSnapshot replaceMemo
      replaceDbf plan.prepared.bytes
      installIndex plan
      writeTransactionState plan.transactionId
      commitSnapshot plan.transactionId plan.prepared.bytes plan.historyMemo plan.schemaBytes
        plan.layoutChanged
      appendCdc plan.event) >>= fun _ => removeWal := by
    simp only [installSave, bind_assoc]
  rw [hsplit] at h
  rcases fails_bind.mp h with hfirst | ⟨_, _, -, hremove⟩
  · refine Keeps.fails (P := fun state => state.wal = disk.wal ∧
      state.exportJournal = disk.exportJournal ∧ (state.state = disk.state ∨ ∃ bytes,
        transactionStateBytes plan.transactionId = .ok bytes ∧ state.state = some bytes)) ?_
      ⟨rfl, rfl, .inl rfl⟩ hfirst
    refine .bind (keeps_prepareSnapshot _ _ _ _ (fun _ _ hstate => hstate) _) fun _ =>
      .bind (.forSome fun _ => .step fun _ hstate => hstate) fun _ =>
      .bind (.step fun _ hstate => hstate) fun _ => .bind ?_ fun _ =>
      .bind (.bindResult fun bytes hbytes => .step fun state hstate =>
        ⟨hstate.1, hstate.2.1, .inr ⟨bytes, lift_eq_ok.mp hbytes, rfl⟩⟩) fun _ =>
      .bind (keeps_commitSnapshot _ _ _ _ (fun _ _ hstate => hstate) _) fun _ =>
      keeps_appendCdc (fun _ _ hstate => hstate) _
    unfold installIndex
    split
    · exact keeps_applySnapshotPayload (fun _ _ hstate => hstate) _
    · exact .bind (.ask _) fun _ => .forSome fun _ => .step fun _ hstate => hstate
  · simp [removeWal, fails_bind] at hremove

omit [Runtime] [Filters] in
theorem Settled.payloads (h : Settled disk) :
    ∃ base, disk.wal.payloads = .ok base ∧ disk.wal.created = .records base ∧
      Idle disk.files base := by
  rcases h.wal with habsent | ⟨payloads, hrecords, -, hidle⟩
  · have hnone : ∀ {P : Bytes → Prop}, ∀ payload ∈ ([] : List Bytes), P payload :=
      nofun
    exact ⟨[], by rw [habsent]; rfl, by rw [habsent]; rfl, ⟨none, rfl⟩, hnone, hnone, ⟨false, rfl⟩,
      hnone, hnone⟩
  · exact ⟨payloads, by rw [hrecords]; rfl, by rw [hrecords]; rfl, hidle⟩

/-- The log that a failed save leaves: the records before the first one over the limit. -/
theorem fails_logged (hpayloads : disk.wal.payloads = .ok base)
    (hcreated : disk.wal.created = .records base)
    (h : Fails (do
      logSave plan operation
      installSave plan
      ask fun disk => .ok (savedTable plan path disk)) disk left stop) :
    (∃ error, operationRecord operation = .error error ∧
      left = { disk with wal := .records (base ++ plan.marker) }) ∨
    ∃ record, operationRecord operation = .ok record ∧
      left.wal = .records (base ++ (plan.records record).takeWhile fits) ∧
      left.exportJournal = disk.exportJournal ∧
      (left.state = disk.state ∨ ∃ bytes, transactionStateBytes plan.transactionId = .ok bytes ∧
        left.state = some bytes) ∧
      ((∀ payload ∈ plan.records record, fits payload = true) ∨
        left = { disk with wal := left.wal }) := by
  let opened : Disk := { disk with wal := .records base }
  have hopen : openWal.Finishes disk opened base :=
    finishes_openWal.mpr ⟨hpayloads, by rw [hcreated]⟩
  have hstart : opened.wal = .records base := rfl
  have hinside : ∀ {program : Saving DbfTable}, (do let _ ← openWal; program).Fails disk left stop →
      program.Fails opened left stop := by
    intro program hrun
    rcases fails_bind.mp hrun with hfirst | ⟨_, _, hfirst, hrun⟩
    · exact absurd hfirst hopen.not_fails
    · obtain ⟨rfl, -⟩ := hopen.unique hfirst
      exact hrun
  cases hrecord : operationRecord operation with
  | error error =>
    have hmarker : ∀ payload ∈ plan.marker, checkRecordSize payload = .ok () := by
      intro payload hmem
      rw [eq_of_mem_marker hmem]
      decide
    rw [logSave_error hrecord] at h
    simp only [bind_assoc] at h
    rcases fails_bind.mp (hinside h) with hfirst | ⟨_, _, hfirst, hrest⟩
    · obtain ⟨-, payload, hmem, hover⟩ := fails_appendAll hstart hfirst
      exact absurd (hmarker payload hmem) hover
    · obtain ⟨-, rfl⟩ := (finishes_appendAll hstart).mp hfirst
      rcases fails_bind.mp hrest with hask | ⟨_, _, hask, -⟩
      · exact .inl ⟨error, rfl, (fails_ask.mp hask).1⟩
      · cases (finishes_ask.mp hask).2
  | ok record =>
    refine .inr ⟨record, rfl, ?_⟩
    rw [logSave_eq hrecord, bind_assoc] at h
    rcases fails_bind.mp (hinside h) with hfirst | ⟨_, _, hfirst, hrest⟩
    · obtain ⟨rfl, -⟩ := fails_appendAll hstart hfirst
      exact ⟨rfl, rfl, .inl rfl, .inr rfl⟩
    · obtain ⟨hfits, rfl⟩ := (finishes_appendAll hstart).mp hfirst
      have hall : ∀ payload ∈ plan.records record, fits payload = true :=
        fun payload hmem => fits_eq_true.mpr (hfits payload hmem)
      rcases fails_bind.mp hrest with hinstall | ⟨_, _, -, hask⟩
      · obtain ⟨hwal, hjournal, hstate⟩ := fails_installSave hinstall
        rw [takeWhile_eq_self_iff.mpr hall]
        exact ⟨hwal, hjournal, hstate, .inl hall⟩
      · cases (fails_ask.mp hask).2

theorem fails_saveWithWalInner (hsettled : Settled disk)
    (h : (saveWithWalInner table path operation).Fails disk left stop) :
    (∃ other, planSave table path disk = .error other ∧ left = disk) ∨
    ∃ plan, planSave table path disk = .ok plan ∧ Fails (do
      logSave plan operation
      installSave plan
      ask fun disk => .ok (savedTable plan path disk)) disk left stop := by
  have hrecover := hsettled.recover path table.encodingOverride
  rcases fails_bind.mp h with hearly | ⟨middle, _, hfinishes, hsave⟩
  · exact absurd hearly hrecover.not_fails
  obtain ⟨hmiddle, -⟩ := hrecover.unique hfinishes
  rw [← hmiddle] at hsave
  rcases fails_bind.mp hsave with hplan | ⟨planning, plan, hplan, hrest⟩
  · obtain ⟨hleft, hplan⟩ := fails_ask.mp hplan
    exact .inl ⟨stop, hplan, hleft⟩
  · obtain ⟨hplanning, hplan⟩ := finishes_ask.mp hplan
    rw [hplanning] at hrest
    exact .inr ⟨plan, hplan, hrest⟩

theorem finishes_saveWithWalInner (hsettled : Settled disk)
    (h : (saveWithWalInner table path operation).Finishes disk last after) :
    ∃ plan, planSave table path disk = .ok plan ∧ Installed plan disk last := by
  simp only [saveWithWalInner, saveRecovered, finishes_bind, finishes_ask, Except.ok.injEq] at h
  obtain ⟨clean, _, hrecover, _, plan, ⟨rfl, hplan⟩, logged, _, hlog, _, _, hinstall, rfl, rfl⟩ := h
  obtain ⟨rfl, -⟩ := (hsettled.recover path _).unique hrecover
  obtain ⟨wal, rfl⟩ : ∃ wal, logged = { disk with wal := wal } :=
    (keeps_logSave (P := fun state => ∃ wal, state = { disk with wal := wal })
      (fun state log h => ⟨log, by obtain ⟨wal, rfl⟩ := h; rfl⟩) plan operation).finishes
      ⟨disk.wal, rfl⟩ hlog
  obtain ⟨history, changes, dbf, memo, schema, state, wal, journal⟩ := finishes_installSave hinstall
  exact ⟨plan, hplan, history, changes, dbf, memo, schema, state, wal, journal⟩

/-- A save of some table ends normally. -/
def Saves (path : String) (disk last : Disk) : Prop :=
  ∃ table operation after, (saveWithWalInner table path operation).Finishes disk last after

theorem Settled.saves {current : Option Nat} (h : Settled disk)
    (hcurrent : disk.readTransactionState = .ok current) (hsave : Saves path disk last) :
    Settled last ∧ last.readTransactionState = .ok (some (current.getD 0 + 1)) := by
  obtain ⟨table, operation, after, hsave⟩ := hsave
  obtain ⟨plan, hplan, hinstalled⟩ := finishes_saveWithWalInner h hsave
  obtain ⟨found, hfound, hnext⟩ := (planned hplan).transactionId
  cases hcurrent.symm.trans hfound
  obtain ⟨hid, hsmall⟩ := nextTransactionId_eq_ok.mp hnext
  obtain ⟨bytes, hbytes, hstate⟩ := hinstalled.state
  rw [← hid]
  exact ⟨⟨hinstalled.exportJournal.trans h.exportJournal, .inl hinstalled.wal⟩,
    readTransactionState_eq hstate hsmall hbytes⟩

theorem Settled.run {current : Option Nat} (h : Settled disk)
    (hcurrent : disk.readTransactionState = .ok current)
    (hsaves : Relation.TransGen (Saves path) disk last) :
    Settled last ∧ ∃ txn, last.readTransactionState = .ok (some txn) ∧ current.getD 0 < txn := by
  induction hsaves with
  | single hsave =>
    obtain ⟨hsettled, hstate⟩ := h.saves hcurrent hsave
    exact ⟨hsettled, _, hstate, Nat.lt_succ_self _⟩
  | tail _ hsave ih =>
    obtain ⟨hsettled, txn, hbefore, hlt⟩ := ih
    obtain ⟨hsettled, hstate⟩ := hsettled.saves hbefore hsave
    exact ⟨hsettled, _, hstate, Nat.lt_succ_of_lt hlt⟩

variable [SchemaExport]

/-- Without a journal of an export, a load recovers the log and reads the files. -/
theorem recovered_of_fromPath (hjournal : disk.exportJournal = .absent)
    (h : (fromPath path).Finishes disk last table) :
    ∃ clean recovered, (recoverWalWithEncoding path none).Finishes disk clean recovered ∧
      clean.exportJournal = .absent ∧ loadPathWithEncoding path none clean = .ok table ∧
      (Durable.when recovered (tryRefresh table)).Finishes clean last () := by
  simp only [fromPath, DbfTable.fromPathWithEncoding, finishes_bind, finishes_ask,
    Durable.finishes_pure, normalizeEncodingOverride, lift_eq_ok, Except.ok.injEq] at h
  obtain ⟨disk, _, ⟨rfl, rfl⟩, clean, recovered, hrecover, _, exported, hexport, read, loaded,
    ⟨rfl, hload⟩, _, _, hrefresh, rfl, rfl⟩ := h
  have hclean := (((blind_beside disk).recoverWalWithEncoding path none).finishes (Beside.refl disk)
    hrecover).exportJournal.trans hjournal
  have hsame : recoverSchemaExport.Finishes clean clean false := by
    simp [recoverSchemaExport, finishes_bind, hclean]
  obtain ⟨rfl, rfl⟩ := hexport.unique hsame
  rw [Bool.or_false] at hrefresh
  exact ⟨_, recovered, hrecover, hclean, hload, hrefresh⟩

theorem settled_after_fromPath (hjournal : disk.exportJournal = .absent)
    (h : (fromPath path).Finishes disk last table) :
    Settled last ∧ loadPathWithEncoding path none last = .ok table := by
  obtain ⟨clean, recovered, hrecover, hclean, hload, hrefresh⟩ := recovered_of_fromPath hjournal h
  obtain ⟨index, rfl⟩ := finishes_tryRefresh hrefresh
  refine ⟨⟨hclean, ?_⟩, hload⟩
  rcases (TxBase.Dbf.recovered hrecover).wal with habsent | ⟨rfl, payloads, hrecords, hidle⟩
  · exact .inl habsent
  · have hsome : payloads ≠ [] := by
      rintro rfl
      have hlast := congrArg Disk.wal (hrecover.unique (finishes_recover_empty hrecords)).1
      rw [hrecords] at hlast
      cases hlast
    -- Nothing was recovered, so that the index was not refreshed.
    obtain ⟨-, rfl⟩ := hrecover.unique (hidle.recover hrecords hsome)
    rw [(Durable.finishes_pure.mp hrefresh).1]
    exact .inr ⟨payloads, hrecords, hsome, hidle⟩

theorem settled_of_fromPath (h : (fromPath path).Finishes disk disk table) :
    Settled disk ∧ loadPathWithEncoding path none disk = .ok table := by
  obtain ⟨read, index, -, hread, hdisk⟩ := finishes_fromPath h
  exact settled_after_fromPath (by rw [hdisk, ← hread]) h

/-- The check that a save fails on comes before its log holds what recovery redoes: the
plan fails, or the record of the operation is not logged, or, when there is none, the redo
record is over the limit. -/
def FailsEarly (table : DbfTable) (path : String) (operation : Option OperationIr) (disk : Disk) :
    Prop :=
  match planSave table path disk, operation with
  | .error _, _ => True
  | .ok _, some operation =>
      ∀ record, operationPayload operation = .ok record → checkRecordSize record ≠ .ok ()
  | .ok plan, none => checkRecordSize plan.payload ≠ .ok ()

/-- The log of a save that was stopped, or failed, with something for recovery to redo. -/
structure Redoable (transactionId : Nat) (disk : Disk) : Prop where
  log : ∃ payloads, disk.wal = .records payloads ∧
    (∀ payload ∈ payloads, decodeTransactionIdPayload payload = .ok none ∨
      decodeTransactionIdPayload payload = .ok (some transactionId)) ∧
    (∃ payload ∈ payloads, decodeTransactionIdPayload payload = .ok (some transactionId)) ∧
    ∃ payload ∈ payloads, decodeOperationPayload payload ≠ .ok none ∨
      ∀ files, decodeWalPayload files payload ≠ .ok none
  state : ∃ current, disk.readTransactionState = .ok current ∧ current.getD 0 ≤ transactionId
  small : transactionId < u64Size
  exportJournal : disk.exportJournal = .absent

/-- A load completes what the log holds, or fails: the table it gives is past the save. -/
theorem Redoable.fromPath (h : Redoable txn disk)
    (hload : (fromPath path).Finishes disk last table) :
    table.transactionId = some txn := by
  obtain ⟨payloads, hwal, hids, hid, hredo⟩ := h.log
  obtain ⟨current, hcurrent, hle⟩ := h.state
  obtain ⟨read, result, hrecover, -, hread, -⟩ := recovered_of_fromPath h.exportJournal hload
  have hstate : read.readTransactionState = .ok (some txn) := by
    have hpendingId : ∀ {pending : PendingLog} {found : List Bytes},
        LogFile.records payloads = .records found → readPending disk found = .ok pending →
        pending.transactionId = some txn := by
      intro pending found hfound hpending
      cases hfound
      have hpendingId := (readPending_eq_ok.mp hpending).2.1
      rw [findLastPayload_eq_some hids hid] at hpendingId
      exact (Except.ok.inj hpendingId).symm
    cases recovered hrecover with
    | clean hclean => cases hwal.symm.trans hclean
    | empty hempty =>
      cases hwal.symm.trans hempty
      obtain ⟨payload, hmem, -⟩ := hid
      cases hmem
    | nothing found pending hfound hpending hsnapshot hoperation =>
      cases hwal.symm.trans hfound
      obtain ⟨payload, hmem, hbad | hbad⟩ := hredo
      · exact absurd (findLastPayload_eq_none.mp hoperation payload hmem) hbad
      · have hnone := (readPending_eq_ok.mp hpending).2.2.2.2.2
        rw [hsnapshot] at hnone
        exact absurd (findLastPayload_eq_none.mp hnone payload hmem) (hbad _)
    | redone found pending snapshot hfound hpending hsnapshot hrun =>
      exact (redone_of_snapshot (hpendingId (hwal.symm.trans hfound) hpending)
        hrun).readTransactionState hcurrent hle h.small
    | executed found pending operation plan hfound hpending hsnapshot hoperation hplan hrun =>
      obtain ⟨other, hother, hplanId⟩ :=
        planOperation_transactionId (hpendingId (hwal.symm.trans hfound) hpending) hplan
      cases hcurrent.symm.trans hother
      rw [Nat.max_eq_right hle] at hplanId
      rw [← hplanId] at hle ⊢
      exact (redone_of_operation hcurrent hle hrun).readTransactionState hcurrent hle
        (hplanId ▸ h.small)
  obtain ⟨dbf, id, -, hid, htable, -⟩ := (loadPath_eq_ok hread).source
  cases hstate.symm.trans hid
  exact htable

theorem fromPath_behind_marker (hsettled : Settled disk)
    (hread : loadPathWithEncoding path none disk = .ok before) (hidle : Idle disk.files base)
    (plan : SavePlan) :
    ∃ last, (fromPath path).Finishes
      { disk with wal := .records (base ++ plan.marker) } last before := by
  have hmarked := hidle.append_marker plan
  by_cases hempty : base ++ plan.marker = []
  · rw [hempty]
    exact ⟨_, fromPath_finishes_clean (finishes_recover_empty rfl) hsettled.exportJournal hread⟩
  · exact ⟨_, fromPath_finishes_clean (Idle.recover rfl hempty hmarked) hsettled.exportJournal hread⟩

theorem fromPath_before_redo (hserde : KeepsEvent plan.event) (hsettled : Settled disk)
    (hread : loadPathWithEncoding path none disk = .ok before) (hidle : Idle disk.files base)
    (hplan : Planned table path disk plan) :
    ∃ last, (fromPath path).Finishes { disk with wal := .records (base ++ plan.marker ++
      [transactionIdPayload plan.transactionId, plan.cdcPayload]) } last before := by
  obtain ⟨current, -, hnext⟩ := hplan.transactionId
  obtain ⟨hid, hsmall⟩ := nextTransactionId_eq_ok.mp hnext
  obtain ⟨hevent, -⟩ := hplan.event_flags
  let cut : Disk := { disk with wal := .records (base ++ plan.marker ++
    [transactionIdPayload plan.transactionId, plan.cdcPayload]) }
  have hmarked : Idle cut.files (base ++ plan.marker) := hidle.append_marker plan
  have hcut := readPending_cut hserde hmarked hplan.cdc (by omega) (by omega)
  rw [hevent] at hcut
  obtain ⟨pending, hpending, htransaction, hsnapshot, hoperation⟩ := hcut
  have hrecover : (recoverWalWithEncoding path none).Finishes cut _ false :=
    finishes_recover_nothing rfl (by simp) hpending hsnapshot hoperation
  rw [htransaction, Option.isSome_some, if_pos rfl] at hrecover
  exact ⟨_, fromPath_finishes_clean hrecover hsettled.exportJournal hread⟩

omit [SchemaExport] in
theorem redoable_of_log {written : List Bytes} {record : Option Bytes} (hsettled : Settled disk)
    (hidle : Idle disk.files base) (hplan : Planned table path disk plan)
    (hrecord : operationRecord operation = .ok record) (hwal : left.wal = .records (base ++ written))
    (hjournal : left.exportJournal = disk.exportJournal)
    (hstate : left.state = disk.state ∨ ∃ bytes,
      transactionStateBytes plan.transactionId = .ok bytes ∧ left.state = some bytes)
    (hsub : ∀ payload ∈ written, payload ∈ plan.records record)
    (hmem : transactionIdPayload plan.transactionId ∈ written)
    (hredo : ∃ payload ∈ written, decodeOperationPayload payload ≠ .ok none ∨
      ∀ files, decodeWalPayload files payload ≠ .ok none) :
    Redoable plan.transactionId left := by
  obtain ⟨current, hcurrent, hnext⟩ := hplan.transactionId
  obtain ⟨hid, hsmall⟩ := nextTransactionId_eq_ok.mp hnext
  refine ⟨⟨_, hwal, forall_mem_append.mpr ⟨fun payload hbase =>
    .inl (hidle.transactionId payload hbase), fun payload hwritten =>
      records_transactionId hplan hrecord payload (hsub payload hwritten)⟩,
    ⟨_, mem_append_right _ hmem, decodeTransactionIdPayload_payload (by omega) hsmall⟩, ?_⟩, ?_,
    hsmall, hjournal.trans hsettled.exportJournal⟩
  · obtain ⟨payload, hwritten, hredo⟩ := hredo
    exact ⟨payload, mem_append_right _ hwritten, hredo⟩
  · rcases hstate with hsame | ⟨bytes, hbytes, hnew⟩
    · refine ⟨current, ?_, by omega⟩
      rw [← hcurrent, Disk.readTransactionState, Disk.readTransactionState, hsame]
    · exact ⟨_, readTransactionState_eq hnew hsmall hbytes, Nat.le_refl _⟩

/-- A load leaves nothing for the next one to do. -/
theorem load_is_idempotent (hjournal : disk.exportJournal = .absent)
    (h : (fromPath path).Finishes disk last table) :
    (fromPath path).Finishes last last table := by
  obtain ⟨hsettled, hread⟩ := settled_after_fromPath hjournal h
  exact fromPath_finishes_clean (hsettled.recover path none) hsettled.exportJournal hread

/-- A table that was loaded before another save is refused, and no file changes. -/
theorem stale_table_is_refused {start : Disk} {edited : DbfTable}
    (hjournal : start.exportJournal = .absent)
    (hload : (fromPath path).Finishes start disk table)
    (hcalls : Relation.ReflTransGen Leaves table edited)
    (hsaves : Relation.TransGen (Saves path) disk last) :
    (∃ stop, (saveWithWal edited path).Fails last last stop) ∧
      ∀ operation, ∃ stop, (saveWithOperation edited path operation).Fails last last stop := by
  suffices hrefused : ∀ operation, ∃ stop,
    (saveWithWalInner edited path operation).Fails last last stop from
    ⟨hrefused none, fun operation => hrefused (some operation)⟩
  intro operation
  obtain ⟨hsettled, hread⟩ := settled_after_fromPath hjournal hload
  have hfrom := loadPath_eq_ok hread
  obtain ⟨dbf, current, -, hcurrent, -, hsource⟩ := hfrom.source
  have hedited := Edited.run ⟨hfrom.coherent, rfl, rfl, rfl, fun _ => rfl⟩ hcalls
  rw [← hedited.source] at hsource
  obtain ⟨hlast, txn, htxn, hlt⟩ := hsettled.run hcurrent hsaves
  cases hplan : planSave edited path last with
  | error stop =>
    refine ⟨stop, fails_bind.mpr (.inr ⟨_, _, hlast.recover path _, ?_⟩)⟩
    exact fails_bind.mpr (.inl (fails_ask.mpr ⟨rfl, hplan⟩))
  | ok plan =>
    -- The state on disk has moved on, the one that the table was read with has not.
    obtain ⟨bound, hbound, hchecked, -⟩ := (planned hplan).prepared
    rw [DbfTable.bindSchemaIfPresent, if_pos (by simp [hsource])] at hbound
    cases hbound
    cases htxn.symm.trans (ensureSourceCurrent_eq_ok hsource rfl hchecked).2.2.2
    cases Nat.lt_irrefl _ hlt

theorem failed_save_is_no_commit {path : String} {disk left : Disk} {before table : DbfTable}
    {operation : Option OperationIr} {stop : Stop DbfError}
    (hserde : ∀ plan, planSave table path disk = .ok plan → KeepsEvent plan.event)
    (hload : (fromPath path).Finishes disk disk before)
    (hfails : (saveWithWalInner table path operation).Fails disk left stop) :
    (∃ last, (fromPath path).Finishes left last before) ↔
      FailsEarly table path operation disk := by
  obtain ⟨hsettled, hread⟩ := settled_of_fromPath hload
  obtain ⟨base, hpayloads, hcreated, hidle⟩ := hsettled.payloads
  rcases fails_saveWithWalInner hsettled hfails with ⟨other, hplanned, rfl⟩ | ⟨plan, hplanned, hrest⟩
  · simp only [FailsEarly, hplanned, iff_true]
    exact ⟨_, hload⟩
  have hplan := planned hplanned
  obtain ⟨current, hcurrent, hnext⟩ := hplan.transactionId
  obtain ⟨hid, -⟩ := nextTransactionId_eq_ok.mp hnext
  have hmarker : ∀ payload ∈ plan.marker, fits payload = true := by
    intro payload hmem
    rw [eq_of_mem_marker hmem]
    decide
  have hidFits := fits_eq_true.mpr (transactionIdPayload_fits plan.transactionId)
  have hcdcFits := fits_eq_true.mpr (cdcPayload_fits hplan.cdc)
  rcases fails_logged hpayloads hcreated hrest with ⟨error, hrecord, rfl⟩ |
    ⟨record, hrecord, hwal, hjournal, hstate, hcut⟩
  · -- The operation has no record.
    refine iff_of_true (fromPath_behind_marker hsettled hread hidle plan) ?_
    cases operation with
    | none => cases hrecord
    | some operation =>
      simp only [FailsEarly, hplanned]
      intro payload hpayload
      simp [operationRecord, hpayload, bind, Except.bind] at hrecord
  -- A load that completes the save gives a table with the id of the save.
  have hlate : transactionIdPayload plan.transactionId ∈ (plan.records record).takeWhile fits →
      (∃ payload ∈ (plan.records record).takeWhile fits, decodeOperationPayload payload ≠ .ok none ∨
        ∀ files, decodeWalPayload files payload ≠ .ok none) →
      ¬ ∃ last, (fromPath path).Finishes left last before := by
    rintro hmem hredo ⟨last, hlast⟩
    have hredoable := redoable_of_log hsettled hidle hplan hrecord hwal hjournal hstate
      (fun payload hwritten => (List.takeWhile_prefix fits).subset hwritten) hmem hredo
    obtain ⟨_, found, -, hfound, htable, -⟩ := (loadPath_eq_ok hread).source
    cases hcurrent.symm.trans hfound
    rw [hredoable.fromPath hlast] at htable
    rw [← htable, Option.getD_some] at hid
    omega
  cases operation with
  | none =>
    cases hrecord
    simp only [FailsEarly, hplanned]
    cases hfits : fits plan.payload with
    | false =>
      have hover : checkRecordSize plan.payload ≠ .ok () := fun h => by
        rw [fits_eq_true.mpr h] at hfits
        cases hfits
      have hleft : left = { disk with wal := left.wal } := hcut.resolve_left fun hall => by
        rw [hall plan.payload (by simp [SavePlan.records])] at hfits
        cases hfits
      have htake : (plan.records none).takeWhile fits =
          plan.marker ++ [transactionIdPayload plan.transactionId, plan.cdcPayload] := by
        simp [SavePlan.records, takeWhile_append_of_pos hmarker, hidFits, hcdcFits, hfits]
      rw [hwal, htake, ← append_assoc] at hleft
      rw [hleft]
      exact iff_of_true (fromPath_before_redo
        (hserde plan hplanned) hsettled hread hidle hplan) hover
    | true =>
      have htake : (plan.records none).takeWhile fits = plan.marker ++
          (transactionIdPayload plan.transactionId :: plan.cdcPayload :: plan.payload ::
            plan.indexPayload.toList.takeWhile fits) := by
        simp [SavePlan.records, takeWhile_append_of_pos hmarker, hidFits, hcdcFits, hfits]
      obtain ⟨kind, hkind, hone⟩ := marks_redoPayload hplan.payload
      rw [htake] at hlate
      exact iff_of_false (hlate (by simp) ⟨plan.payload, by simp,
        .inr (decodeWalPayload_ne_none hkind hone)⟩) (fun h => h (fits_eq_true.mp hfits))
  | some operation =>
    obtain ⟨encoded, hencoded, hrecord⟩ := bind_eq_ok.mp hrecord
    cases hrecord
    simp only [FailsEarly, hplanned]
    cases hfits : fits encoded with
    | false =>
      have hleft : left = { disk with wal := left.wal } := hcut.resolve_left fun hall => by
        rw [hall encoded (by simp [SavePlan.records])] at hfits
        cases hfits
      have htake : (plan.records (some encoded)).takeWhile fits = plan.marker := by
        simp [SavePlan.records, takeWhile_append_of_pos hmarker, hfits]
      rw [hwal, htake] at hleft
      rw [hleft]
      refine iff_of_true (fromPath_behind_marker hsettled hread hidle plan) fun other hother h => ?_
      cases hencoded.symm.trans hother
      rw [fits_eq_true.mpr h] at hfits
      cases hfits
    | true =>
      have htake : (plan.records (some encoded)).takeWhile fits = plan.marker ++
          (encoded :: transactionIdPayload plan.transactionId :: plan.cdcPayload ::
            (plan.payload :: plan.indexPayload.toList).takeWhile fits) := by
        simp [SavePlan.records, takeWhile_append_of_pos hmarker, hidFits, hcdcFits, hfits]
      rw [htake] at hlate
      exact iff_of_false (hlate (by simp) ⟨encoded, by simp,
        .inl (decodeOperationPayload_ne_none (marks_operationPayload hencoded))⟩)
        (fun h => h encoded hencoded (fits_eq_true.mp hfits))

end Save

/-- The documents of a run that deletes the only record. -/
@[reducible] def Serde.deleting (text : String) : Serde :=
  let values : Map := [("A", .string text)]
  listed [] [⟨1, false, [⟨1, some ⟨false, values⟩, some ⟨true, values⟩⟩]⟩] [] [values]

theorem Serde.listed_keepsEvent (operations : List OperationIr) (events : List ChangeEvent)
    (schemas : List SchemaMetadata) (values : List Map) (hfew : events.length ≤ 2 ^ 16)
    (event : ChangeEvent) :
    @KeepsEvent (listed operations events schemas values) event := by
  let := listed operations events schemas values
  intro body hbody
  exact ⟨event, documentAt_of_position hfew hbody, rfl⟩

/-- The state that a run passes right after the log came to hold so many records. -/
def stoppedWith {α : Type} (program : Saving α) (count : Nat) (disk : Disk) : Option Disk :=
  (program disk).passed.find? fun state => state.wal.payloads.toOption.any fun payloads =>
    payloads.length = count

theorem stops_of_stoppedWith {α : Type} {program : Saving α} {count : Nat} {disk found : Disk}
    (h : stoppedWith program count disk = some found) : program.Stops disk found :=
  .inr (mem_of_find?_eq_some h)

/-- The blank block reference of a memo field, in a record with the given flag. -/
def blankMemoImage (flag : UInt8) : Bytes :=
  singleFieldImage 0x83 0x4d 10 0 [flag :: List.replicate 10 0x20]

attribute [local instance] Runtime.bare Filters.bare Indexing.none SchemaExport.none

/-- A table with a memo field and without a memo file: the redo record of the save is
logged before the history refuses the image, and then no load succeeds. -/
theorem failed_save_blocks_loads :
    letI := Serde.deleting ""
    let start := Disk.fresh (blankMemoImage 0x20) none none
    ∃ before left error, (fromPath "t.dbf").Finishes start start before ∧
      (saveWithWal ((Call.delete 1).run before).1 "t.dbf").Fails start left (.err error) ∧
      ∀ last table, ¬ (fromPath "t.dbf").Finishes left last table := by
  let := Serde.deleting ""
  intro start
  have hrun : (do
      let (loaded, before) ← (fromPath "t.dbf").finish? start
      let (left, error) ← (saveWithWal ((Call.delete 1).run before).1 "t.dbf").fail? start
      if start = loaded ∧ ((fromPath "t.dbf").finish? left).isSome = false then some ()
        else none) =
        some () := by decide +kernel
  simp only [bind_eq_some, check_eq_some, Prod.exists, finish?_eq_some,
    Durable.fail?_eq_some] at hrun
  obtain ⟨loaded, before, hload, left, error, hfails, hstart, hblocked⟩ := hrun
  rw [← hstart] at hload
  refine ⟨before, left, error, hload, hfails, fun last table hreload => ?_⟩
  rw [finish?_eq_some.mpr hreload] at hblocked
  cases hblocked

/-- The same save: its redo record is logged before the check that it fails on. -/
theorem failed_save_is_no_commit_logged :
    letI := Serde.deleting ""
    let start := Disk.fresh (blankMemoImage 0x20) none none
    ∃ before left stop, (fromPath "t.dbf").Finishes start start before ∧
      (saveWithWal ((Call.delete 1).run before).1 "t.dbf").Fails start left stop ∧
      ¬ FailsEarly ((Call.delete 1).run before).1 "t.dbf" none start ∧
      ¬ ∃ last, (fromPath "t.dbf").Finishes left last before := by
  let := Serde.deleting ""
  intro start
  have hrun : (do
      let (loaded, before) ← (fromPath "t.dbf").finish? start
      let plan ← (planSave ((Call.delete 1).run before).1 "t.dbf" start).toOption
      let (left, error) ← (saveWithWal ((Call.delete 1).run before).1 "t.dbf").fail? start
      if start = loaded ∧ checkRecordSize plan.payload = Except.ok () then some ()
        else none) = some () := by
    decide +kernel
  simp only [bind_eq_some, check_eq_some, Prod.exists, finish?_eq_some,
    Durable.fail?_eq_some] at hrun
  obtain ⟨loaded, before, hload, plan, hplan, left, error, hfails, hstart, hsize⟩ := hrun
  rw [← hstart] at hload
  have hlate : ¬ FailsEarly ((Call.delete 1).run before).1 "t.dbf" none start := by
    simp [FailsEarly, eq_ok_of_toOption hplan, hsize]
  exact ⟨before, left, .err error, hload, hfails, hlate, (failed_save_is_no_commit
    (fun _ _ => Serde.listed_keepsEvent _ _ _ _ (by decide) _) hload hfails).not.mpr hlate⟩

/-- A save was stopped with its log complete: the first load redoes it. -/
theorem load_is_idempotent_redone :
    letI := Serde.deleting "x"
    ∃ start before cut last table, (fromPath "t.dbf").Finishes start start before ∧
      (saveWithWal ((Call.delete 1).run before).1 "t.dbf").Stops start cut ∧
      (fromPath "t.dbf").Finishes cut last table ∧ last.dbf ≠ cut.dbf ∧
      (fromPath "t.dbf").Finishes last last table := by
  let := Serde.deleting "x"
  let start := Disk.fresh (singleFieldImage 0x03 0x43 1 0 [[0x20, 0x78]]) none none
  have hrun : (do
      let (loaded, before) ← (fromPath "t.dbf").finish? start
      let cut ← stoppedWith (saveWithWal ((Call.delete 1).run before).1 "t.dbf") 3 start
      let (last, table) ← (fromPath "t.dbf").finish? cut
      if start = loaded ∧ cut.exportJournal = LogFile.absent ∧
        last.dbf ≠ cut.dbf then some () else none) =
        some () := by decide +kernel
  simp only [bind_eq_some, check_eq_some, Prod.exists, finish?_eq_some] at hrun
  obtain ⟨loaded, before, hbefore, cut, hcut, last, table, hload, hstart, hjournal, hredone⟩ := hrun
  rw [← hstart] at hbefore
  exact ⟨start, before, cut, last, table, hbefore, stops_of_stoppedWith hcut, hload, hredone,
    load_is_idempotent hjournal hload⟩

/-- Two holders of one table: the second is refused once the first has saved. -/
theorem stale_table_is_refused_second :
    letI := listed [] [⟨1, false, []⟩] [] []
    ∃ start table saved stop, (fromPath "t.dbf").Finishes start start table ∧
      Saves "t.dbf" start saved ∧ (saveWithWal table "t.dbf").Fails saved saved stop := by
  let := listed [] [⟨1, false, []⟩] [] []
  let start := Disk.fresh (singleFieldImage 0x03 0x43 1 0 []) none none
  have hrun : (do
      let (first, table) ← (fromPath "t.dbf").finish? start
      let (saved, after) ← (saveWithWalInner table "t.dbf" none).finish? start
      if start = first then some () else none) = some () := by decide +kernel
  simp only [bind_eq_some, check_eq_some, Prod.exists, finish?_eq_some] at hrun
  obtain ⟨first, table, hload, saved, after, hsave, hfirst⟩ := hrun
  rw [← hfirst] at hload
  have hsaves : Saves "t.dbf" start saved := ⟨_, _, _, hsave⟩
  obtain ⟨⟨stop, hfails⟩, -⟩ := stale_table_is_refused rfl hload .refl (.single hsaves)
  exact ⟨start, table, saved, stop, hload, hsaves, hfails⟩

end TxBase.Dbf
