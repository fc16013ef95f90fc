import TxBase.Dbf.FailedSave

/-! Sequences of saves, each of which may be stopped after any of its durable steps, with
recoveries between them, which may be stopped too.  As long as no save is stopped while
its log holds nothing but the layout marker, a log belongs to one save. -/
namespace TxBase.Dbf
open Lib Json List
open Durable (finishes_bind Keeps passed_bind not_passed_ask finishes_ask not_passed_pure)
open Outcome (lift_eq_ok)
open DbfTable (fromPath)

section Runs
variable {found disk : Disk} {path : String} {table : DbfTable} {state : Disk}
  {last : Option SavePlan}
  {encoding : Option String} {clean : Disk} {plan : SavePlan} {written : List Bytes}

theorem transactionId_mem_of_initial (hinit : written <+: plan.records none) (hsome : written ≠ [])
    (hmarker : written ≠ [layoutChangePayload]) :
    transactionIdPayload plan.transactionId ∈ written := by
  obtain ⟨payload, rest, rfl⟩ := exists_cons_of_ne_nil hsome
  unfold SavePlan.records SavePlan.marker at hinit
  cases hlayout : plan.layoutChanged with
  | false =>
    simp only [hlayout, Bool.false_eq_true, if_false, Option.toList_none, nil_append,
      cons_prefix_cons] at hinit
    rw [hinit.1]
    exact mem_cons_self
  | true =>
    simp only [hlayout, if_true, Option.toList_none, nil_append, cons_append,
      cons_prefix_cons] at hinit
    obtain ⟨rfl, hinit⟩ := hinit
    cases rest with
    | nil => exact absurd rfl hmarker
    | cons other rest =>
      rw [(cons_prefix_cons.mp hinit).1]
      simp

variable [Runtime] [Filters] [Serde] [Indexing]

/-- A sequence of saves and recoveries, the state it has reached, and the last save that
came to open its log.  No save is stopped right behind its layout marker. -/
inductive SaveRun (path : String) : Disk → Option SavePlan → Prop
  | start {disk : Disk} (hwal : disk.wal = .absent) : SaveRun path disk none
  | recover {disk found : Disk} {last : Option SavePlan} {encoding : Option String}
      (hrun : SaveRun path disk last)
      (hstop : (recoverWalWithEncoding path encoding).Stops disk found) : SaveRun path found last
  | save {disk clean found : Disk} {last : Option SavePlan} {table : DbfTable} {plan : SavePlan}
      {recovered : Bool} (hrun : SaveRun path disk last)
      (hrecover : (recoverWalWithEncoding path table.encodingOverride).Finishes disk clean recovered)
      (hplan : planSave table path clean = .ok plan)
      (hstop : (saveRecovered table path none).Stops clean found)
      (hmarker : found.wal ≠ .records [layoutChangePayload]) : SaveRun path found (some plan)

/-- The log of the run belongs to its last save, and holds more than the layout marker. -/
structure Owned (path : String) (disk : Disk) (plan : SavePlan) : Prop where
  planned : ∃ table clean, Planned table path clean plan
  log : ∃ written, written <+: plan.records none ∧
    transactionIdPayload plan.transactionId ∈ written ∧
    disk.wal = .records written

/-- What the log of a run may hold. -/
def LogOwned (path : String) (disk : Disk) (last : Option SavePlan) : Prop :=
  disk.wal = .absent ∨ disk.wal = .records [] ∨ ∃ plan, last = some plan ∧ Owned path disk plan

/-- While files are replaced the log stays, until it is removed. -/
def LogKept (disk state : Disk) : Prop :=
  state.wal = disk.wal ∨ state.wal = .records [] ∨ state.wal = .absent

theorem LogOwned.of_kept (h : LogOwned path disk last)
    (hkept : LogKept disk state) : LogOwned path state last := by
  rcases hkept with hsame | hempty | habsent
  · rcases h with h | h | ⟨plan, hlast, hplanned, written, hinit, hmem, hwal⟩
    · exact .inl (hsame.trans h)
    · exact .inr (.inl (hsame.trans h))
    · exact .inr (.inr ⟨plan, hlast, hplanned, written, hinit, hmem, hsame.trans hwal⟩)
  · exact .inr (.inl hempty)
  · exact .inl habsent

omit [Runtime] [Filters] [Serde] [Indexing] in
theorem keeps_logKept_removeWal (disk : Disk) : Keeps (LogKept disk) removeWal :=
  .bind (.step fun _ _ => .inr (.inl rfl)) fun _ => .step fun _ _ => .inr (.inr rfl)

omit [Runtime] [Filters] [Serde] in
theorem keeps_logKept_installIndex (disk : Disk) (plan : SavePlan) :
    Keeps (LogKept disk) (installIndex plan) := by
  unfold installIndex
  split
  · exact keeps_applySnapshotPayload (fun _ _ h => h) _
  · exact .bind (.ask _) fun _ => .forSome fun _ => .step fun _ h => h

theorem keeps_logKept_installSave (disk : Disk) (plan : SavePlan) :
    Keeps (LogKept disk) (installSave plan) :=
  .bind (keeps_prepareSnapshot _ _ _ _ (fun _ _ h => h) _) fun _ =>
    .bind (.forSome fun _ => .step fun _ h => h) fun _ => .bind (.step fun _ h => h) fun _ =>
    .bind (keeps_logKept_installIndex disk plan) fun _ =>
    .bind (keeps_writeTransactionState (fun _ _ h => h) _) fun _ =>
    .bind (keeps_commitSnapshot _ _ _ _ (fun _ _ h => h) _) fun _ =>
    .bind (keeps_appendCdc (fun _ _ h => h) _) fun _ => keeps_logKept_removeWal disk

theorem keeps_logKept_redoSnapshot (disk : Disk) (encoding : Option String) (pending : PendingLog)
    (snapshot : RecoverySnapshot) : Keeps (LogKept disk)
    (redoSnapshot encoding pending snapshot) := by
  refine .bind (.ask _) fun _ => .bind (.forSome fun _ => .step fun _ h => h) fun _ =>
    .bind (.step fun _ h => h) fun _ =>
    .bind (.forSome (keeps_applySnapshotPayload fun _ _ h => h)) fun _ =>
    .bind (.forSome fun txn => ?_) fun _ => keeps_logKept_removeWal disk
  exact .bind (.bind (.ask _) fun _ => keeps_writeTransactionState (fun _ _ h => h) _) fun _ =>
    .bind (keeps_commitRecoveredSnapshot _ _ _ _ fun _ _ h => h) fun _ =>
    .forSome (keeps_appendCdc fun _ _ h => h)

theorem LogOwned.recover_passed (h : LogOwned path disk last)
    (hstate : state ∈ (recoverWalWithEncoding path encoding disk).passed) : LogKept disk state := by
  simp only [recoverWalWithEncoding, passed_bind, not_passed_ask, false_or,
    finishes_ask, Except.ok.injEq] at hstate
  obtain ⟨_, log, ⟨rfl, hlog⟩, hstate⟩ := hstate
  rcases h with hwal | hwal | ⟨plan, -, ⟨table, clean, hplanned⟩, written, hinit, hmem, hwal⟩
  · rw [← hlog, hwal] at hstate
    exact absurd hstate not_passed_pure
  · rw [← hlog, hwal] at hstate
    rcases passed_bind.mp hstate with hremove | ⟨_, _, -, hpure⟩
    · exact (keeps_logKept_removeWal _).passed _ (.inl rfl) state hremove
    · exact absurd hpure not_passed_pure
  · rw [← hlog, hwal] at hstate
    cases written with
    | nil => cases hmem
    | cons payload rest =>
      simp only [recoverPending, passed_bind, not_passed_ask, false_or,
        finishes_ask] at hstate
      obtain ⟨_, pending, ⟨rfl, -⟩, hstate⟩ := hstate
      cases hsnapshot : pending.snapshot <;> rw [hsnapshot] at hstate
      case some snapshot =>
        rcases passed_bind.mp hstate with hredo | ⟨_, _, -, hpure⟩
        · exact (keeps_logKept_redoSnapshot _ _ _ _).passed _ (.inl rfl) state hredo
        · exact absurd hpure not_passed_pure
      case none =>
        have hnone : findLastPayload decodeOperationPayload (payload :: rest) = .ok none :=
          findLastPayload_eq_none.mpr fun other hother =>
            records_operation hplanned other (hinit.subset hother)
        simp only [recoverOperation, passed_bind, not_passed_ask, false_or,
          finishes_ask, hnone, lift_eq_ok, Except.ok.injEq] at hstate
        obtain ⟨_, _, ⟨rfl, rfl⟩, hstate⟩ := hstate
        rcases passed_bind.mp hstate with hremove | ⟨_, _, -, hpure⟩
        · exact (Keeps.when (keeps_logKept_removeWal _)).passed _ (.inl rfl) state hremove
        · exact absurd hpure not_passed_pure

theorem LogOwned.recover_finishes {result : Bool} (h : LogOwned path disk last)
    (hrecover : (recoverWalWithEncoding path encoding).Finishes disk clean result) :
    clean.wal = .absent := by
  rcases (recovered hrecover).wal with habsent | ⟨rfl, payloads, hrecords, hidle⟩
  · exact habsent
  · rcases h with hwal | hwal | ⟨plan, -, ⟨table, planning, hplanned⟩, written, hinit, hmem, hwal⟩
    · exact hwal
    · exact (congrArg Disk.wal (hrecover.unique (finishes_recover_empty hwal)).1)
    · -- The log names a transaction, so that it is not left.
      cases hwal.symm.trans hrecords
      obtain ⟨current, -, hnext⟩ := hplanned.transactionId
      obtain ⟨hid, hsmall⟩ := nextTransactionId_eq_ok.mp hnext
      have hnone := hidle.transactionId _ hmem
      rw [decodeTransactionIdPayload_payload (by omega) hsmall] at hnone
      cases hnone

theorem logOwned_of_save (hwal : clean.wal = .absent) (hplan : planSave table path clean = .ok plan)
    (hstop : (saveRecovered table path none).Stops clean found)
    (hmarker : found.wal ≠ .records [layoutChangePayload]) : LogOwned path found (some plan) := by
  rcases hstop with rfl | hpassed
  · exact .inl hwal
  have hlog : logSave plan none = (do let _ ← openWal; appendAll (plan.records none)) :=
    logSave_eq rfl
  simp only [saveRecovered, passed_bind, not_passed_ask, false_or, or_false,
    finishes_ask, and_false, exists_false] at hpassed
  obtain ⟨clean, other, ⟨rfl, hother⟩, hpassed⟩ := hpassed
  cases hplan.symm.trans hother
  let opened : Disk := { clean with wal := .records [] }
  have hopen : openWal.Finishes clean opened [] :=
    finishes_openWal.mpr ⟨by rw [hwal]; rfl, by rw [hwal]; rfl⟩
  have howned : ∀ written, written <+: plan.records none → written ≠ [] →
      written ≠ [layoutChangePayload] → ∀ state : Disk, state.wal = .records written →
      LogOwned path state (some plan) := fun written hinit hsome hmarker state hstate =>
    .inr (.inr ⟨plan, rfl, ⟨table, clean, planned hplan⟩, written, hinit,
      transactionId_mem_of_initial hinit hsome hmarker, hstate⟩)
  rw [hlog] at hpassed
  rcases hpassed with hlogging | ⟨logged, _, hlogged, hinstall⟩
  · rcases passed_bind.mp hlogging with hopening | ⟨middle, _, hfirst, happend⟩
    · simp only [openWal, passed_bind, not_passed_ask, Durable.passed_step,
        not_passed_pure, finishes_ask, false_or, or_false, and_false,
        exists_false] at hopening
      obtain ⟨_, _, ⟨rfl, -⟩, rfl⟩ := hopening
      exact .inr (.inl (by rw [hwal]; rfl))
    · obtain ⟨rfl, -⟩ := hopen.unique hfirst
      obtain ⟨written, hinit, hsome, rfl⟩ := passed_appendAll rfl found happend
      exact howned written hinit hsome (fun heq => hmarker (by rw [heq]; rfl)) _ rfl
  · obtain ⟨middle, _, hfirst, happend⟩ := finishes_bind.mp hlogged
    obtain ⟨rfl, -⟩ := hopen.unique hfirst
    obtain ⟨-, rfl⟩ := (finishes_appendAll rfl).mp happend
    have hlong : 3 ≤ (plan.records none).length := by
      simp only [SavePlan.records, length_append, length_cons]
      omega
    refine LogOwned.of_kept (howned _ prefix_rfl ?_ ?_ _ rfl)
      ((keeps_logKept_installSave _ plan).passed _ (.inl rfl) found hinstall)
    all_goals
      intro heq
      rw [heq] at hlong
      simp at hlong

theorem SaveRun.logOwned (h : SaveRun path disk last) : LogOwned path disk last := by
  induction h with
  | start hwal => exact .inl hwal
  | recover _ hstop ih =>
    rcases hstop with rfl | hpassed
    · exact ih
    · exact ih.of_kept (ih.recover_passed hpassed)
  | save _ hrecover hplan hstop hmarker ih =>
    exact logOwned_of_save (ih.recover_finishes hrecover) hplan hstop hmarker

theorem redo_initial {files : TableFiles} {snapshot : RecoverySnapshot}
    (hplan : Planned table path clean plan)
    (hinit : written <+: plan.records none)
    (h : findLastPayload (decodeWalPayload files) written = .ok (some snapshot)) :
    ∃ rest, rest <+: plan.payload :: plan.indexPayload.toList ∧ written =
      (plan.marker ++ [transactionIdPayload plan.transactionId]) ++ plan.cdcPayload :: rest := by
  have hsplit : plan.records none =
      ((plan.marker ++ [transactionIdPayload plan.transactionId]) ++ [plan.cdcPayload]) ++
        (plan.payload :: plan.indexPayload.toList) := by
    simp [SavePlan.records]
  rw [hsplit] at hinit
  rcases prefix_or_prefix_of_prefix hinit (prefix_append _ _) with hshort | ⟨rest, rfl⟩
  · -- No record before the redo record gives an image.
    obtain ⟨payload, hmem, hdecoded⟩ := findLastPayload_mem h
    have hmap : ∀ {α : Type} {result : Checked α},
        result.map (fun _ => (none : Option RecoverySnapshot)) ≠ .ok (some snapshot) := by
      intro α result
      cases result <;> simp [Except.map]
    have hmem := hshort.subset hmem
    simp only [mem_append, mem_singleton] at hmem
    rcases hmem with (hmarker | rfl) | rfl
    · rw [eq_of_mem_marker hmarker, decodeWalPayload_other files marks_layoutChange] at hdecoded
      exact absurd hdecoded hmap
    · rw [decodeWalPayload_other files (marks_transactionId _)] at hdecoded
      exact absurd hdecoded hmap
    · rw [decodeWalPayload_other files (marks_cdcPayload hplan.cdc)] at hdecoded
      cases hdecoded
  · exact ⟨rest, (prefix_append_right_inj _).mp hinit, by simp⟩

theorem readPending_redo {pending : PendingLog} (hserde : Serde.KeepsEvent plan.event)
    (hplan : Planned table path clean plan)
    (hinit : written <+: plan.records none) (hpending : readPending disk written = .ok pending)
    (hredo : pending.snapshot ≠ none) :
    pending.transactionId = some plan.transactionId ∧ pending.forceNewEpoch = plan.layoutChanged ∧
      ∃ event, pending.event = some event ∧ event.outline = plan.event.outline := by
  obtain ⟨-, hid, hevent, -, hlayout, hsnapshot⟩ := readPending_eq_ok.mp hpending
  obtain ⟨snapshot, hsome⟩ := Option.ne_none_iff_exists'.mp hredo
  rw [hsome] at hsnapshot
  obtain ⟨rest, hrest, rfl⟩ := redo_initial hplan hinit hsnapshot
  obtain ⟨current, -, hnext⟩ := hplan.transactionId
  obtain ⟨hpositive, hsmall⟩ := nextTransactionId_eq_ok.mp hnext
  obtain ⟨read, hread, houtline⟩ := decodeCdcPayload_cdcPayload hserde hplan.cdc
  have hcdc := marks_cdcPayload hplan.cdc
  -- The records behind the event are the redo record and the index.
  have hbehind : ∀ payload ∈ rest, ∃ kind : RecordKind, kind.Marks payload ∧ kind ≠ .event ∧
      kind ≠ .layoutChange := by
    intro payload hmem
    rcases mem_cons.mp (hrest.subset hmem) with rfl | hindex
    · obtain ⟨kind, hkind, hone⟩ := marks_redoPayload hplan.payload
      refine ⟨kind, hkind, ?_, ?_⟩ <;> rintro rfl <;>
        rcases hone with hone | hone | hone <;> cases hone
    · exact ⟨.index, marks_indexPayload hplan (Option.mem_toList.mp hindex), by decide, by decide⟩
  refine ⟨?_, ?_, read, ?_, houtline⟩
  · have hfound := findLastPayload_eq_some
      (fun payload hmem => records_transactionId hplan
        (show operationRecord none = .ok none from rfl)
        payload (hinit.subset hmem))
      ⟨transactionIdPayload plan.transactionId, by simp,
        decodeTransactionIdPayload_payload (by omega) hsmall⟩
    rw [hfound] at hid
    exact (Except.ok.inj hid).symm
  · have hnone : ∀ payload ∈ transactionIdPayload plan.transactionId :: plan.cdcPayload :: rest,
        decodeLayoutChangePayload payload = .ok none := by
      refine forall_mem_cons.mpr ⟨decodeLayoutChangePayload_other (marks_transactionId _)
        (by decide), forall_mem_cons.mpr ⟨decodeLayoutChangePayload_other hcdc (by decide), ?_⟩⟩
      intro payload hmem
      obtain ⟨kind, hkind, -, hne⟩ := hbehind payload hmem
      exact decodeLayoutChangePayload_other hkind hne.symm
    rw [append_assoc, foldlM_append, noteLayoutChanges_marker] at hlayout
    exact (Except.ok.inj ((noteLayoutChanges_none hnone).symm.trans hlayout)).symm
  · have hmarked : ∀ payload ∈ plan.marker ++ [transactionIdPayload plan.transactionId],
        decodeCdcPayload payload = .ok none := by
      intro payload hmem
      rcases mem_append.mp hmem with hmem | hmem
      · rw [eq_of_mem_marker hmem]
        exact decodeCdcPayload_other marks_layoutChange (by decide)
      · rw [mem_singleton.mp hmem]
        exact decodeCdcPayload_other (marks_transactionId _) (by decide)
    rw [eventFromWal_eq_some hmarked hread fun payload hmem => by
      obtain ⟨kind, hkind, hne, -⟩ := hbehind payload hmem
      exact decodeCdcPayload_other hkind hne.symm] at hevent
    exact (Except.ok.inj hevent).symm

/-- A recovery that completes a commit starts a new row epoch in the history, and appends
a reset event, exactly when that commit changed the layout. -/
theorem recovery_keeps_epoch {path : String} {disk final : Disk} {last : Option SavePlan}
    {encoding : Option String} (hserde : ∀ plan ∈ last, Serde.KeepsEvent plan.event)
    (h : SaveRun path disk last)
    (hrecover : (recoverWalWithEncoding path encoding).Finishes disk final true) :
    ∃ plan image written event, last = some plan ∧ event.outline = plan.event.outline ∧
      event.reset = plan.layoutChanged ∧
      Redone plan.transactionId image written plan.layoutChanged (some event) disk final := by
  have howned := h.logOwned
  cases recovered hrecover with
  | redone payloads pending snapshot hwal hpending hsnapshot hrun =>
    rcases howned with habsent | hempty | ⟨plan, hlast, ⟨table, clean, hplan⟩, written, hinit, -,
      hwritten⟩
    · cases hwal.symm.trans habsent
    · cases hwal.symm.trans hempty
      have hnone := (readPending_eq_ok.mp hpending).2.2.2.2.2
      rw [hsnapshot] at hnone
      cases hnone
    · cases hwal.symm.trans hwritten
      obtain ⟨hid, hlayout, event, hevent, houtline⟩ :=
        readPending_redo (hserde plan hlast) hplan hinit hpending (by rw [hsnapshot]; nofun)
      have hredone := redone_of_snapshot hid hrun
      rw [hlayout, hevent] at hredone
      have hreset : event.reset = plan.event.reset := congrArg (fun outline => outline.2.1) houtline
      exact ⟨plan, _, _, event, hlast, houtline, hreset.trans hplan.event_flags.2, hredone⟩
  | executed payloads pending operation plan hwal hpending hsnapshot hoperation hplan hrun =>
    -- No save of the run logs an operation.
    rcases howned with habsent | hempty | ⟨owner, -, ⟨table, clean, howner⟩, written, hinit, -,
      hwritten⟩
    · cases hwal.symm.trans habsent
    · cases hwal.symm.trans hempty
      cases hoperation
    · cases hwal.symm.trans hwritten
      rw [findLastPayload_eq_none.mpr fun payload hmem =>
        records_operation howner payload (hinit.subset hmem)] at hoperation
      cases hoperation

end Runs

def latestEpoch [Serde] (log : LogFile) : Checked (Option Nat) := do
  let records ← readMvccRecords log
  let committed ← committedSnapshots records
  .ok (committed.getLast?.map fun entry => entry.2.rowEpoch)

attribute [local instance] Runtime.bare Filters.bare Indexing.none SchemaExport.none

/-- The documents of a run that packs a table of two records. -/
@[reducible] def Serde.packing : Serde :=
  Serde.listed [] [⟨1, true, [⟨1, some ⟨true, [("A", .string "x")]⟩,
    some ⟨false, [("A", .string "y")]⟩⟩,
    ⟨2, some ⟨false, [("A", .string "y")]⟩, none⟩]⟩] [] [[("A", .string "y")]]

/-- The save of a packed table is stopped with its log complete. -/
theorem recovery_keeps_epoch_packed :
    letI := Serde.packing
    let start := Disk.fresh (singleFieldImage 0x03 0x43 1 0 [[0x2a, 0x78], [0x20, 0x79]]) none none
    ∃ cut final last, SaveRun "t.dbf" cut (some last) ∧
      (recoverWalWithEncoding "t.dbf" none).Finishes cut final true ∧
      (∃ loaded, (fromPath "t.dbf").Finishes start start loaded ∧
        planSave (Call.pack.run loaded).1 "t.dbf" start = .ok last ∧ last.layoutChanged = true) ∧
      ∃ image written event, event.reset = last.layoutChanged ∧
        Redone last.transactionId image written last.layoutChanged (some event) cut final := by
  let := Serde.packing
  intro start
  have hrun : (do
      let (first, loaded) ← (fromPath "t.dbf").finish? start
      let edited := (Call.pack.run loaded).1
      let plan ← (planSave edited "t.dbf" start).toOption
      let (clean, recovered) ←
        (recoverWalWithEncoding "t.dbf" edited.encodingOverride).finish? start
      let cut ← stoppedWith (saveRecovered edited "t.dbf" none) 4 start
      let (final, redone) ← (recoverWalWithEncoding "t.dbf" none).finish? cut
      if start = first ∧ start = clean ∧ redone = true ∧ plan.layoutChanged = true ∧
          cut.wal ≠ LogFile.records [layoutChangePayload] then some () else none) = some () := by
    decide +kernel
  simp only [bind_eq_some, check_eq_some, Prod.exists, Durable.finish?_eq_some] at hrun
  obtain ⟨first, loaded, hloaded, plan, hplan, clean, recovered, hclean, cut, hcut, final, redone,
    hfinal, hfirst, hstart, rfl, hlayout, hmarker⟩ := hrun
  rw [← hstart] at hclean
  rw [← hfirst] at hloaded
  have hcutRun : SaveRun "t.dbf" cut (some plan) :=
    .save (.start rfl) hclean (eq_ok_of_toOption hplan)
    (stops_of_stoppedWith hcut) hmarker
  obtain ⟨other, image, written, event, hlast, -, hreset, hredone⟩ :=
    recovery_keeps_epoch (fun _ _ => Serde.listed_keepsEvent _ _ _ _ (by decide) _) hcutRun hfinal
  cases hlast
  exact ⟨cut, final, plan, hcutRun, hfinal,
    ⟨loaded, hloaded, eq_ok_of_toOption hplan, hlayout⟩, image,
    written, event, hreset, hredone⟩

@[reducible] def Serde.repacking : Serde :=
  .listed []
    [⟨1, false, [⟨1, some ⟨false, [("A", .string "x")]⟩, some ⟨true, [("A", .string "x")]⟩⟩]⟩,
      ⟨2, true, [⟨1, some ⟨true, [("A", .string "x")]⟩, some ⟨false, [("A", .string "y")]⟩⟩,
        ⟨2, some ⟨false, [("A", .string "y")]⟩, none⟩]⟩,
      ⟨2, false, [⟨2, some ⟨false, [("A", .string "y")]⟩, some ⟨true, [("A", .string "y")]⟩⟩]⟩]
    [] [[("A", .string "x")], [("A", .string "y")]]

/-- A save of a packed table is stopped behind its layout marker; the next save, which only
deletes a record, is stopped with its log complete.  Its recovery starts a new row epoch
beside an event that is no reset. -/
theorem epoch_of_another_save :
    letI := Serde.repacking
    let start := Disk.fresh (singleFieldImage 0x03 0x43 1 0 [[0x20, 0x78], [0x20, 0x79]]) none none
    ∃ loaded saved table other marked cut final plan payloads event,
      (fromPath "t.dbf").Finishes start start loaded ∧
      (saveWithWal ((Call.delete 1).run loaded).1 "t.dbf").Finishes start saved table ∧
      (saveWithWal (Call.pack.run table).1 "t.dbf").Stops saved marked ∧
      (fromPath "t.dbf").Finishes marked marked other ∧
      planSave ((Call.delete 2).run other).1 "t.dbf" marked = .ok plan ∧
      plan.layoutChanged = false ∧
      (saveWithWal ((Call.delete 2).run other).1 "t.dbf").Stops marked cut ∧
      (recoverWalWithEncoding "t.dbf" none).Finishes cut final true ∧
      latestEpoch saved.mvcc = .ok (some 1) ∧ latestEpoch final.mvcc = .ok (some 2) ∧
      cut.wal = .records payloads ∧ eventFromWal payloads = .ok (some event) ∧
      event.reset = false := by
  let := Serde.repacking
  intro start
  have hrun : (do
      let (first, loaded) ← (fromPath "t.dbf").finish? start
      let (saved, table) ← (saveWithWal ((Call.delete 1).run loaded).1 "t.dbf").finish? start
      let marked ← stoppedWith (saveWithWal (Call.pack.run table).1 "t.dbf") 1 saved
      let (second, other) ← (fromPath "t.dbf").finish? marked
      let plan ← (planSave ((Call.delete 2).run other).1 "t.dbf" marked).toOption
      let cut ← stoppedWith (saveWithWal ((Call.delete 2).run other).1 "t.dbf") 4 marked
      let (final, redone) ← (recoverWalWithEncoding "t.dbf" none).finish? cut
      let payloads ← cut.wal.payloads.toOption
      let event ← (eventFromWal payloads).toOption.join
      if first = start ∧ marked = second ∧ plan.layoutChanged = false ∧ redone = true ∧
          latestEpoch saved.mvcc = Except.ok (some 1) ∧
          latestEpoch final.mvcc = Except.ok (some 2) ∧ cut.wal = LogFile.records payloads ∧
            event.reset = false then some () else none) = some () := by
    decide +kernel
  simp only [bind_eq_some, check_eq_some, Option.join_eq_some_iff, Prod.exists,
    Durable.finish?_eq_some] at hrun
  obtain ⟨first, loaded, hloaded, saved, table, hsaved, marked, hmarked, second, other,
    hsecond, plan,
    hplan, cut, hcut, final, redone, hfinal, payloads, -, event, hevent, rfl, rfl,
    hlayout, rfl, hone,
    htwo, hwal, hreset⟩ := hrun
  exact ⟨loaded, saved, table, other, marked, cut, final, plan, payloads, event, hloaded, hsaved,
    stops_of_stoppedWith hmarked, hsecond, eq_ok_of_toOption hplan, hlayout,
      stops_of_stoppedWith hcut, hfinal,
    hone, htwo, hwal, eq_ok_of_toOption hevent, hreset⟩

end TxBase.Dbf
