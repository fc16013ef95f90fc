import TxBase.Catalog.TransactionIds
import TxBase.Catalog.Transactions
import TxBase.Dbf.FailedSave

/-! What a catalog transaction does to the files beside the tables: one that reads leaves them,
and a commit advances the transaction id by one and writes its sidecar. -/
set_option linter.dupNamespace false

namespace TxBase.Catalog
open Lib Json Dbf List
open Procedure (Calls run_bind_ok run_bind_eq_ok run_done_eq_ok run_ofExcept_eq_ok
  run_mapError_eq_ok)
variable {op : CatalogOp} {disk last : CatalogDisk} {catalog : Catalog} {name : String}
  {replacements : Tables}
  {txn : Nat} {reuse : Bool} {bytes : Option Bytes} {running : Running}
  {steps : List TransactionStep}
  {precondition : Option CommitPrecondition}

section Runs
variable [Runtime] [Filters] [Serde] [Indexing] [SchemaExport]

/-- The result of a procedure on a directory, and what it leaves there. -/
def runOn {ε α : Type} (program : Procedure CatalogOp CatalogOp.Reply IoError ε α)
    (disk : CatalogDisk) :
    Except ε α × CatalogDisk := program.run CatalogOp.exec disk

end Runs

def singleTable : Catalog := ⟨"catalog", [⟨"T", "T.dbf"⟩], none, by simp⟩

def singleTableDisk (image : Bytes) : CatalogDisk where
  tables _ := ⟨some image, none, none, none, .absent, .absent, .absent, none, .absent⟩
  state := none
  history := none
  cdc := none
  sidecars _ := none

/-- The operations that change no file beside the tables and the change log. -/
def CatalogOp.Reads : CatalogOp → Prop
  | .commitFiles _ => False
  | _ => True

/-- The state, the history and the sidecars are the same. -/
structure Kept (before after : CatalogDisk) : Prop where
  state : after.state = before.state
  history : after.history = before.history
  sidecars : after.sidecars = before.sidecars

theorem Kept.refl (disk : CatalogDisk) : Kept disk disk := ⟨rfl, rfl, rfl⟩

theorem Kept.trans {first second third : CatalogDisk} (h : Kept first second)
    (h' : Kept second third) :
    Kept first third :=
  ⟨h'.state.trans h.state, h'.history.trans h.history, h'.sidecars.trans h.sidecars⟩

section Reads

theorem perform_reads (h : op.Reads) : Calls CatalogOp.Reads (Catalog.perform op) := by
  refine ⟨h, fun answer => ?_⟩
  cases answer <;> trivial

theorem performOn_reads (h : op.Reads) : Calls CatalogOp.Reads (Catalog.performOn name op) := by
  refine ⟨h, fun answer => ?_⟩
  cases answer <;> trivial

theorem readTransactionIdLocked_reads : Calls CatalogOp.Reads Catalog.readTransactionIdLocked := by
  refine .bind (perform_reads (by trivial)) fun state => ?_
  cases state with
  | none => trivial
  | some bytes => exact (Calls.ofExcept _).bind fun _ => trivial

theorem nextTransactionIdLocked_reads : Calls CatalogOp.Reads Catalog.nextTransactionIdLocked :=
  .bind (perform_reads (by trivial)) fun _ => .ofExcept _

theorem acquireLock_reads : Calls CatalogOp.Reads Catalog.acquireLock :=
  .bind (perform_reads (by trivial)) fun _ => readTransactionIdLocked_reads.bind fun _ => trivial

variable [Runtime] [Filters] [Serde]

theorem openTableUnlocked_reads (catalog : Catalog) (name : String) :
    Calls CatalogOp.Reads (catalog.openTableUnlocked name) := by
  unfold Catalog.openTableUnlocked
  split
  · trivial
  · split
    · split
      · trivial
      · exact .ofExcept _
    · exact .bind (performOn_reads (by trivial)) fun _ => .ofExcept _

theorem openTables_reads (catalog : Catalog) : Calls CatalogOp.Reads catalog.openTables :=
  .collect fun _ => (openTableUnlocked_reads _ _).bind fun _ => trivial

variable [SchemaJson]

theorem schemaRepresentationUnlocked_reads (catalog : Catalog) :
    Calls CatalogOp.Reads catalog.schemaRepresentationUnlocked := by
  refine .bind (.bind ?_ fun _ => .bind (.collect fun _ =>
    (openTableUnlocked_reads _ _).bind fun _ => trivial) fun _ => trivial) fun _ => trivial
  split
  · trivial
  · exact readTransactionIdLocked_reads

theorem schemaRepresentation_reads (catalog : Catalog) :
    Calls CatalogOp.Reads catalog.schemaRepresentation :=
  acquireLock_reads.bind fun _ => schemaRepresentationUnlocked_reads catalog

end Reads

section Runs
variable {state : Option Bytes}

theorem currentTransactionId_eq_ok {current : Nat} :
    currentTransactionId state = .ok current ↔
      ∃ found, state.mapM decodeTransactionId = .ok found ∧ found.getD 0 = current := by
  cases state with
  | none => simp [currentTransactionId, pure, Except.pure]
  | some bytes =>
    cases hdecode : decodeTransactionId bytes with
    | error error | ok txn => simp [currentTransactionId, hdecode, Option.mapM_some]

theorem nextTransactionId_eq_ok {result : Nat} :
    nextTransactionId state = .ok result ↔
      ∃ current, currentTransactionId state = .ok current ∧ result = current + 1 ∧
        result < u64Size := by
  unfold nextTransactionId
  rw [bind_eq_ok]
  refine exists_congr fun current => and_congr_right fun _ => ?_
  split
  · simp only [reduceCtorEq, false_iff]
    omega
  · rw [Except.ok.injEq]
    omega

variable [Runtime] [Filters] [Serde] [Indexing] [SchemaExport]

theorem exec_keeps (disk : CatalogDisk) (h : op.Reads) : Kept disk (op.exec disk).2 := by
  cases op with
  | commitFiles changes => cases h
  | openCdc =>
    dsimp only [CatalogOp.exec]
    split <;> exact ⟨rfl, rfl, rfl⟩
  | _ => exact ⟨rfl, rfl, rfl⟩

theorem keeps_of_reads {ε α : Type} {program : Procedure CatalogOp CatalogOp.Reply IoError ε α}
    (h : Calls CatalogOp.Reads program) {result : Except ε α}
    (hrun : runOn program disk = (result, last)) :
    Kept disk last := by
  have hkept := h.run Kept.refl (fun _ _ _ => Kept.trans)
    (fun _ disk hop => exec_keeps disk hop) disk
  rw [show program.run CatalogOp.exec disk = (result, last) from hrun] at hkept
  exact hkept

theorem runOn_perform {reply : op.Reply} (h : op.exec disk = (.ok reply, last)) :
    runOn (Catalog.perform op) disk = (.ok reply, last) := by
  unfold runOn Catalog.perform
  rw [run_bind_ok (Procedure.run_ask _), h]
  rfl

theorem runOn_readSidecar (name : String) (disk : CatalogDisk) :
    runOn (Catalog.perform (.readSidecar name)) disk = (.ok (disk.sidecars name), disk) :=
      runOn_perform rfl

theorem runOn_readTransactionIdLocked (disk : CatalogDisk) :
    runOn Catalog.readTransactionIdLocked disk =
      (Outcome.lift (disk.state.mapM decodeTransactionId), disk) := by
  unfold Catalog.readTransactionIdLocked runOn
  rw [run_bind_ok (runOn_perform rfl)]
  cases disk.state with
  | none => rfl
  | some bytes =>
    cases hdecode : decodeTransactionId bytes with
    | error error => simp [Outcome.lift, Outcome.fail, hdecode, Option.mapM_some]
    | ok txn => simp [Outcome.lift, hdecode, Option.mapM_some]

theorem runOn_acquireLock {result : Unit} :
    runOn Catalog.acquireLock disk = (.ok result, last) ↔
      (∃ current, currentTransactionId disk.state = .ok current) ∧ disk = last := by
  unfold runOn Catalog.acquireLock
  rw [run_bind_ok (runOn_perform rfl)]
  simp only [run_bind_eq_ok, run_done_eq_ok]
  rw [show Procedure.run _ _ _ = _ from runOn_readTransactionIdLocked disk]
  simp only [Prod.mk.injEq, Outcome.lift_eq_ok, true_and]
  constructor
  · rintro ⟨found, _, ⟨hfound, rfl⟩, rfl⟩
    exact ⟨⟨_, currentTransactionId_eq_ok.mpr ⟨found, hfound, rfl⟩⟩, rfl⟩
  · rintro ⟨⟨current, hcurrent⟩, rfl⟩
    obtain ⟨found, hfound, -⟩ := currentTransactionId_eq_ok.mp hcurrent
    exact ⟨found, _, ⟨hfound, rfl⟩, rfl⟩

theorem runOn_readSidecarBytes :
    runOn (Catalog.readSidecarBytes name) disk = (.ok bytes, last) ↔
      (∃ current, currentTransactionId disk.state = .ok current) ∧
        disk.sidecars name = bytes ∧ disk = last := by
  unfold Catalog.readSidecarBytes
  rw [runOn, run_bind_eq_ok]
  constructor
  · rintro ⟨_, middle, hlock, hread⟩
    obtain ⟨hcurrent, rfl⟩ := runOn_acquireLock.mp hlock
    cases (runOn_readSidecar name disk).symm.trans hread
    exact ⟨hcurrent, rfl, rfl⟩
  · rintro ⟨hcurrent, rfl, rfl⟩
    exact ⟨(), disk, runOn_acquireLock.mpr ⟨hcurrent, rfl⟩, runOn_readSidecar name disk⟩

theorem runOn_nextTransactionIdLocked (disk : CatalogDisk) :
    runOn Catalog.nextTransactionIdLocked disk =
      (Outcome.lift (nextTransactionId disk.state), disk) := by
  unfold Catalog.nextTransactionIdLocked runOn
  rw [run_bind_ok (runOn_perform rfl), Procedure.run_ofExcept]

end Runs

section Committed

def Change.OnTable : Change → Prop
  | .dbf .. => True
  | .memo .. => True
  | .index .. => True
  | .files .. => True
  | _ => False

theorem CatalogDisk.applyAll_append (disk : CatalogDisk) (left right : List Change) :
    disk.applyAll (left ++ right) = (disk.applyAll left).applyAll right := foldl_append

variable {changes : List Change}

theorem CatalogDisk.applyAll_onTable (h : ∀ change ∈ changes, change.OnTable) (disk : CatalogDisk) :
    disk.applyAll changes = { disk with tables := (disk.applyAll changes).tables } := by
  induction changes generalizing disk with
  | nil => rfl
  | cons change rest ih =>
    obtain ⟨hchange, hrest⟩ := forall_mem_cons.mp h
    show (disk.apply change).applyAll rest =
      { disk with tables := ((disk.apply change).applyAll rest).tables }
    rw [ih hrest]
    cases change with
    | dbf name bytes => rfl
    | memo name memo => rfl
    | index name bytes => rfl
    | files name files => rfl
    | _ => cases hchange

/-- A commit has advanced the transaction id by one and written its sidecar. -/
structure Committed (disk last : CatalogDisk) (transactionId : Nat)
    (sidecar : Option (String × Bytes)) :
    Prop where
  next : nextTransactionId disk.state = .ok transactionId
  state : last.state = some (transactionStateBytes transactionId)
  sidecars : last.sidecars =
    sidecar.elim disk.sidecars fun entry => Function.update disk.sidecars entry.1 (some entry.2)

theorem stageEvent_reads [EventSerde] (event : CatalogChangeEvent) :
    Calls CatalogOp.Reads (Catalog.stageEvent event) := by
  refine (Calls.ofExcept _).bind fun _ => Calls.bind (Calls.ask trivial) fun found => ?_
  rcases found with _ | _ | _
  · exact Calls.ofExcept _
  · exact .ofExcept _
  · refine .bind (.bind (.ask trivial) fun answer => ?_) fun _ => .ofExcept _
    rcases answer with _ | _ | _ <;> trivial

variable {before : Tables}

theorem sidecars_applyAll_sidecarChange (disk : CatalogDisk) (sidecar : Option (String × Bytes)) :
    (disk.applyAll (Catalog.sidecarChange sidecar)).sidecars =
      sidecar.elim disk.sidecars fun entry =>
        Function.update disk.sidecars entry.1 (some entry.2) := by
  cases sidecar <;> rfl

variable {sidecar : Option SidecarChange} {next : Running}

theorem requireTransactionId_reads (expected : Option Nat) :
    Calls CatalogOp.Reads (Catalog.requireTransactionId expected) := by
  cases expected with
  | none => trivial
  | some expected =>
    refine readTransactionIdLocked_reads.mapError.bind fun _ => ?_
    split <;> trivial

variable [Runtime] [Filters] [Serde] [Indexing]

theorem stageTable_reads (catalog : Catalog) (name : String) (table : DbfTable) :
    Calls CatalogOp.Reads (catalog.stageTable name table) :=
  (Calls.ofExcept _).bind fun _ => Calls.bind (performOn_reads (by trivial)) fun _ =>
    (Calls.ofExcept _).bind fun _ => Calls.bind (perform_reads (by trivial)) fun _ =>
      (Calls.ofExcept _).bind fun _ => trivial

theorem stageTables_reads (catalog : Catalog) (replacements : Tables) :
    Calls CatalogOp.Reads (catalog.stageTables replacements) :=
  .collect fun _ => (stageTable_reads _ _ _).bind fun _ => trivial

omit [Indexing] in
theorem withReplacements_reads (catalog : Catalog) (replacements : Tables) :
    Calls CatalogOp.Reads (catalog.withReplacements replacements) := by
  refine .collect fun entry => ?_
  split
  · trivial
  · exact (openTableUnlocked_reads _ _).bind fun _ => trivial

omit [Indexing] in
theorem tableSnapshots_reads (catalog : Catalog) (before replacements : Tables) (reuse : Bool) :
    Calls CatalogOp.Reads (catalog.tableSnapshots before replacements reuse) := by
  refine .collect fun entry => .bind ?_ fun _ =>
    .bind (performOn_reads (by trivial)) fun _ => trivial
  split
  · trivial
  · split
    · exact .ofExcept _
    · exact openTableUnlocked_reads _ _

variable {before : Tables} {sidecar : Option SidecarChange} {next : Running}

omit [Serde] [Indexing] in
theorem touched_of_operation {operation : OperationIr}
    (h : catalog.applyOperationToTables running operation = .ok next) : next.touched ≠ [] := by
  unfold Catalog.applyOperationToTables at h
  simp only [bind_eq_ok] at h
  obtain ⟨_, _, _, _, _, _, _, _, _, _, _, _, _, _, _, _, h⟩ := h
  cases h
  exact cons_ne_nil _ _

omit [Serde] [Indexing] in
theorem touched_of_step {step : TransactionStep} (h : catalog.applyStep running step = .ok next) :
    (running.touched ≠ [] ∨ step.isConstraintCommand = false) → next.touched ≠ [] := by
  cases step with
  | mutation operation => exact fun _ => touched_of_operation h
  | command command =>
    obtain ⟨table, all, names, mode⟩ := command
    obtain ⟨deferred, _, hnext⟩ := bind_eq_ok.mp h
    cases hnext
    rintro (htouched | hcommand)
    · exact htouched
    · cases hcommand

omit [Serde] [Indexing] in
theorem touched_of_steps (h : catalog.applySteps before steps = .ok running)
    (hmutation : ∃ step ∈ steps, step.isConstraintCommand = false) : running.touched ≠ [] := by
  obtain ⟨deferred, _, h⟩ := bind_eq_ok.mp h
  have hsteps : ∀ (steps : List TransactionStep) (start : Running),
      steps.foldlM catalog.applyStep start = .ok running →
      (start.touched ≠ [] ∨ ∃ step ∈ steps, step.isConstraintCommand = false) →
        running.touched ≠ [] := by
    intro steps
    induction steps with
    | nil =>
      rintro start hrun (htouched | ⟨_, hmem, _⟩)
      · cases hrun
        exact htouched
      · cases hmem
    | cons first rest ih =>
      intro start hrun hsome
      rw [foldlM_cons] at hrun
      obtain ⟨next, hnext, hrest⟩ := bind_eq_ok.mp hrun
      refine ih next hrest ?_
      rcases hsome with htouched | ⟨step, hmem, hstep⟩
      · exact .inl (touched_of_step hnext (.inl htouched))
      rcases mem_cons.mp hmem with rfl | hmem
      · exact .inl (touched_of_step hnext (.inr hstep))
      · exact .inr ⟨step, hmem, hstep⟩
  exact hsteps steps _ h (.inr hmutation)

variable [SchemaExport]

theorem stageTable_onTable {table staged : DbfTable}
    (h : runOn (catalog.stageTable name table) disk = (.ok (staged, changes), last)) :
    ∀ change ∈ changes, change.OnTable := by
  unfold runOn Catalog.stageTable at h
  simp only [run_bind_eq_ok, run_ofExcept_eq_ok, run_done_eq_ok] at h
  obtain ⟨_, _, _, _, _, _, prepared, _, _, _, _, _, index, _, ⟨hindex, _⟩, hdone, _⟩ := h
  cases hdone
  have hindexOn : ∀ change ∈ index, change.OnTable := by
    cases hpayload : prepared.2.indexPayload with
    | none =>
      rw [hpayload] at hindex
      cases hindex
      exact forall_mem_nil _
    | some payload =>
      simp only [hpayload] at hindex
      split at hindex
      · cases hindex
      · cases hindex
      · cases hindex
        exact forall_mem_singleton.mpr trivial
  intro change hmem
  rcases mem_cons.mp hmem with rfl | hmem
  · trivial
  rcases mem_append.mp hmem with hmem | hmem
  · obtain ⟨memo, _, rfl⟩ := Option.map_eq_some_iff.mp (Option.mem_toList.mp hmem)
    trivial
  · exact hindexOn change hmem

theorem stageTables_onTable {staged : List ((String × DbfTable) × List Change)}
    (h : runOn (catalog.stageTables replacements) disk = (.ok staged, last)) :
    ∀ change ∈ staged.flatMap Prod.snd, change.OnTable := by
  have hall := Procedure.forall_of_run_collect
      (P := fun entry => ∀ change ∈ entry.2, Change.OnTable change) (by
    intro entry _ start value stop hrun
    obtain ⟨result, middle, hstage, hdone⟩ := run_bind_eq_ok.mp hrun
    cases hdone
    exact stageTable_onTable hstage) h
  intro change hmem
  obtain ⟨entry, hentry, hmem⟩ := mem_flatMap.mp hmem
  exact hall entry hentry change hmem

theorem commit_eq_ok :
    runOn (Catalog.commit changes) disk = (.ok txn, last) ↔
      nextTransactionId disk.state = .ok txn ∧
        last = disk.applyAll (changes ++ [.state (transactionStateBytes txn)]) := by
  unfold runOn Catalog.commit
  rw [run_bind_eq_ok]
  rw [show Procedure.run _ _ _ = _ from runOn_nextTransactionIdLocked disk]
  simp only [Prod.mk.injEq, Outcome.lift_eq_ok]
  constructor
  · rintro ⟨found, middle, ⟨hnext, rfl⟩, h⟩
    rw [run_bind_ok (runOn_perform rfl)] at h
    cases h
    exact ⟨hnext, rfl⟩
  · rintro ⟨hnext, rfl⟩
    refine ⟨txn, disk, ⟨hnext, rfl⟩, ?_⟩
    rw [run_bind_ok (runOn_perform rfl)]
    rfl

variable {before : Tables} {sidecar : Option SidecarChange} {next : Running}

theorem requireSidecar_eq_ok (h : runOn (Catalog.requireSidecar sidecar) disk = (.ok (), last)) :
    disk = last ∧ ∀ change, sidecar = some change → disk.sidecars change.name = change.before := by
  cases sidecar with
  | none =>
    cases h
    exact ⟨rfl, nofun⟩
  | some change =>
    unfold runOn Catalog.requireSidecar Reading.committing at h
    simp only [run_bind_eq_ok, run_mapError_eq_ok] at h
    obtain ⟨actual, middle, hread, h⟩ := h
    cases (runOn_readSidecar change.name disk).symm.trans hread
    split at h
    · cases h
    · rename_i hsame
      cases h
      refine ⟨rfl, ?_⟩
      rintro _ ⟨⟩
      exact not_not.mp hsame

variable [EventSerde]

theorem commitReplacements_eq_ok {effects : CommitSideEffects}
    (h : runOn (catalog.commitReplacements before replacements reuse effects) disk =
      (.ok (txn, bytes), last)) :
    ∃ sidecar staged middle history cdc, Kept disk middle ∧
      nextTransactionId disk.state = .ok txn ∧
      Catalog.sidecarAfter effects.sidecar txn = .ok sidecar ∧ bytes = sidecar.map Prod.snd ∧
      (∀ change ∈ staged, Change.OnTable change) ∧
      last = middle.applyAll (Catalog.sidecarChange sidecar ++ staged ++
        [.history history, .cdc cdc] ++
        effects.extraChanges ++ [.state (transactionStateBytes txn)]) := by
  unfold runOn Catalog.commitReplacements at h
  simp only [run_bind_eq_ok, run_ofExcept_eq_ok, run_done_eq_ok,
    Reading.committing, run_mapError_eq_ok] at h
  obtain ⟨id, first, hid, sidecar, second, ⟨hsidecar, rfl⟩, staged, third, hstaged,
    snapshots, fourth,
    hsnapshots, historyBefore, fifth, hhistory, historyAfter, _, ⟨_, rfl⟩, event, _,
    ⟨_, rfl⟩, cdc, sixth,
    hcdc, committed, seventh, hcommit, hdone, rfl⟩ := h
  cases hdone
  have hkept : Kept disk sixth :=
    (keeps_of_reads nextTransactionIdLocked_reads hid).trans
      ((keeps_of_reads (stageTables_reads _ _) hstaged).trans
        ((keeps_of_reads (tableSnapshots_reads _ _ _ _) hsnapshots).trans
          ((keeps_of_reads (perform_reads (by trivial)) hhistory).trans
            (keeps_of_reads (stageEvent_reads _) hcdc))))
  rw [show Procedure.run _ _ _ = _ from runOn_nextTransactionIdLocked disk, Prod.mk.injEq,
    Outcome.lift_eq_ok] at hid
  obtain ⟨hcommitted, rfl⟩ := commit_eq_ok.mp hcommit
  rw [hkept.state, hid.1] at hcommitted
  cases hcommitted
  exact ⟨sidecar, _, sixth, historyAfter, cdc, hkept, hid.1, hsidecar, rfl,
    stageTables_onTable hstaged, rfl⟩

theorem commitReplacements_committed
    (h : runOn (catalog.commitReplacements before replacements reuse ⟨[], sidecar⟩) disk =
      (.ok (txn, bytes), last)) :
    ∃ after, Catalog.sidecarAfter sidecar txn = .ok after ∧ bytes = after.map Prod.snd ∧
      Committed disk last txn after := by
  obtain ⟨after, staged, middle, history, cdc, hkept, hnext, hafter, hbytes, hstaged, rfl⟩ :=
    commitReplacements_eq_ok h
  refine ⟨after, hafter, hbytes, hnext, ?_, ?_⟩
  · simp only [CatalogDisk.applyAll_append]
    rfl
  · simp only [CatalogDisk.applyAll_append, append_nil]
    rw [← hkept.sidecars, ← sidecars_applyAll_sidecarChange middle after]
    show (CatalogDisk.applyAll _ staged).sidecars = _
    rw [CatalogDisk.applyAll_onTable hstaged]

theorem commitLoadedTablesLocked_committed (htouched : running.touched ≠ [])
    (h : runOn (catalog.commitLoadedTablesLocked before running reuse ⟨[], sidecar⟩) disk =
      (.ok (txn, bytes), last)) :
    ∃ after, Catalog.sidecarAfter sidecar txn = .ok after ∧ bytes = after.map Prod.snd ∧
      Committed disk last txn after := by
  unfold runOn Catalog.commitLoadedTablesLocked at h
  rw [if_neg (by simpa using htouched)] at h
  simp only [run_bind_eq_ok, run_ofExcept_eq_ok] at h
  obtain ⟨images, _, ⟨_, rfl⟩, ⟨tables, cascaded⟩, _, ⟨_, rfl⟩, h⟩ := h
  obtain ⟨middle, hkept, hcommit⟩ : ∃ middle, Kept disk middle ∧
      runOn (catalog.commitReplacements before
        (tables.filter fun entry => (cascaded ++ running.touched).contains entry.1) reuse
          ⟨[], sidecar⟩) middle =
        (.ok (txn, bytes), last) := by
    split at h
    · obtain ⟨_, middle, hvalidate, hcommit⟩ := run_bind_eq_ok.mp h
      exact ⟨middle, keeps_of_reads (.ofExcept _) hvalidate, hcommit⟩
    · obtain ⟨_, middle, hvalidate, hcommit⟩ := run_bind_eq_ok.mp h
      exact ⟨middle, keeps_of_reads
        (((withReplacements_reads _ _).bind fun _ => .ofExcept _).mapError) hvalidate, hcommit⟩
  obtain ⟨after, hafter, hbytes, hnext, hstate, hsidecars⟩ := commitReplacements_committed hcommit
  exact ⟨after, hafter, hbytes, hkept.state ▸ hnext, hstate, hkept.sidecars ▸ hsidecars⟩

variable [SchemaJson]

omit [Indexing] [SchemaExport] [EventSerde] in
theorem requirePrecondition_reads (catalog : Catalog) (before : Tables)
    (precondition : CommitPrecondition) :
    Calls CatalogOp.Reads (catalog.requirePrecondition before precondition) := by
  refine Calls.bind ?_ fun _ => (Calls.ofExcept _).bind fun _ => ?_
  · split
    · exact (schemaRepresentationUnlocked_reads catalog).mapError.bind fun _ => trivial
    · trivial
  · cases precondition with
    | catalog | table => exact (Calls.ofExcept _).bind fun _ => Calls.ofExcept _

theorem commitStepsInternal_committed (hmutation : ∃ step ∈ steps, step.isConstraintCommand = false)
    (h : runOn (catalog.commitStepsInternal steps precondition sidecar) disk =
      (.ok (txn, bytes), last)) :
    catalog.historicalSnapshot = none ∧ (∀ change, sidecar = some change →
      disk.sidecars change.name = change.before) ∧
      ∃ after, Catalog.sidecarAfter sidecar txn = .ok after ∧ bytes = after.map Prod.snd ∧
        Committed disk last txn after := by
  unfold runOn Catalog.commitStepsInternal at h
  simp only [run_bind_eq_ok, run_ofExcept_eq_ok, Reading.committing,
    run_mapError_eq_ok] at h
  obtain ⟨_, _, ⟨_, rfl⟩, _, _, ⟨hlive, rfl⟩, _, first, hlock, _, second, hid, _, third,
    hsidecar, before,
    fourth, hopen, _, fifth, hprecondition, running, _, ⟨hsteps, rfl⟩, hcommit⟩ := h
  have hbefore : Kept disk second :=
    (keeps_of_reads acquireLock_reads hlock).trans
      (keeps_of_reads (requireTransactionId_reads _) hid)
  obtain ⟨rfl, hexpected⟩ := requireSidecar_eq_ok hsidecar
  have hkept : Kept disk fifth := by
    refine hbefore.trans ((keeps_of_reads (openTables_reads _) hopen).trans ?_)
    cases precondition with
    | none =>
      cases hprecondition
      exact .refl _
    | some precondition => exact keeps_of_reads (requirePrecondition_reads _ _ _) hprecondition
  obtain ⟨after, hafter, hbytes, hnext, hstate, hsidecars⟩ :=
    commitLoadedTablesLocked_committed (touched_of_steps hsteps hmutation) hcommit
  refine ⟨?_, fun change hchange => hbefore.sidecars ▸ hexpected change hchange, after,
    hafter, hbytes,
    hkept.state ▸ hnext, hstate, hkept.sidecars ▸ hsidecars⟩
  unfold refuseTransaction Catalog.isHistorical at hlive
  split at hlive
  · cases hlive
  · rename_i hnone
    simpa using hnone

section Bytes
variable {before : Option Bytes} {bytes : Bytes} (other : Bytes)

def SidecarChange.replacing (name : String) (before : Option Bytes) (bytes : Bytes) :
    SidecarChange :=
  ⟨name, before, fun _ => .ok bytes⟩

variable {written : Option Bytes} {tables : Tables}

omit [SchemaJson] in
theorem commitReplacements_replacing
    (h : runOn (catalog.commitReplacements tables replacements reuse
      ⟨[], some (.replacing name before bytes)⟩) disk = (.ok (txn, written), last)) :
    ∃ written last, runOn (catalog.commitReplacements tables replacements reuse
      ⟨[], some (.replacing name before other)⟩) disk = (.ok (txn, written), last) := by
  unfold runOn Catalog.commitReplacements at h ⊢
  simp only [run_bind_eq_ok, run_ofExcept_eq_ok, run_done_eq_ok,
    Reading.committing, run_mapError_eq_ok] at h ⊢
  obtain ⟨id, first, hid, sidecar, _, ⟨_, rfl⟩, staged, third, hstaged, snapshots,
    fourth, hsnapshots,
    historyBefore, fifth, hhistory, historyAfter, _, ⟨hafter, rfl⟩, event, _, ⟨hevent, rfl⟩,
    cdc, sixth, hcdc,
    committed, seventh, hcommit, hdone, rfl⟩ := h
  cases hdone
  have hnext := (commit_eq_ok.mp hcommit).1
  exact ⟨some other, _, id, first, hid, some (name, other), first, ⟨rfl, rfl⟩, staged, third,
    hstaged, snapshots,
    fourth, hsnapshots, historyBefore, fifth, hhistory, historyAfter, fifth,
    ⟨hafter, rfl⟩, event, fifth,
    ⟨hevent, rfl⟩, cdc, sixth, hcdc, txn, _, commit_eq_ok.mpr ⟨hnext, rfl⟩, rfl, rfl⟩

omit [SchemaJson] in
theorem commitLoadedTablesLocked_replacing (htouched : running.touched ≠ [])
    (h : runOn (catalog.commitLoadedTablesLocked tables running reuse
      ⟨[], some (.replacing name before bytes)⟩) disk = (.ok (txn, written), last)) :
    ∃ written last, runOn (catalog.commitLoadedTablesLocked tables running reuse
      ⟨[], some (.replacing name before other)⟩) disk = (.ok (txn, written), last) := by
  unfold runOn Catalog.commitLoadedTablesLocked at h ⊢
  rw [if_neg (by simpa using htouched)] at h ⊢
  simp only [run_bind_eq_ok, run_ofExcept_eq_ok] at h ⊢
  obtain ⟨images, _, ⟨himages, rfl⟩, cascade, _, ⟨hcascade, rfl⟩, h⟩ := h
  split at h
  all_goals
    rename_i hreuse
    obtain ⟨_, middle, hvalidate, hcommit⟩ := run_bind_eq_ok.mp h
    obtain ⟨written, last, hrun⟩ := commitReplacements_replacing other hcommit
    refine ⟨written, last, images, disk, ⟨himages, rfl⟩, cascade, disk, ⟨hcascade, rfl⟩, ?_⟩
    first | rw [if_pos hreuse] | rw [if_neg hreuse]
    exact run_bind_eq_ok.mpr ⟨_, middle, hvalidate, hrun⟩

theorem commitStepsInternal_replacing (hmutation : ∃ step ∈ steps, step.isConstraintCommand = false)
    (h : runOn (catalog.commitStepsInternal steps precondition
      (some (.replacing name before bytes))) disk = (.ok (txn, written), last)) :
    ∃ written last, runOn (catalog.commitStepsInternal steps precondition
      (some (.replacing name before other))) disk = (.ok (txn, written), last) := by
  unfold runOn Catalog.commitStepsInternal at h ⊢
  simp only [run_bind_eq_ok, run_ofExcept_eq_ok] at h ⊢
  obtain ⟨_, _, ⟨hempty, rfl⟩, _, _, ⟨hlive, rfl⟩, _, first, hlock, _, second, hid, _, third,
    hsidecar, tables,
    fourth, hopen, _, fifth, hprecondition, running, _, ⟨hsteps, rfl⟩, hcommit⟩ := h
  obtain ⟨written, last, hrun⟩ :=
    commitLoadedTablesLocked_replacing other (touched_of_steps hsteps hmutation) hcommit
  exact ⟨written, last, _, disk, ⟨hempty, rfl⟩, _, disk, ⟨hlive, rfl⟩, _, first, hlock, _, second,
    hid, _, third,
    hsidecar, tables, fourth, hopen, _, fifth, hprecondition, running, fifth, ⟨hsteps, rfl⟩, hrun⟩

end Bytes

end Committed

end TxBase.Catalog
