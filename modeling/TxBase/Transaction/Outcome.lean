import TxBase.Transaction.Manager

/-! One outcome per transaction, over whole sessions of calls and restarts.  A
transaction stays active when its outcome was appended and the sync failed;
finishing it again writes a second outcome, and nothing else does. -/
namespace TxBase.Transaction
open Lib List
variable {marker : UInt8} {transaction : Transaction}

/-- What a client does: the three calls, and a restart on the reopened log. -/
inductive Call (W : Type) where
  | begin
  | commit (transaction : Transaction)
  | rollback (transaction : Transaction)
  | restart (wal : W)

/-- `finish` appends the outcome and then fails to sync it. -/
def TransactionManager.leavesUnsynced {W : Type} [Wal W] (manager : TransactionManager W)
    (transaction : Transaction) (marker : UInt8) : Bool :=
  if manager.active.get? transaction.id ≠ some transaction then false
  else
    match Wal.append manager.wal (transactionRecord marker transaction) with
    | (_, .error _) => false
    | (wal, .ok _) =>
      match Wal.sync wal with
      | (_, .error _) => true
      | (_, .ok ()) => false

/-- A manager and what its client has seen: the rollbacks that returned `Ok`, and
the transactions of this process whose outcome was left unsynced. -/
structure Session (W : Type) where
  manager : TransactionManager W
  rolledBack : List Nat := []
  unsynced : List Nat := []

namespace Session
variable {W : Type} [LogWal W]

def start (wal : W) : Session W := { manager := .new wal }

def noteUnsynced (session : Session W) (transaction : Transaction) (marker : UInt8) : List Nat :=
  if session.manager.leavesUnsynced transaction marker then transaction.id :: session.unsynced
  else session.unsynced

def step (session : Session W) : Call W → Session W
  | .begin => { session with manager := (session.manager.begin .snapshot).1 }
  | .commit transaction =>
      { session with
        manager := (session.manager.commit transaction).1
        unsynced := session.noteUnsynced transaction commitMarker }
  | .rollback transaction =>
      { manager := (session.manager.rollback transaction).1
        unsynced := session.noteUnsynced transaction rollbackMarker
        rolledBack :=
          match (session.manager.rollback transaction).2 with
          | .ok () => transaction.id :: session.rolledBack
          | .error _ => session.rolledBack }
  | .restart wal => { session with manager := .new wal, unsynced := [] }

def run (session : Session W) (calls : List (Call W)) : Session W := calls.foldl step session

/-- A reopened log has lost at most records that were never synced. -/
def Reopens (old new : W) : Prop :=
  LogWal.durable old <+: LogWal.durable new ∧ LogWal.contents new <+: LogWal.contents old

/-- No call finishes a transaction again after its outcome was left unsynced. -/
def NoRetry (session : Session W) : Call W → Prop
  | .begin => True
  | .commit transaction => transaction.id ∉ session.unsynced
  | .rollback transaction => transaction.id ∉ session.unsynced
  | .restart wal => Reopens session.manager.wal wal

def NoRetries (session : Session W) : List (Call W) → Prop
  | [] => True
  | call :: rest => session.NoRetry call ∧ (session.step call).NoRetries rest

end Session

def IsCommitRecord (id : Nat) (record : Bytes) : Prop :=
  record.head? = some commitMarker ∧ transactionIdFromRecord record = some id

def IsRollbackRecord (id : Nat) (record : Bytes) : Prop :=
  record.head? = some rollbackMarker ∧ transactionIdFromRecord record = some id

theorem transactionIdFromRecord_transactionRecord
    (hmarker : marker = commitMarker ∨ marker = rollbackMarker)
    (hid : transaction.id < u64Size) :
    transactionIdFromRecord (transactionRecord marker transaction) = some transaction.id := by
  have hread : fromLeBytes (slice (transactionRecord marker transaction) 1 9) = transaction.id :=
    fromLeBytes_slice 8 [marker] (prefix_append _ _) rfl rfl hid
  unfold transactionIdFromRecord
  rw [if_pos ⟨by simp [transactionRecord], by simpa [transactionRecord] using hmarker⟩, hread]

theorem outcomeIds_append (left right : List (Lsn × Bytes)) :
    outcomeIds (left ++ right) = outcomeIds left ++ outcomeIds right :=
  filterMap_append

variable {records : List (Lsn × Bytes)} {id : Nat}

theorem record_unique (hnodup : (outcomeIds records).Nodup) {left right : Lsn × Bytes}
    (hleft : left ∈ records)
    (hright : right ∈ records) (hl : transactionIdFromRecord left.2 = some id)
    (hr : transactionIdFromRecord right.2 = some id) : left = right := by
  obtain ⟨before, after, rfl⟩ := append_of_mem hleft
  have hids : outcomeIds (before ++ left :: after) =
      outcomeIds before ++ id :: outcomeIds after := by
    simp [outcomeIds, hl]
  rw [hids, nodup_append, nodup_cons] at hnodup
  obtain ⟨-, ⟨hafter, -⟩, hbefore⟩ := hnodup
  have hmem : ∀ part, right ∈ part → id ∈ outcomeIds part := fun part hpart =>
    mem_filterMap.mpr ⟨right, hpart, hr⟩
  rcases mem_append.mp hright with hin | hin
  · exact absurd rfl (hbefore id (hmem _ hin) id (mem_cons_self))
  · rcases mem_cons.mp hin with heq | hin
    · exact heq.symm
    · exact absurd (hmem _ hin) hafter

/-- After a restart every id in the log is behind the next one, or the ids are
used up and no transaction can begin. -/
theorem lt_nextTransactionIdAfterRecords (h : id ∈ outcomeIds records) :
    id < nextTransactionIdAfterRecords records ∨
      nextTransactionIdAfterRecords records = u64Size - 1 := by
  unfold nextTransactionIdAfterRecords
  cases hmax : (outcomeIds records).max? with
  | none => rw [max?_eq_none_iff.mp hmax] at h; cases h
  | some largest =>
    have hle : id ≤ largest := (max?_eq_some_iff.mp hmax).2 id h
    simp only
    omega

theorem nextTransactionIdAfterRecords_lt (records : List (Lsn × Bytes)) :
    nextTransactionIdAfterRecords records < u64Size := by
  have hpos : 1 < u64Size := by decide
  unfold nextTransactionIdAfterRecords
  split <;> omega

section Finish
variable {W : Type} [LogWal W]
open LogWal

theorem finish_cases (manager : TransactionManager W) (transaction : Transaction) (marker : UInt8) :
    ∃ next result, manager.finish transaction marker = (next, result) ∧
      next.nextTransactionId = manager.nextTransactionId ∧
      ((∃ error, result = .error error ∧
          manager.leavesUnsynced transaction marker = false ∧
          contents next.wal = contents manager.wal ∧ durable next.wal = durable manager.wal ∧
          next.active = manager.active) ∨
        (manager.active.get? transaction.id = some transaction ∧ ∃ lsn,
          contents next.wal =
            contents manager.wal ++ [(lsn, transactionRecord marker transaction)] ∧
          ((∃ error, result = .error error ∧
              manager.leavesUnsynced transaction marker = true ∧
              durable next.wal = durable manager.wal ∧ next.active = manager.active) ∨
            (result = .ok lsn ∧ manager.leavesUnsynced transaction marker = false ∧
              durable next.wal = contents next.wal ∧
              next.active = manager.active.erase transaction.id)))) := by
  unfold TransactionManager.finish TransactionManager.leavesUnsynced
  by_cases hactive : manager.active.get? transaction.id = some transaction
  · simp only [hactive, ne_eq, not_true_eq_false, if_false]
    rcases happend : Wal.append manager.wal (transactionRecord marker transaction) with
      ⟨wal, error | lsn⟩
    · obtain ⟨hcontents, hdurable⟩ := append_error happend
      exact ⟨_, _, rfl, rfl, .inl ⟨error, rfl, rfl, hcontents, hdurable, rfl⟩⟩
    · obtain ⟨hcontents, hdurable⟩ := append_ok happend
      rcases hsync : Wal.sync wal with ⟨synced, error | ⟨⟩⟩
      · obtain ⟨hsame, hkept⟩ := sync_error hsync
        simp only [hsync]
        exact ⟨_, _, rfl, rfl, .inr ⟨trivial, lsn, hsame.trans hcontents,
          .inl ⟨error, rfl, trivial, hkept.trans hdurable, rfl⟩⟩⟩
      · obtain ⟨hsame, hall⟩ := sync_ok hsync
        simp only [hsync]
        exact ⟨_, _, rfl, rfl, .inr ⟨trivial, lsn, hsame.trans hcontents,
          .inr ⟨rfl, trivial, hall.trans hsame.symm, rfl⟩⟩⟩
  · simp only [ne_eq, hactive, not_false_eq_true, if_true]
    exact ⟨_, _, rfl, rfl, .inl ⟨_, rfl, trivial, rfl, rfl, rfl⟩⟩

variable {manager next : TransactionManager W}

/-- The ids in use are behind the next one, or the ids are used up. -/
structure TransactionManager.Ahead (manager : TransactionManager W) : Prop where
  next_lt : manager.nextTransactionId < u64Size
  behind : ∀ id ∈ outcomeIds (contents manager.wal),
    id < manager.nextTransactionId ∨ manager.nextTransactionId = u64Size - 1
  active : ∀ id transaction, manager.active.get? id = some transaction →
    id < manager.nextTransactionId

theorem new_ahead (wal : W) : (TransactionManager.new wal).Ahead := by
  simp only [TransactionManager.new, nextTransactionId_eq]
  exact ⟨nextTransactionIdAfterRecords_lt _, fun id hid => lt_nextTransactionIdAfterRecords hid,
    fun id transaction hget => by cases hget⟩

theorem begin_cases (h : manager.Ahead) (isolation : IsolationLevel) :
    (∃ error, manager.begin isolation = (manager, .error error)) ∨
      ∃ transaction, manager.begin isolation = ({ manager with
          nextTransactionId := transaction.id + 1,
          active := manager.active.insert transaction.id transaction }, .ok transaction) ∧
        transaction.id = manager.nextTransactionId ∧ transaction.id + 1 < u64Size ∧
        ∀ id ∈ outcomeIds (contents manager.wal), id < transaction.id := by
  simp only [TransactionManager.begin, checkedAdd]
  by_cases hroom : manager.nextTransactionId + 1 < u64Size
  · simp only [hroom, if_true]
    refine .inr ⟨⟨manager.nextTransactionId, ⟨_⟩⟩, rfl, rfl, hroom, fun id hid => ?_⟩
    -- There is room, so the ids are not used up and the new one is ahead of the log.
    have hcases := h.behind id hid
    dsimp only
    omega
  · simp only [hroom, if_false]
    exact .inl ⟨_, rfl⟩

theorem begin_ahead (h : manager.Ahead) (isolation : IsolationLevel) :
    (manager.begin isolation).1.Ahead := by
  obtain ⟨error, heq⟩ | ⟨transaction, heq, hid, hroom, hahead⟩ :=
    begin_cases h isolation <;> rw [heq]
  · exact h
  · refine ⟨hroom, fun id hmem => .inl (Nat.lt_succ_of_lt (hahead id hmem)), fun id other hget => ?_⟩
    rw [OrderedMap.get?_insert] at hget
    split at hget
    · rename_i heq
      exact heq ▸ Nat.lt_succ_self _
    · exact Nat.lt_succ_of_lt (hid ▸ h.active id other hget)

theorem finish_ids (h : manager.Ahead) (hmarker : marker = commitMarker ∨ marker = rollbackMarker)
    {records : List (Lsn × Bytes)} {lsn : Lsn}
    (hget : manager.active.get? transaction.id = some transaction) :
    outcomeIds (records ++ [(lsn, transactionRecord marker transaction)]) =
      outcomeIds records ++ [transaction.id] := by
  have hid := transactionIdFromRecord_transactionRecord hmarker
    (Nat.lt_trans (h.active _ _ hget) h.next_lt)
  simp [outcomeIds, hid]

theorem finish_ahead (h : manager.Ahead)
    (hmarker : marker = commitMarker ∨ marker = rollbackMarker) :
    (manager.finish transaction marker).1.Ahead := by
  obtain ⟨next, result, hfinish, hnext, hcases⟩ := finish_cases manager transaction marker
  simp only [hfinish]
  rcases hcases with ⟨error, -, -, hcontents, -, hactive⟩ | ⟨hget, lsn, hcontents, hcases⟩
  · exact ⟨hnext ▸ h.next_lt, by rw [hcontents, hnext]; exact h.behind,
      by rw [hactive, hnext]; exact h.active⟩
  · refine ⟨hnext ▸ h.next_lt, fun id hmem => ?_, fun id other hother => ?_⟩ <;> rw [hnext]
    · rw [hcontents, finish_ids h hmarker hget, mem_append, mem_singleton] at hmem
      rcases hmem with hold | rfl
      · exact h.behind id hold
      · exact .inl (h.active _ _ hget)
    · rcases hcases with ⟨error, -, -, -, hactive⟩ | ⟨-, -, -, hactive⟩ <;> rw [hactive] at hother
      · exact h.active id other hother
      · rw [OrderedMap.get?_erase] at hother
        split at hother
        · cases hother
        · exact h.active id other hother

theorem rollback_eq (manager : TransactionManager W) (transaction : Transaction) :
    (manager.rollback transaction).1 = (manager.finish transaction rollbackMarker).1 ∧
      ((manager.rollback transaction).2 = .ok () →
        ∃ lsn, (manager.finish transaction rollbackMarker).2 = .ok lsn) := by
  unfold TransactionManager.rollback
  rcases manager.finish transaction rollbackMarker with ⟨next, error | lsn⟩
  · exact ⟨rfl, fun hok => by cases hok⟩
  · exact ⟨rfl, fun _ => ⟨lsn, rfl⟩⟩

variable {session : Session W}

theorem step_ahead (h : session.manager.Ahead) (call : Call W) :
    (session.step call).manager.Ahead := by
  cases call with
  | begin => exact begin_ahead h _
  | commit transaction => exact finish_ahead h (.inl rfl)
  | rollback transaction =>
    simp only [Session.step, rollback_eq]
    exact finish_ahead h (.inr rfl)
  | restart wal => exact new_ahead wal

theorem run_ahead (calls : List (Call W)) (h : session.manager.Ahead) :
    (session.run calls).manager.Ahead := by
  induction calls generalizing session with
  | nil => exact h
  | cons call rest ih => exact ih (step_ahead h call)

/-- The invariant of a session without retries. -/
structure Session.Sound (session : Session W) : Prop extends session.manager.Ahead where
  nodup : (outcomeIds (contents session.manager.wal)).Nodup
  unsynced : ∀ id transaction, session.manager.active.get? id = some transaction →
    id ∈ outcomeIds (contents session.manager.wal) → id ∈ session.unsynced
  rolledBack : ∀ id ∈ session.rolledBack,
    ∃ record ∈ durable session.manager.wal, IsRollbackRecord id record.2

theorem start_sound (wal : W) (hnodup : (outcomeIds (contents wal)).Nodup) :
    (Session.start wal).Sound :=
  ⟨new_ahead wal, hnodup, fun _ _ hget => (by cases hget), fun _ hid => by cases hid⟩

theorem begin_sound (h : session.Sound) : (session.step .begin).Sound := by
  have hbegun := begin_ahead h.toAhead .snapshot
  simp only [Session.step]
  obtain ⟨error, heq⟩ | ⟨transaction, heq, -, -, hahead⟩ := begin_cases h.toAhead .snapshot <;>
    rw [heq] at hbegun ⊢
  · exact h
  · refine ⟨hbegun, h.nodup, fun id other hget hmem => ?_, h.rolledBack⟩
    rw [OrderedMap.get?_insert] at hget
    split at hget
    · rename_i heq
      exact absurd (hahead id hmem) (heq ▸ Nat.lt_irrefl _)
    · exact h.unsynced id other hget hmem

/-- Finishing a transaction that was not left unsynced keeps the invariant, with
`noted` for the unsynced ids and any list of rolled back ids that is accounted for. -/
theorem finish_sound {rolledBack : List Nat} (h : session.Sound)
    (hmarker : marker = commitMarker ∨ marker = rollbackMarker)
    (hretry : transaction.id ∉ session.unsynced)
    (hrolledBack : ∀ id ∈ rolledBack, id ∈ session.rolledBack ∨ id = transaction.id ∧
      marker = rollbackMarker ∧ ∃ lsn, (session.manager.finish transaction marker).2 = .ok lsn) :
    Session.Sound ⟨(session.manager.finish transaction marker).1, rolledBack,
      session.noteUnsynced transaction marker⟩ := by
  have hahead : (session.manager.finish transaction marker).1.Ahead := finish_ahead h.toAhead hmarker
  obtain ⟨next, result, hfinish, -, hcases⟩ := finish_cases session.manager transaction marker
  simp only [hfinish] at hrolledBack hahead ⊢
  rcases hcases with ⟨error, rfl, hnote, hcontents, hdurable, hactive⟩ |
    ⟨hget, lsn, hcontents, hcases⟩
  · have hsame : ∀ id ∈ rolledBack, id ∈ session.rolledBack := by
      intro id hid
      rcases hrolledBack id hid with hold | ⟨-, -, lsn, hok⟩
      · exact hold
      · cases hok
    simp only [Session.noteUnsynced, hnote, Bool.false_eq_true, if_false]
    refine ⟨hahead, by rw [hcontents]; exact h.nodup, ?_, ?_⟩
    · rw [hcontents, hactive]
      exact h.unsynced
    · rw [hdurable]
      exact fun id hid => h.rolledBack id (hsame id hid)
  · have hid := transactionIdFromRecord_transactionRecord hmarker
      (Nat.lt_trans (h.active _ _ hget) h.next_lt)
    have hids : outcomeIds (contents next.wal) =
        outcomeIds (contents session.manager.wal) ++ [transaction.id] := by
      rw [hcontents, finish_ids h.toAhead hmarker hget]
    have hnew : transaction.id ∉ outcomeIds (contents session.manager.wal) :=
      fun hmem => hretry (h.unsynced _ _ hget hmem)
    have hnodup : (outcomeIds (contents next.wal)).Nodup := by
      rw [hids, nodup_append]
      refine ⟨h.nodup, by simp, ?_⟩
      intro left hleft right hright heq
      rw [heq, mem_singleton.mp hright] at hleft
      exact hnew hleft
    have hgrows : contents session.manager.wal <+: contents next.wal := by
      rw [hcontents]
      exact prefix_append _ _
    rcases hcases with ⟨error, rfl, hnote, hdurable, hactive⟩ | ⟨rfl, hnote, hdurable, hactive⟩
    · simp only [Session.noteUnsynced, hnote, if_true]
      refine ⟨hahead, hnodup, ?_, ?_⟩
      · intro id other hother hmem
        rw [hactive] at hother
        rw [hids, mem_append, mem_singleton] at hmem
        rcases hmem with hold | rfl
        · exact mem_cons_of_mem _ (h.unsynced id other hother hold)
        · exact mem_cons_self
      · intro id hmem
        rw [hdurable]
        rcases hrolledBack id hmem with hold | ⟨-, -, lsn, hok⟩
        · exact h.rolledBack id hold
        · cases hok
    · simp only [Session.noteUnsynced, hnote, Bool.false_eq_true, if_false]
      refine ⟨hahead, hnodup, ?_, ?_⟩
      · intro id other hother hmem
        rw [hactive, OrderedMap.get?_erase] at hother
        split at hother
        · cases hother
        · rename_i hne
          rw [hids, mem_append, mem_singleton] at hmem
          exact h.unsynced id other hother (hmem.resolve_right hne)
      · intro id hmem
        rw [hdurable]
        rcases hrolledBack id hmem with hold | ⟨rfl, rfl, -⟩
        · obtain ⟨record, hrecord, hrollback⟩ := h.rolledBack id hold
          exact ⟨record, hgrows.subset ((durable_contents _).subset hrecord), hrollback⟩
        · exact ⟨_, by rw [hcontents]; exact mem_append_right _ (mem_singleton_self _),
            rfl, hid⟩

theorem restart_sound {wal : W} (h : session.Sound)
    (hreopens : Session.Reopens session.manager.wal wal) :
    (session.step (.restart wal)).Sound := by
  obtain ⟨hdurable, hcontents⟩ := hreopens
  have hsub : (outcomeIds (contents wal)).Sublist (outcomeIds (contents session.manager.wal)) :=
    hcontents.sublist.filterMap _
  refine ⟨new_ahead wal, h.nodup.sublist hsub, fun _ _ hget => (by cases hget), ?_⟩
  intro id hid
  obtain ⟨record, hrecord, hrollback⟩ := h.rolledBack id hid
  exact ⟨record, hdurable.subset hrecord, hrollback⟩

theorem step_sound {call : Call W} (h : session.Sound) (hcall : session.NoRetry call) :
    (session.step call).Sound := by
  cases call with
  | begin => exact begin_sound h
  | commit transaction => exact finish_sound h (.inl rfl) hcall fun id hid => .inl hid
  | rollback transaction =>
    obtain ⟨hmanager, hok⟩ := rollback_eq session.manager transaction
    simp only [Session.step, hmanager]
    refine finish_sound h (.inr rfl) hcall fun id hid => ?_
    split at hid
    · rename_i hresult
      rcases mem_cons.mp hid with rfl | hold
      · exact .inr ⟨rfl, rfl, hok hresult⟩
      · exact .inl hold
    · exact .inl hid
  | restart wal => exact restart_sound h hcall

theorem run_sound (calls : List (Call W)) (h : session.Sound) (hcalls : session.NoRetries calls) :
    (session.run calls).Sound := by
  induction calls generalizing session with
  | nil => exact h
  | cons call rest ih => exact ih (step_sound h hcalls.1) hcalls.2

/-- In every session from a log without repeated outcomes that never finishes a
transaction again after its outcome was left unsynced, each transaction has one
outcome, and one whose rollback returned `Ok` has no commit record. -/
theorem one_outcome (wal : W) (calls : List (Call W))
    (hlog : (outcomeIds (contents wal)).Nodup)
    (hcalls : (Session.start wal).NoRetries calls) :
    (outcomeIds (contents ((Session.start wal).run calls).manager.wal)).Nodup ∧
    ∀ id ∈ ((Session.start wal).run calls).rolledBack,
      ∀ record ∈ contents ((Session.start wal).run calls).manager.wal,
        ¬ IsCommitRecord id record.2 := by
  have hsound := run_sound calls (start_sound wal hlog) hcalls
  refine ⟨hsound.nodup, ?_⟩
  rintro id hid record hrecord ⟨hcommit, hcommitId⟩
  obtain ⟨other, hother, hrollback, hotherId⟩ := hsound.rolledBack id hid
  have heq := record_unique hsound.nodup hrecord ((durable_contents _).subset hother) hcommitId
    hotherId
  rw [← heq, hcommit] at hrollback
  exact absurd hrollback (by decide)

/-- A transaction begins with an id that neither an outcome in the log nor an active transaction has. -/
theorem begun_id_is_fresh (wal : W) (calls : List (Call W)) (isolation : IsolationLevel)
    {next : TransactionManager W} (hrun : (Session.start wal).run calls = session)
    (hbegin : session.manager.begin isolation = (next, .ok transaction)) :
    transaction.id ∉ outcomeIds (contents session.manager.wal) ∧
      session.manager.active.get? transaction.id = none := by
  have hsession : session.manager.Ahead := hrun ▸ run_ahead calls (new_ahead wal)
  obtain ⟨error, heq⟩ | ⟨begun, heq, hid, -, hahead⟩ := begin_cases hsession isolation <;>
    cases heq.symm.trans hbegin
  refine ⟨fun hmem => Nat.lt_irrefl _ (hahead _ hmem), ?_⟩
  rw [Option.eq_none_iff_forall_ne_some]
  exact fun other hother => Nat.lt_irrefl _ (hid ▸ hsession.active _ other hother)

end Finish

/-- A commit that was left unsynced, a restart that kept its record, and a second
transaction that is rolled back after a failed append. -/
theorem one_outcome_restart :
    (outcomeIds (LogWal.contents ((Session.start { faults := [false, true] : FaultyWal }).run
      [.begin, .commit ⟨1, ⟨0⟩⟩,
       .restart { memory := ⟨[(0, transactionRecord commitMarker ⟨1, ⟨0⟩⟩)], some 0, false⟩,
                  faults := [true] },
       .begin, .rollback ⟨2, ⟨0⟩⟩, .rollback ⟨2, ⟨0⟩⟩]).manager.wal)).Nodup :=
  (one_outcome { faults := [false, true] : FaultyWal } _ (by decide) (by
    simp only [Session.NoRetries, Session.NoRetry, Session.Reopens]
    decide +kernel)).1

/-- The second transaction, once the first is committed. -/
theorem begun_id_is_fresh_second :
    let session := (Session.start { faults := [] : FaultyWal }).run [.begin, .commit ⟨1, ⟨0⟩⟩]
    ∃ next transaction, session.manager.begin .snapshot = (next, .ok transaction) ∧
      transaction.id ∉ outcomeIds (LogWal.contents session.manager.wal) := by
  exact ⟨_, _, rfl, (begun_id_is_fresh _ _ .snapshot rfl rfl).1⟩

/-- After a sync failure the transaction is still active: the rollback that
follows returns `Ok` and the log holds both outcomes. -/
theorem two_outcomes_after_sync_failure :
    outcomeIds (LogWal.contents ((Session.start { faults := [false, true] : FaultyWal }).run
      [.begin, .commit ⟨1, ⟨0⟩⟩, .rollback ⟨1, ⟨0⟩⟩]).manager.wal) = [1, 1] ∧
    ((Session.start { faults := [false, true] : FaultyWal }).run
      [.begin, .commit ⟨1, ⟨0⟩⟩, .rollback ⟨1, ⟨0⟩⟩]).rolledBack = [1] ∧
    ∃ record ∈ LogWal.contents ((Session.start { faults := [false, true] : FaultyWal }).run
      [.begin, .commit ⟨1, ⟨0⟩⟩, .rollback ⟨1, ⟨0⟩⟩]).manager.wal, IsCommitRecord 1 record.2 := by
  refine ⟨by decide +kernel, by decide +kernel, (0, transactionRecord commitMarker ⟨1, ⟨0⟩⟩),
    by decide +kernel, ?_⟩
  unfold IsCommitRecord
  decide +kernel

end TxBase.Transaction
