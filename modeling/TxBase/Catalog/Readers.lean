import Mathlib.Data.Fintype.Basic
import TxBase.Catalog.TransactionIds

/-! Processes that take `read_lock` or `write_lock` on one catalog and commit, in any order, with
operations that fail and processes that are stopped. -/
namespace TxBase.Catalog
open Lib Json List
open Procedure (Event Ensures Turns Happening after)
variable {ι : Type} {root : Path} {start : FileName → Option Bytes} {happening : Happening IoError}
  {process : Process}

section Processes
variable [Runtime] [DirectoryOrder] [ManifestSerde]

def writeLock (pid : Nat) : Cataloguing Unit := do
  recoverLocked pid
  let _ ← readTransactionIdLocked
  pure ()

/-- What a process does with a catalog. -/
inductive Process where
  | idle
  /-- In `read_lock`: it recovers under the exclusive lock. -/
  | recovering (program : Cataloguing Unit)
  /-- In `read_lock`: it has dropped the exclusive lock and has not got the shared one. -/
  | waiting
  /-- In `read_lock`: it reads the id of the catalog under the shared lock. -/
  | opening (program : Cataloguing (Option Nat))
  /-- It has the lock that `read_lock` returned. -/
  | reading
  /-- In `write_lock`. -/
  | locking (program : Cataloguing Unit)
  /-- It has the lock that `write_lock` returned. -/
  | writing
  /-- In `commit_files`; the flag says whether its committed manifest was published. -/
  | committing (changes : List FileChange) (published : Bool) (program : Cataloguing Unit)

namespace Process

def exclusive : Process → Bool
  | .recovering _ | .locking _ | .writing | .committing _ _ _ => true
  | _ => false

def shared : Process → Bool
  | .opening _ | .reading => true
  | _ => false

def locked (process : Process) : Bool := process.exclusive || process.shared

/-- It has a lock that was returned to it, and does not commit. -/
def holds : Process → Bool
  | .reading | .writing => true
  | _ => false

def next? : Process → Option FsOp
  | .recovering (.call op _) | .opening (.call op _) | .locking (.call op _)
  | .committing _ _ (.call op _) => some op
  | _ => none

def operate (happening : Happening IoError) (disk : Root) : Process → Option (Process × Root)
  | .recovering (.call op next) =>
      some (.recovering (next (after exec op disk happening).1), (after exec op disk happening).2)
  | .opening (.call op next) =>
      some (.opening (next (after exec op disk happening).1), (after exec op disk happening).2)
  | .locking (.call op next) =>
      some (.locking (next (after exec op disk happening).1), (after exec op disk happening).2)
  | .committing changes published (.call op next) =>
      some (.committing changes (published || isPublished (after exec op disk happening).2)
        (next (after exec op disk happening).1), (after exec op disk happening).2)
  | _ => none

/-- A call returns.  A process whose commit fails gives up its lock. -/
def resume : Process → Option Process
  | .recovering (.done _) => some .waiting
  | .opening (.done _) => some .reading
  | .locking (.done _) => some .writing
  | .committing _ _ (.done _) => some .writing
  | .recovering (.fail _) | .opening (.fail _) | .locking (.fail _) |
    .committing _ _ (.fail _) => some .idle
  | _ => none

/-- The transaction whose committed manifest an operation has published. -/
def publishes (disk next : Root) : Process → List (List FileChange)
  | .committing changes false _ => if !isPublished disk && isPublished next then [changes] else []
  | _ => []

end Process

/-- The directory, the processes, and the transactions that were committed. -/
structure System (ι : Type) where
  disk : Root
  processes : ι → Process
  committed : List (List FileChange)

inductive Action (ι : Type) where
  | readLock (i : ι) (pid : Nat)
  | share (i : ι)
  | writeLock (i : ι) (pid : Nat)
  | commitFiles (i : ι) (pid : Nat) (changes : List FileChange)
  | operate (i : ι) (happening : Happening IoError)
  | resume (i : ι)
  /-- The lock is dropped, or the process is stopped. -/
  | release (i : ι)

variable [Fintype ι] [DecidableEq ι]

namespace System

def become (system : System ι) (i : ι) (process : Process) : System ι :=
  { system with processes := Function.update system.processes i process }

def unlocked (system : System ι) : Bool := decide (∀ i, (system.processes i).locked = false)

def sharable (system : System ι) : Bool := decide (∀ i, (system.processes i).exclusive = false)

def step (root : Path) (system : System ι) : Action ι → Option (System ι)
  | .readLock i pid =>
      match system.processes i with
      | .idle => if system.unlocked then some (system.become i (.recovering (recoverLocked pid)))
        else none
      | _ => none
  | .share i =>
      match system.processes i with
      | .waiting => if system.sharable then
        some (system.become i (.opening readTransactionIdLocked)) else none
      | _ => none
  | .writeLock i pid =>
      match system.processes i with
      | .idle => if system.unlocked then
        some (system.become i (.locking (TxBase.Catalog.writeLock pid))) else none
      | _ => none
  | .commitFiles i pid changes =>
      match system.processes i with
      | .writing => some (system.become i (.committing changes false
        (TxBase.Catalog.commitFiles pid root changes)))
      | _ => none
  | .operate i happening =>
      ((system.processes i).operate happening system.disk).map fun (process, disk) =>
        ⟨disk, Function.update system.processes i process,
          system.committed ++ (system.processes i).publishes system.disk disk⟩
  | .resume i => (system.processes i).resume.map (system.become i)
  | .release i => some (system.become i .idle)

end System

/-- The states that are reached by steps that meet a condition. -/
inductive Reachable (root : Path) (meets : System ι → Action ι → Prop) (start : Root) :
    System ι → Prop
  | start : Reachable root meets start ⟨start, fun _ => .idle, []⟩
  | step {system next : System ι} {action : Action ι} (hbefore : Reachable root meets start system)
      (hmeets : meets system action) (hstep : system.step root action = some next) :
      Reachable root meets start next

def stateAfter (root : Path) (start : FileName → Option Bytes)
    (transactions : List (List FileChange)) :
    FileName → Option Bytes :=
  transactions.foldl (fun files changes => desiredFiles root changes files) start

def isPrepared (disk : Root) : Bool :=
  match (disk.get .manifest).map ManifestSerde.fromSlice with
  | some (.ok ⟨.prepared, _⟩) => true
  | _ => false

/-- A failure that is neither reported as the absence of a file nor swallowed by `Path::exists`. -/
def Reported (event : Event FsOp Root IoError) : Prop :=
  ∃ error effect, event.happening = .failed error effect ∧ error.notFound = false ∧
    ∀ entry, event.op ≠ .present entry

/-- The condition on a step: failures are reported, `commit_files` knows the targets, and `read_lock`
gets the shared lock while no prepared manifest is on disk. -/
def Orderly (root : Path) (system : System ι) : Action ι → Prop
  | .operate i happening => ∀ op, (system.processes i).next? = some op →
      happening = .answered ∨ Reported ⟨op, system.disk, happening⟩
  | .commitFiles _ _ changes => Faithful root changes system.disk.files
  | .share _ => isPrepared system.disk = false
  | _ => True

end Processes

section Invariant
variable {goal : FileName → Option Bytes} {log : List (List FileChange)} {disk : Root}

theorem genuine_reported : Genuine Reported := by
  rintro op state error effect ⟨_, _, heq, hgenuine, -⟩
  cases heq
  exact hgenuine

theorem looks_reported : Looks Reported := by
  rintro entry state happening ⟨_, _, -, -, hne⟩
  exact hne entry rfl

def Attains (root : Path) (start : FileName → Option Bytes) (log : List (List FileChange))
    (goal : FileName → Option Bytes) : Prop :=
  ∀ name, Visible name → goal name = stateAfter root start log name

/-- The directory is in the state after the transactions, and a recovery keeps it so. -/
def Stable [ManifestSerde] (root : Path) (start : FileName → Option Bytes)
    (log : List (List FileChange))
    (disk : Root) : Prop :=
  ∃ goal, Attains root start log goal ∧ Bound .committed goal goal disk

/-- A recovery leads to the state after the transactions. -/
def Serves [ManifestSerde] (root : Path) (start : FileName → Option Bytes)
    (log : List (List FileChange))
    (disk : Root) : Prop :=
  Stable root start log disk ∨ ∃ base goal, Attains root start log goal ∧
    Bound .prepared base goal disk

theorem Stable.shows [ManifestSerde] (h : Stable root start log disk) :
    Shows (stateAfter root start log) disk := by
  obtain ⟨goal, hgoal, hbound⟩ := h
  exact fun name hname => (hbound.shows name hname).trans (hgoal name hname)

theorem Stable.of_shows [ManifestSerde] (hgoal : Attains root start log goal)
    (hshows : Shows goal disk)
    (hjournal : disk.journal = none) : Stable root start log disk :=
  ⟨goal, hgoal, .inl (Clear.quiet ⟨hshows, hjournal⟩)⟩

theorem Attains.commit (h : Attains root start log goal) (changes : List FileChange) :
    Attains root start (log ++ [changes]) (desiredFiles root changes goal) := by
  intro name hname
  simp only [stateAfter, foldl_append, foldl_cons, foldl_nil]
  unfold desiredFiles
  split
  · rfl
  · exact h name hname

theorem Pending.isPrepared [ManifestSerde] {changes : List ManifestChange}
    {base : FileName → Option Bytes}
    {journal : JournalDirectory} (h : Pending .prepared changes base goal journal disk)
    (hserde : RoundTrips) :
    isPrepared disk = true := by
  obtain ⟨bytes, hbytes, htoVec⟩ := h.manifest
  obtain ⟨_, hwritten, hread⟩ := hserde ⟨.prepared, changes⟩
  cases htoVec.symm.trans hwritten
  simp only [TxBase.Catalog.isPrepared, Root.get, h.kept, Option.bind_some, hbytes,
    Option.map_some, hread]

/-- Only a prepared manifest keeps a recovery from being superfluous. -/
theorem Serves.stable [ManifestSerde] (hserde : RoundTrips) (h : Serves root start log disk)
    (hprepared : isPrepared disk = false) :
    Stable root start log disk := by
  rcases h with h | ⟨base, goal, hgoal, hquiet | ⟨_, _, hpending⟩⟩
  · exact h
  · exact ⟨goal, hgoal, .inl hquiet⟩
  · rw [hpending.isPrepared hserde] at hprepared
    cases hprepared

theorem exec_readFile_state [DirectoryOrder] (path : FilePath) (disk : Root) :
    (exec (.readFile path) disk).2 = disk := by
  simp only [exec]
  split
  · rfl
  · split <;> rfl

theorem readTransactionId_ensures [DirectoryOrder] {permitted : Event FsOp Root IoError → Prop}
    {inv : Root → Prop} (h : inv disk) :
    Ensures exec permitted inv readTransactionIdLocked disk (fun _ last => last = disk)
      fun _ _ => True := by
  have hread : Ensures exec permitted inv (tryTo (.readFile (.target transactionState))) disk
      (fun _ last => last = disk) fun (_ : CatalogError) _ => True := by
    have hstate : (exec (.readFile (.target transactionState)) disk).2 = disk :=
      exec_readFile_state _ _
    refine Ensures.ask h ⟨hstate.symm ▸ h, hstate⟩ fun error effect _ => ?_
    cases effect
    · exact ⟨h, rfl⟩
    · exact ⟨hstate.symm ▸ h, hstate⟩
  refine Ensures.bind (Ensures.bind (hread.mono ?_ fun _ _ _ _ => trivial))
  rintro (error | bytes) _ hlast rfl
  · dsimp only
    split
    · exact ⟨hlast, hlast, rfl⟩
    · exact ⟨hlast, trivial⟩
  · refine ⟨hlast, ?_⟩
    dsimp only
    cases decodeTransactionId bytes with
    | error error => exact ⟨hlast, trivial⟩
    | ok txn => exact ⟨hlast, rfl⟩

variable [DirectoryOrder] [ManifestSerde]

theorem recover_serves (pid : Nat) (hserde : RoundTrips) (h : Serves root start log disk) :
    Ensures exec Reported (Serves root start log) (recoverLocked pid) disk
      (fun _ => Stable root start log) fun _ _ => True := by
  have hrecover : ∀ phase base goal, Attains root start log goal → Bound phase base goal disk →
      (∀ state, Bound phase base goal state → Serves root start log state) →
      Ensures exec Reported (Serves root start log) (recoverLocked pid) disk
        (fun _ => Stable root start log) fun _ _ => True := by
    intro phase base goal hgoal hbound hserves
    refine ((recoverLocked_ensures genuine_reported looks_reported hserde hbound).mono ?_
      fun _ _ _ _ => trivial).weaken hserves
    exact fun _ last _ hlast => .of_shows hgoal hlast.1 hlast.2
  rcases h with ⟨goal, hgoal, hbound⟩ | ⟨base, goal, hgoal, hbound⟩
  · exact hrecover _ _ _ hgoal hbound fun _ hstate => .inl ⟨goal, hgoal, hstate⟩
  · exact hrecover _ _ _ hgoal hbound fun _ hstate => .inr ⟨base, goal, hgoal, hstate⟩

theorem writeLock_ensures (pid : Nat) (hserde : RoundTrips) (h : Serves root start log disk) :
    Ensures exec Reported (Serves root start log)
      (writeLock pid) disk (fun _ => Stable root start log)
      fun _ _ => True := by
  refine Ensures.bind ((recover_serves pid hserde h).mono ?_ fun _ _ _ _ => trivial)
  intro _ recovered hserves hstable
  refine Ensures.bind ((readTransactionId_ensures hserves).mono ?_ fun _ _ _ _ => trivial)
  rintro _ _ hlast rfl
  exact ⟨hlast, hstable⟩

/-- What holds of a process, with the transactions and the directory it finds. -/
def Process.Sound (root : Path) (start : FileName → Option Bytes) (log : List (List FileChange))
    (disk : Root) :
    Process → Prop
  | .idle | .waiting => True
  | .recovering program => Ensures exec Reported (Serves root start log) program disk
    (fun _ _ => True) fun _ _ => True
  | .opening program => Stable root start log disk ∧
      Ensures exec Reported (fun state => state = disk) program disk (fun _ _ => True)
        fun _ _ => True
  | .reading => Stable root start log disk
  | .locking program =>
      Ensures exec Reported (Serves root start log) program disk
        (fun _ => Stable root start log) fun _ _ => True
  | .writing => Stable root start log disk
  | .committing changes false program =>
      Turns exec Reported (fun state => Serves root start log state ∧ ¬ Published state)
        (Stable root start (log ++ [changes])) Published program disk
          (fun _ => Stable root start log) ∨
      Stable root start log disk ∧
        Ensures exec Reported (fun state => state = disk) program disk (fun _ _ => True)
          fun _ _ => True
  | .committing _ true program =>
      Ensures exec Reported (Stable root start log) program disk (fun _ _ => True) fun _ _ => True

variable {changes : List FileChange}

theorem commitFiles_sound [Runtime] (pid : Nat) (hserde : RoundTrips)
    (h : Stable root start log disk)
    (hfaithful : Faithful root changes disk.files) :
    (Process.committing changes false (commitFiles pid root changes)).Sound root start log disk := by
  have hfiles : Attains root start log disk.files := h.shows
  cases hjournal : disk.journal with
  | none =>
    refine .inl ((commitFiles_turns hserde genuine_reported hjournal hfaithful).mono ?_ ?_ ?_)
    · exact fun state hstate => ⟨.inr ⟨_, _, hfiles, hstate⟩, hstate.not_published hserde⟩
    · exact fun state hstate => ⟨_, hfiles.commit changes, hstate.2⟩
    · rintro _ _ ⟨-, rfl⟩
      exact h
  | some journal =>
    -- the journal of an earlier commit of this process, which could not be removed
    refine .inr ⟨h, ?_⟩
    unfold commitFiles
    split
    · exact ⟨rfl, trivial⟩
    · have hpresent : disk.present (.directory .journal) = true := by
        rw [disk.present_journal, hjournal]; rfl
      have hexists : Ensures exec Reported (fun state => state = disk)
        (exists? (.directory .journal)) disk
          (fun found _ => found = true) fun _ _ => Faulty Reported :=
        exists?_ensures rfl hpresent fun _ _ hpermitted => (looks_reported _ _ _ hpermitted).elim
      refine Ensures.bind (hexists.mono ?_ fun _ _ _ _ => trivial)
      rintro _ last hlast rfl
      exact ⟨hlast, trivial⟩

omit [DirectoryOrder] in
theorem isPublished_iff : isPublished disk = true ↔ Published disk := by
  refine ⟨published_of_isPublished, ?_⟩
  rintro ⟨bytes, changes, hget, hread⟩
  simp only [isPublished, hget, Option.map_some, hread]

variable {after : Root}

theorem committing_sound {published : Bool} {op : FsOp}
    {next : Except IoError op.Reply → Cataloguing Unit}
    (h : (Process.committing changes published (.call op next)).Sound root start log disk)
    (hpermitted : happening = .answered ∨ Reported ⟨op, disk, happening⟩)
    (hafter : (Procedure.after exec op disk happening).2 = after) :
    (Process.committing changes (published || isPublished after)
      (next (Procedure.after exec op disk happening).1)).Sound root start
        (log ++ (Process.committing changes published (.call op next)).publishes disk after) after ∧
    Serves root start (log ++ (Process.committing changes published
      (.call op next)).publishes disk after) after := by
  subst hafter
  cases published with
  | true =>
    have hnext := h.2 happening hpermitted
    simp only [Process.publishes, append_nil, Bool.true_or]
    exact ⟨hnext, .inl hnext.invariant⟩
  | false =>
    rcases h with ⟨⟨-, hunpublished⟩, hturns⟩ | ⟨hstable, hstill⟩
    · have hbefore : isPublished disk = false :=
        Bool.eq_false_iff.mpr fun h => hunpublished (isPublished_iff.mp h)
      rcases hturns happening hpermitted with ⟨hmark, hnext⟩ | ⟨hmark, hnext⟩
      · have hflag := Bool.eq_false_iff.mpr fun h => hmark (isPublished_iff.mp h)
        simp only [Process.publishes, hbefore, hflag, Bool.not_false, Bool.and_false,
          Bool.false_eq_true, if_false,
          append_nil, Bool.or_false]
        exact ⟨.inl hnext, hnext.invariant.1⟩
      · have hflag := isPublished_iff.mpr hmark
        simp only [Process.publishes, hbefore, hflag, Bool.not_false, Bool.and_true,
          if_true, Bool.or_true]
        exact ⟨hnext, .inl hnext.invariant⟩
    · have hnext := hstill.2 happening hpermitted
      have hsame := hnext.invariant
      simp only [Process.publishes, hsame, Bool.not_and_self, Bool.false_eq_true,
        if_false, append_nil,
        Bool.false_or]
      rw [hsame] at hnext
      refine ⟨?_, .inl hstable⟩
      cases isPublished disk with
      | false => exact .inr ⟨hstable, hnext⟩
      | true => exact hnext.weaken fun _ hstate => hstate ▸ hstable

variable {next : Process}

section
variable (h : process.Sound root start log disk)
include h

/-- One operation of a process; the directory changes only under the exclusive lock. -/
theorem Process.Sound.operate
    (hpermitted : ∀ op, process.next? = some op → happening = .answered ∨
      Reported ⟨op, disk, happening⟩)
    (hstep : process.operate happening disk = some (next, after)) :
    next.Sound root start (log ++ process.publishes disk after) after ∧
      Serves root start (log ++ process.publishes disk after) after ∧
      next.exclusive = process.exclusive ∧ next.shared = process.shared ∧
      (process.exclusive = false → after = disk ∧ process.publishes disk after = []) := by
  unfold Process.operate at hstep
  split at hstep <;> cases hstep
  · have hnext := h.2 happening (hpermitted _ rfl)
    simp only [Process.publishes, append_nil]
    exact ⟨hnext, hnext.invariant, rfl, rfl, nofun⟩
  · have hnext := h.2.2 happening (hpermitted _ rfl)
    have hsame := hnext.invariant
    simp only [Process.publishes, append_nil]
    refine ⟨?_, ?_, rfl, rfl, fun _ => ⟨hsame, trivial⟩⟩
    · rw [hsame] at hnext ⊢
      exact ⟨h.1, hnext⟩
    · rw [hsame]
      exact .inl h.1
  · have hnext := h.2 happening (hpermitted _ rfl)
    simp only [Process.publishes, append_nil]
    exact ⟨hnext, hnext.invariant, rfl, rfl, nofun⟩
  · obtain ⟨hsound, hserves⟩ := committing_sound h (hpermitted _ rfl) rfl
    exact ⟨hsound, hserves, rfl, rfl, nofun⟩

theorem Process.Sound.resume (hstep : process.resume = some next) :
    next.Sound root start log disk ∧ (next.exclusive = true → process.exclusive = true) ∧
      (next.shared = true → process.shared = true) := by
  unfold Process.resume at hstep
  split at hstep
  · cases hstep
    exact ⟨trivial, nofun, nofun⟩
  · cases hstep
    exact ⟨h.1, nofun, fun _ => rfl⟩
  · cases hstep
    exact ⟨h.2, fun _ => rfl, nofun⟩
  · rename_i published _
    cases hstep
    refine ⟨?_, fun _ => rfl, nofun⟩
    cases published with
    | true => exact h.1
    | false => exact h.elim (fun h => h.2) And.left
  all_goals cases hstep
  all_goals exact ⟨trivial, nofun, nofun⟩

theorem Process.Sound.stable (hholds : process.holds = true) :
    Stable root start log disk := by
  cases process with
  | reading | writing => exact h
  | idle | recovering _ | waiting | opening _ | locking _ | committing _ _ _ => cases hholds

end

theorem Process.sound_of_unlocked (h : process.locked = false) :
    process.Sound root start log disk := by
  cases process with
  | idle | waiting => trivial
  | recovering _ | opening _ | reading | locking _ | writing | committing _ _ _ => cases h

end Invariant

section Reached
variable [DirectoryOrder] [ManifestSerde] [DecidableEq ι] {system next : System ι}

def Exclusion (processes : ι → Process) : Prop :=
  ∀ i j, i ≠ j → (processes i).exclusive = true → (processes j).locked = false

variable {i : ι} {processes : ι → Process}

omit [DirectoryOrder] [ManifestSerde] in
theorem Exclusion.update (h : Exclusion processes)
    (hexclusive : process.exclusive = true → ∀ j, j ≠ i → (processes j).locked = false)
    (hlocked : process.locked = true → ∀ j, j ≠ i → (processes j).exclusive = false) :
    Exclusion (Function.update processes i process) := by
  intro j k hne hj
  by_cases hji : j = i
  · subst hji
    rw [Function.update_self] at hj
    rw [Function.update_of_ne hne.symm]
    exact hexclusive hj k hne.symm
  · rw [Function.update_of_ne hji] at hj
    by_cases hki : k = i
    · subst hki
      rw [Function.update_self]
      refine Bool.eq_false_iff.mpr fun hprocess => ?_
      rw [hlocked hprocess j hji] at hj
      cases hj
    · rw [Function.update_of_ne hki]
      exact h j k hne hj

omit [DirectoryOrder] [ManifestSerde] in
theorem Exclusion.keep (h : Exclusion processes)
    (hexclusive : process.exclusive = true → (processes i).exclusive = true)
    (hshared : process.shared = true → (processes i).shared = true) :
    Exclusion (Function.update processes i process) := by
  refine h.update (fun hprocess j hne => h i j hne.symm (hexclusive hprocess))
    fun hlocked j hne => ?_
  refine Bool.eq_false_iff.mpr fun hj => ?_
  have hunlocked := Bool.or_eq_false_iff.mp (h j i hne hj)
  rcases Bool.or_eq_true_iff.mp hlocked with hlocked | hlocked
  · rw [hexclusive hlocked] at hunlocked
    cases hunlocked.1
  · rw [hshared hlocked] at hunlocked
    cases hunlocked.2

/-- What holds in every state that is reached. -/
structure System.Sound (root : Path) (start : FileName → Option Bytes)
    (system : System ι) : Prop where
  serves : Serves root start system.committed system.disk
  process : ∀ i, (system.processes i).Sound root start system.committed system.disk
  exclusion : Exclusion system.processes

theorem System.Sound.become (h : system.Sound root start)
    (hprocess : process.Sound root start system.committed system.disk)
    (hexclusion : Exclusion (Function.update system.processes i process)) :
    (system.become i process).Sound root start :=
  ⟨h.serves, (Function.forall_update_iff system.processes fun _ process =>
    process.Sound root start system.committed system.disk).mpr ⟨hprocess, fun j _ => h.process j⟩,
      hexclusion⟩

variable [Fintype ι]

theorem System.Sound.lock (h : system.Sound root start) (hunlocked : system.unlocked = true)
    (hprocess : process.Sound root start system.committed system.disk) :
    (system.become i process).Sound root start := by
  have hall : ∀ j, (system.processes j).locked = false := of_decide_eq_true hunlocked
  exact h.become hprocess
    (h.exclusion.update (fun _ j _ => hall j) fun _ j _ => (Bool.or_eq_false_iff.mp (hall j)).1)

variable {disk : Root}

omit [Fintype ι] in
/-- One operation: a process that changes the directory has it to itself. -/
theorem System.Sound.operate (h : system.Sound root start)
    (hpermitted : ∀ op, (system.processes i).next? = some op → happening = .answered ∨
      Reported ⟨op, system.disk, happening⟩)
    (hstep : (system.processes i).operate happening system.disk = some (process, disk)) :
    System.Sound root start ⟨disk, Function.update system.processes i process,
      system.committed ++ (system.processes i).publishes system.disk disk⟩ := by
  obtain ⟨hprocess, hserves, hexclusive, hshared, hstill⟩ := (h.process i).operate hpermitted hstep
  refine ⟨hserves, (Function.forall_update_iff system.processes fun _ process =>
    process.Sound root start (system.committed ++
      (system.processes i).publishes system.disk disk) disk).mpr
      ⟨hprocess, fun j hne => ?_⟩, h.exclusion.keep (hexclusive ▸ id) (hshared ▸ id)⟩
  cases hlock : (system.processes i).exclusive with
  | true => exact Process.sound_of_unlocked (h.exclusion i j hne.symm hlock)
  | false =>
    obtain ⟨rfl, hnone⟩ := hstill hlock
    rw [hnone, append_nil]
    exact h.process j

variable [Runtime]

theorem System.Sound.step {action : Action ι} (hserde : RoundTrips) (h : system.Sound root start)
    (horderly : Orderly root system action) (hstep : system.step root action = some next) :
    next.Sound root start := by
  cases action with
  | readLock i pid =>
    simp only [System.step] at hstep
    split at hstep
    · split at hstep
      · rename_i hunlocked
        cases hstep
        exact h.lock hunlocked
          ((recover_serves pid hserde h.serves).mono (fun _ _ _ _ => trivial)
            fun _ _ _ hfails => hfails)
      · cases hstep
    · cases hstep
  | share i =>
    simp only [System.step] at hstep
    split at hstep
    · split at hstep
      · rename_i hsharable
        cases hstep
        have hopening : Ensures exec Reported
          (fun state => state = system.disk) readTransactionIdLocked system.disk
            (fun _ last => last = system.disk) fun _ _ => True := readTransactionId_ensures rfl
        exact h.become ⟨h.serves.stable hserde horderly,
          hopening.mono (fun _ _ _ _ => trivial) fun _ _ _ h => h⟩
          (h.exclusion.update nofun fun _ j _ => of_decide_eq_true hsharable j)
      · cases hstep
    · cases hstep
  | writeLock i pid =>
    simp only [System.step] at hstep
    split at hstep
    · split at hstep
      · rename_i hunlocked
        cases hstep
        exact h.lock hunlocked (writeLock_ensures pid hserde h.serves)
      · cases hstep
    · cases hstep
  | commitFiles i pid changes =>
    simp only [System.step] at hstep
    split at hstep
    · rename_i hwriting
      cases hstep
      have hstable := h.process i
      rw [hwriting] at hstable
      exact h.become (commitFiles_sound pid hserde hstable horderly)
        (h.exclusion.keep (fun _ => by rw [hwriting]; rfl) nofun)
    · cases hstep
  | operate i happening =>
    simp only [System.step, Option.map_eq_some_iff] at hstep
    obtain ⟨⟨process, disk⟩, hoperate, rfl⟩ := hstep
    exact h.operate horderly hoperate
  | resume i =>
    simp only [System.step, Option.map_eq_some_iff] at hstep
    obtain ⟨process, hresume, rfl⟩ := hstep
    obtain ⟨hprocess, hexclusive, hshared⟩ := (h.process i).resume hresume
    exact h.become hprocess (h.exclusion.keep hexclusive hshared)
  | release i =>
    cases hstep
    exact h.become trivial (h.exclusion.keep nofun nofun)

theorem Reachable.sound (hserde : RoundTrips) (hjournal : disk.journal = none)
    (h : Reachable root (Orderly root) disk system) : system.Sound root disk.files := by
  induction h with
  | start =>
    have hstable : Stable root disk.files [] disk :=
      .of_shows (fun _ _ => rfl) (fun _ _ => rfl) hjournal
    exact ⟨.inl hstable, fun _ => trivial, nofun⟩
  | step _ horderly hstep ih => exact ih.step hserde horderly hstep

end Reached

section Runs
variable [Runtime] [DirectoryOrder] [ManifestSerde] [Fintype ι] [DecidableEq ι] {system : System ι}
  {meets : System ι → Action ι → Prop}

/-- Whoever has a lock that was returned sees the files after transactions that were committed: in
every run whose failures are reported, whose commits know their targets, and in which `read_lock` gets
the shared lock only while no prepared manifest is on disk. -/
theorem lock_holders_see_whole_transactions {disk : Root} (hserde : RoundTrips)
    (hjournal : disk.journal = none)
    (h : Reachable root (Orderly root) disk system) (i : ι)
    (hholds : (system.processes i).holds = true) :
    ∃ done, done <+: system.committed ∧ Shows (stateAfter root disk.files done) system.disk :=
  ⟨system.committed, prefix_rfl, (((h.sound hserde hjournal).process i).stable hholds).shows⟩

def System.run (root : Path) (system : System ι) (actions : List (Action ι)) : Option (System ι) :=
  actions.foldlM (System.step root) system

theorem Reachable.run {start : Root} {last : System ι} {actions : List (Action ι)}
    (h : Reachable root meets start system)
    (hmeets : ∀ system action, action ∈ actions → meets system action)
    (hrun : system.run root actions = some last) : Reachable root meets start last := by
  induction actions generalizing system with
  | nil =>
    cases hrun
    exact h
  | cons action rest ih =>
    obtain ⟨next, hstep, hrest⟩ := Option.bind_eq_some_iff.mp hrun
    exact ih (h.step (hmeets _ _ mem_cons_self) hstep)
      (fun system action hmem => hmeets system action (mem_cons_of_mem _ hmem)) hrest

theorem System.run_append (system : System ι) (first second : List (Action ι)) :
    system.run root (first ++ second) = (system.run root first).bind fun next =>
      next.run root second :=
  foldlM_append

end Runs

attribute [local instance] Replacing DirectoryOrder.plain ManifestSerde.plain

/-- A process commits a new file and keeps its lock. -/
theorem lock_holders_see_whole_transactions_writer :
    let changes := [FileChange.mk [utf8 "a"] none (some [1])]
    let start : Root := ⟨fun _ => none, none⟩
    ∃ system : System Bool, system.committed = [changes] ∧ (system.processes false).holds = true ∧
      ∃ done, done <+: system.committed ∧ Shows (stateAfter [] start.files done) system.disk := by
  intro changes start
  let first : List (Action Bool) :=
    [.writeLock false 1, .operate false .answered, .operate false .answered,
    .resume false]
  let second : List (Action Bool) := List.replicate 32 (.operate false .answered) ++ [.resume false]
  let begun : System Bool := ⟨start, fun _ => .idle, []⟩
  have hrun : ((begun.run [] (first ++ .commitFiles false 1 changes :: second)).map fun system =>
      (system.committed, (system.processes false).holds)) =
        some ([changes], true) := by decide +kernel
  have hfile : ((begun.run [] first).map fun system => system.disk.files (utf8 "a")) =
      some none := by
    decide +kernel
  obtain ⟨last, hlast, hends⟩ := Option.map_eq_some_iff.mp hrun
  rw [System.run_append] at hlast
  obtain ⟨locked, hlocked, hrest⟩ := Option.bind_eq_some_iff.mp hlast
  obtain ⟨committing, hcommit, hsecond⟩ := Option.bind_eq_some_iff.mp hrest
  rw [hlocked] at hfile
  have horderly : ∀ action ∈ first ++ second, ∀ system, Orderly [] system action := by
    intro action hmem system
    have hkind : action = .writeLock false 1 ∨ action = .operate false .answered ∨
        action = .resume false := by
      simpa [first, second, or_assoc, or_comm, or_left_comm] using hmem
    rcases hkind with rfl | rfl | rfl
    · trivial
    · exact fun _ _ => .inl rfl
    · trivial
  have hfaithful : Orderly [] locked (.commitFiles false 1 changes) :=
    faithful_single proper_a (Option.some.inj hfile)
  have hreached : Reachable [] (Orderly []) start last :=
    ((Reachable.start.run (fun system action hmem => horderly action (mem_append_left _ hmem) system)
      hlocked).step hfaithful hcommit).run
        (fun system action hmem => horderly action (mem_append_right _ hmem) system) hsecond
  have hcommitted := congrArg Prod.fst hends
  have hholds := congrArg Prod.snd hends
  exact ⟨last, hcommitted, hholds,
    lock_holders_see_whole_transactions ManifestSerde.plain_roundTrips rfl hreached false hholds⟩

/-- The window of `read_lock`: a writer is stopped between two of its targets after the reader has
recovered, and the reader gets the shared lock on half a transaction. -/
theorem reader_sees_half_a_transaction :
    let start : Root := ⟨fun _ => none, none⟩
    ∃ system : System Bool, Reachable [] (fun _ _ => True) start system ∧
      (system.processes false).holds = true ∧
      system.disk.files (utf8 "a") = some [1] ∧ system.disk.files (utf8 "b") = none ∧
      ¬ ∃ done, done <+: system.committed ∧ Shows (stateAfter [] start.files done) system.disk := by
  intro start
  let changes := [FileChange.mk [utf8 "a"] none (some [1]), FileChange.mk [utf8 "b"] none (some [2])]
  let actions : List (Action Bool) := [.readLock false 1, .operate false .answered, .resume false,
    .writeLock true 2] ++
    List.replicate 2 (.operate true .answered) ++ [.resume true, .commitFiles true 2 changes] ++
    List.replicate 20 (.operate true .answered) ++
      [.release true, .share false, .operate false .answered,
      .resume false]
  have hrun : (((⟨start, fun _ => .idle, []⟩ : System Bool).run [] actions).map fun system =>
      ((system.processes false).holds, system.disk.files (utf8 "a"), system.disk.files (utf8 "b"),
        system.committed)) = some (true, some [1], none, []) := by decide +kernel
  obtain ⟨last, hlast, hends⟩ := Option.map_eq_some_iff.mp hrun
  simp only [Prod.mk.injEq] at hends
  obtain ⟨hholds, hfirst, hsecond, hcommitted⟩ := hends
  refine ⟨last, Reachable.start.run (fun _ _ _ => trivial) hlast, hholds, hfirst, hsecond, ?_⟩
  rintro ⟨done, hdone, hshows⟩
  rw [hcommitted, prefix_nil] at hdone
  subst hdone
  have hfile := hshows (utf8 "a") (visible_of_getLast? (by decide))
  rw [hfirst] at hfile
  cases hfile

end TxBase.Catalog
