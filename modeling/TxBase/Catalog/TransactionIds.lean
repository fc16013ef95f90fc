import TxBase.Catalog.Atomicity
import TxBase.Catalog.ManifestCodec

/-! The transaction id of a catalog.  Its file is one of the targets of every commit, so it
moves with them: the ids that commits leave grow, however the commits are stopped. -/
namespace TxBase.Catalog
open Lib Json List
open Procedure (Event Ensures Crosses)
open Durable (Interrupted)

section Codec

variable {txn : Nat}

theorem decode_transactionStateBytes (hpositive : 0 < txn) (hbound : txn < u64Size) :
    decodeTransactionId (transactionStateBytes txn) = .ok txn := by
  have hvalue : fromLeBytes (slice (transactionStateVersion :: toLeBytes 8 txn) 1 9) = txn :=
    fromLeBytes_slice 8 [transactionStateVersion] prefix_rfl rfl rfl hbound
  unfold decodeTransactionId transactionStateBytes
  rw [Dbf.afterMagic_append]
  dsimp only
  rw [if_neg (by simp), if_neg (by simp), hvalue, if_neg (Nat.pos_iff_ne_zero.mp hpositive)]

theorem checkNewer_eq_ok {state : Option Bytes} {checked : Unit}
    (h : checkNewer txn state = .ok checked) :
    ∃ current, currentTransactionId state = .ok current ∧ current < txn := by
  obtain ⟨current, hcurrent, h⟩ := bind_eq_ok.mp h
  split at h
  · cases h
  · rename_i hnewer
    exact ⟨current, hcurrent, not_le.mp hnewer⟩

theorem stripRoot_append (root target : Path) : stripRoot root (root ++ target) = some target := by
  induction root with
  | nil => rfl
  | cons component root ih =>
    show (if component = component then stripRoot root (root ++ target) else none) = some target
    rw [if_pos rfl, ih]

theorem visible_transactionState : Visible transactionState := visible_of_getLast? (by decide)

theorem proper_transactionState : Proper transactionState := ⟨by decide, visible_transactionState⟩

end Codec

section Commit
variable [Runtime] {root : Path} {changes : List FileChange} {prior : Root}
  {txn : Nat}

def allChanges (root : Path) (changes : List FileChange) (prior : Root) (transactionId : Nat) :
    List FileChange := changes ++ [stateChange root (prior.files transactionState) transactionId]

theorem faithful_allChanges (h : Faithful root changes prior.files) :
    Faithful root (allChanges root changes prior txn) prior.files := by
  intro change hmem name hname
  rcases mem_append.mp hmem with hmem | hmem
  · exact h change hmem name hname
  · cases mem_singleton.mp hmem
    have hstate : some [transactionState] = some [name] := (stripRoot_append _ _).symm.trans hname
    cases hstate
    exact ⟨congrArg utf8 (fromUtf8Lossy_utf8 _), proper_transactionState, rfl⟩

variable [DirectoryOrder] [ManifestSerde]

omit [Runtime] [ManifestSerde] in
theorem readOptional_ensures {permitted : Event FsOp Root IoError → Prop} {inv : Root → Prop}
    {path : FilePath}
    {state : Root} {ends : Option Bytes → Root → Prop} (hdirectory : path.isDirectory = false)
    (hgenuine : Genuine permitted) (hinv : inv state) (hends : ends (state.get path) state) :
    Ensures exec permitted inv (readOptional path) state ends fun _ _ => Faulty permitted := by
  refine Ensures.bind (Ensures.ask hinv ?_ fun error effect hpermitted => ?_)
  · cases hget : state.get path with
    | none =>
      have hexec : exec (.readFile path) state = (noEntry, state) := by
        simp only [exec, hdirectory, hget, Bool.false_eq_true, if_false]
      rw [hexec]
      exact ⟨hinv, hinv, hget ▸ hends⟩
    | some bytes =>
      rw [exec_readFile hdirectory hget]
      exact ⟨hinv, hinv, hget ▸ hends⟩
  · have hstate : (Procedure.after exec (.readFile path) state (.failed error effect)).2 =
        state := by
      cases effect
      · rfl
      · show (exec (.readFile path) state).2 = state
        cases hget : state.get path <;> simp [exec, hdirectory, hget]
    rw [hstate]
    refine ⟨hinv, ?_⟩
    dsimp only
    rw [hgenuine _ _ _ _ hpermitted]
    exact ⟨hinv, _, hpermitted⟩

/-- The id is newer than that of the state file, and the targets are accepted. -/
def Newer (root : Path) (changes : List FileChange) (prior : Root) (transactionId : Nat) : Prop :=
  Accepted root (allChanges root changes prior transactionId) ∧ 0 < transactionId ∧
    ∃ current, currentTransactionId (prior.files transactionState) = .ok current ∧
      current < transactionId

variable {pid : Nat}

theorem commitAt_crosses (hserde : RoundTrips) (hjournal : prior.journal = none)
    (hfaithful : Faithful root changes prior.files) :
    Crosses exec
      (Bound .prepared (desiredFiles root (allChanges root changes prior txn) prior.files)
        prior.files)
      (Final (Newer root changes prior txn) root (allChanges root changes prior txn)
        prior.files) Published (commitAt pid root txn changes) prior := by
  have hclear : Clear prior.files prior := ⟨fun _ _ => rfl, hjournal⟩
  have hprior : Bound .prepared (desiredFiles root (allChanges root changes prior txn) prior.files)
      prior.files prior := .inl hclear.quiet
  unfold commitAt
  split
  · exact Ensures.crosses (show Ensures exec NoFailure _ _ _ (fun _ _ => True) fun _ _ => True from
      ⟨hprior, trivial⟩)
  rename_i hpositive
  refine Ensures.crosses_bind (show Ensures exec NoFailure _ _ _ _ _ from
    exists?_ensures hprior ?_ fun _ _ => False.elim)
  rw [prior.present_journal, hjournal, Option.isSome_none, if_neg Bool.false_ne_true]
  refine Ensures.crosses_bind (readOptional_ensures rfl genuine_noFailure hprior ?_)
  show Crosses _ _ _ _ (Procedure.ofExcept (checkNewer txn (prior.files transactionState)) >>= _) _
  cases hnewer : checkNewer txn (prior.files transactionState) with
  | error error =>
    exact Ensures.crosses (show Ensures exec NoFailure _ _ _ (fun _ _ => True) fun _ _ => True from
      ⟨hprior, trivial⟩)
  | ok done =>
    rw [Procedure.ofExcept_ok_bind]
    refine Crosses.map (f := fun _ => txn) (Crosses.mono (commitFiles_crosses hserde hjournal
      (faithful_allChanges hfaithful)) fun state hstate => ?_)
    exact ⟨⟨hstate.1, Nat.pos_of_ne_zero hpositive, checkNewer_eq_ok hnewer⟩, hstate.2⟩

variable {next : Nat} {found : Root} {seen : List Root}

/-- However a commit and the recoveries after it are stopped, the next recovery that is not
stopped leaves no journal, and all targets as they were before or all as they should be after:
the latter if and only if the committed manifest was published. -/
theorem interrupted_commit_recovers (hserde : RoundTrips) (hjournal : prior.journal = none)
    (hfaithful : Faithful root changes prior.files)
    (hrun : Interrupted ((commitFiles pid root changes).durable exec)
      (fun pid => (recoverLocked pid).durable exec) prior seen found) :
    ∃ last, ((recoverLocked next).durable exec).Finishes found last () ∧ last.journal = none ∧
      ((∀ state ∈ seen, ¬ Published state) → TargetsAt root changes .before last) ∧
      ((∃ state ∈ seen, Published state) → TargetsAt root changes .after last) := by
  obtain ⟨last, hfinishes, hnone, hends⟩ :=
    interrupted_recovers next hserde (commitFiles_crosses hserde hjournal hfaithful) hrun
  refine ⟨last, hfinishes, hnone, ?_⟩
  rcases hends with ⟨hshows, hnever⟩ | ⟨⟨haccepted, hshows⟩, state, hmem, hpublished⟩
  · refine ⟨fun _ => targetsAt_before hfaithful hshows, ?_⟩
    exact fun ⟨state, hmem, hpublished⟩ => absurd hpublished (hnever state hmem)
  · refine ⟨fun hnever => absurd hpublished (hnever state hmem), fun _ => ?_⟩
    exact targetsAt_after hfaithful haccepted hshows

/-- Commits one after the other, each stopped and recovered, with the ids of those that were
published. -/
inductive CommitRun (root : Path) (start : Root) : List Nat → Root → Prop
  | start (hjournal : start.journal = none) : CommitRun root start [] start
  | commit {ids : List Nat} {state found last : Root} {seen : List Root} {changes : List FileChange}
      {pid next transactionId : Nat} (hbefore : CommitRun root start ids state)
      (hbound : transactionId < u64Size) (hfaithful : Faithful root changes state.files)
      (hrun : Interrupted ((commitAt pid root transactionId changes).durable exec)
        (fun pid => (recoverLocked pid).durable exec) state seen found)
      (hrecovered : ((recoverLocked next).durable exec).Finishes found last ())
      (published : Bool) (hpublished : published = true ↔ ∃ state ∈ seen, Published state) :
      CommitRun root start (if published then ids ++ [transactionId] else ids) last

def catalogId (state : Root) : Except CatalogError Nat :=
  currentTransactionId (state.files transactionState)

variable {last : Root}

theorem interrupted_commit_id (hserde : RoundTrips) (hjournal : prior.journal = none)
    (hfaithful : Faithful root changes prior.files) (hbound : txn < u64Size)
    (hrun : Interrupted ((commitAt pid root txn changes).durable exec)
      (fun pid => (recoverLocked pid).durable exec) prior seen found)
    (hrecovered : ((recoverLocked next).durable exec).Finishes found last ()) :
    last.journal = none ∧
      ((∀ state ∈ seen, ¬ Published state) → catalogId last = catalogId prior) ∧
      ((∃ state ∈ seen, Published state) → catalogId last = .ok txn ∧
        ∃ current, catalogId prior = .ok current ∧ current < txn) := by
  obtain ⟨_, hfinishes, hnone, hends⟩ :=
    interrupted_recovers next hserde (commitAt_crosses hserde hjournal hfaithful) hrun
  obtain ⟨rfl, -⟩ := hrecovered.unique hfinishes
  refine ⟨hnone, ?_⟩
  rcases hends with
    ⟨hshows, hnever⟩ | ⟨⟨⟨haccepted, hpositive, hnewer⟩, hshows⟩, state, hmem, hpublished⟩
  · refine ⟨fun _ => ?_, fun ⟨state, hmem, hpublished⟩ => absurd hpublished (hnever state hmem)⟩
    exact congrArg currentTransactionId (hshows transactionState visible_transactionState)
  · refine ⟨fun hnever => absurd hpublished (hnever state hmem), fun _ => ⟨?_, hnewer⟩⟩
    have hstate := targetsAt_after (faithful_allChanges hfaithful) haccepted hshows
      (stateChange root (prior.files transactionState) txn)
      (mem_append_right _ mem_cons_self) transactionState (stripRoot_append _ _)
    unfold catalogId
    rw [hstate]
    show decodeTransactionId (transactionStateBytes txn) = _
    exact decode_transactionStateBytes hpositive hbound

variable {ids : List Nat} {first : Nat}

omit [Runtime] [DirectoryOrder] [ManifestSerde] in
theorem le_getLastD (h : (first :: ids).Pairwise (· < ·)) :
    ∀ id ∈ first :: ids, id ≤ ids.getLastD first := by
  induction ids generalizing first with
  | nil => simp
  | cons second rest ih =>
    obtain ⟨hfirst, hrest⟩ := pairwise_cons.mp h
    rw [getLastD_cons]
    exact forall_mem_cons.mpr ⟨(hfirst second mem_cons_self).le.trans
      (ih hrest second mem_cons_self), ih hrest⟩

theorem CommitRun.grows {start : Root} (hserde : RoundTrips) (h : CommitRun root start ids last)
    (hfirst : catalogId start = .ok first) :
    last.journal = none ∧ catalogId last = .ok (ids.getLastD first) ∧
      (first :: ids).Pairwise (· < ·) := by
  induction h with
  | start hjournal => exact ⟨hjournal, hfirst, pairwise_singleton _ _⟩
  | commit hbefore hbound hfaithful hrun hrecovered published hpublished ih =>
    obtain ⟨hjournal, hcurrent, hpairwise⟩ := ih
    obtain ⟨hnone, hkept, hmoved⟩ :=
      interrupted_commit_id hserde hjournal hfaithful hbound hrun hrecovered
    cases published with
    | false =>
      refine ⟨hnone, (hkept fun state hmem h => ?_).trans hcurrent, hpairwise⟩
      cases hpublished.mpr ⟨state, hmem, h⟩
    | true =>
      obtain ⟨hid, current, hprior, hlt⟩ := hmoved (hpublished.mp rfl)
      cases hcurrent.symm.trans hprior
      refine ⟨hnone, hid.trans (by rw [if_pos rfl, getLastD_concat]), ?_⟩
      rw [if_pos rfl, ← cons_append, pairwise_append]
      refine ⟨hpairwise, pairwise_singleton _ _, fun id hmem other hother => ?_⟩
      rw [mem_singleton.mp hother]
      exact (le_getLastD hpairwise id hmem).trans_lt hlt

/-- However a commit and the recoveries after it are stopped, a file that the commit does not
name is in the end what it was before. -/
theorem stopped_commit_leaves_other_files (hserde : RoundTrips) (hjournal : prior.journal = none)
    (hfaithful : Faithful root changes prior.files)
    (hrun : Interrupted ((commitFiles pid root changes).durable exec)
      (fun pid => (recoverLocked pid).durable exec) prior seen found)
    (hrecovered : ((recoverLocked next).durable exec).Finishes found last ()) {name : FileName}
    (hvisible : Visible name) (hother : ∀ change ∈ changes, ¬ change.Names root name) :
    last.files name = prior.files name := by
  obtain ⟨_, hfinishes, -, hends⟩ :=
    interrupted_recovers next hserde (commitFiles_crosses hserde hjournal hfaithful) hrun
  obtain ⟨rfl, -⟩ := hrecovered.unique hfinishes
  rcases hends with ⟨hshows, -⟩ | ⟨⟨-, hshows⟩, -⟩
  · exact hshows name hvisible
  · rw [hshows name hvisible, desiredFiles, find?_eq_none.mpr (by simpa using hother)]

end Commit

section Atomic
variable [Runtime] [DirectoryOrder] [ManifestSerde]

/-- Every commit is all or nothing, however it and its recoveries are stopped: all its targets
have their old contents, or their new ones if the committed manifest was published, and no
journal is left.  The ids of published commits grow from one to the next. -/
theorem catalog_commit_is_atomic (root : Path) (hserde : RoundTrips) :
    (∀ pid next changes prior seen found, prior.journal = none → Faithful root changes prior.files →
      Interrupted ((commitFiles pid root changes).durable exec)
        (fun pid => (recoverLocked pid).durable exec) prior seen found →
      ∃ last, ((recoverLocked next).durable exec).Finishes found last () ∧ last.journal = none ∧
        ((∀ state ∈ seen, ¬ Published state) → TargetsAt root changes .before last) ∧
        ((∃ state ∈ seen, Published state) → TargetsAt root changes .after last)) ∧
    ∀ start last ids first, CommitRun root start ids last → catalogId start = .ok first →
      catalogId last = .ok (ids.getLastD first) ∧ (first :: ids).Pairwise (· < ·) :=
  ⟨fun _ _ _ _ _ _ hjournal hfaithful hrun =>
    interrupted_commit_recovers hserde hjournal hfaithful hrun,
    fun _ _ _ _ hrun hfirst => (hrun.grows hserde hfirst).2⟩

end Atomic

/-- Invalid bytes in a name become the replacement character. -/
@[reducible] def Replacing : Runtime := { Runtime.bare with utf8Lossy := fun _ => "\uFFFD" }

attribute [local instance] Replacing DirectoryOrder.plain ManifestSerde.plain

/-- Two files, and a commit that creates a third and removes one of them. -/
def sampleRoot : Root :=
  ⟨fun name => if name = utf8 "b" then some [2] else if name = utf8 "c" then some [3]
    else none, none⟩

def sampleChanges : List FileChange := [⟨[utf8 "a"], none, some [1]⟩, ⟨[utf8 "b"], some [2], none⟩]

theorem faithful_single {text : String} {before after : Option Bytes}
    {prior : FileName → Option Bytes}
    (hproper : Proper (utf8 text)) (hbefore : prior (utf8 text) = before) :
    Faithful [] [⟨[utf8 text], before, after⟩] prior := by
  intro change hmem name hname
  cases mem_singleton.mp hmem
  cases hname
  exact ⟨congrArg utf8 (fromUtf8Lossy_utf8 text), hproper, hbefore⟩

theorem proper_a : Proper (utf8 "a") := ⟨by decide, visible_of_getLast? (by decide)⟩

theorem faithful_sampleChanges : Faithful [] sampleChanges sampleRoot.files :=
  forall_mem_cons.mpr ⟨faithful_single proper_a rfl _ (.head _),
    faithful_single ⟨by decide, visible_of_getLast? (by decide)⟩ rfl⟩

/-- The commit is stopped between its two changes. -/
theorem catalog_commit_is_atomic_stopped :
    let passed := ((commitFiles 7 [] sampleChanges).durable exec sampleRoot).passed
    ∃ last, ((recoverLocked 8).durable exec).Finishes
      ((passed.take 20).getLastD sampleRoot) last () ∧
      last.journal = none ∧
      ((∀ state ∈ passed.take 20, ¬ Published state) → TargetsAt [] sampleChanges .before last) ∧
      ((∃ state ∈ passed.take 20, Published state) → TargetsAt [] sampleChanges .after last) := by
  intro passed
  exact (catalog_commit_is_atomic [] ManifestSerde.plain_roundTrips).1 7 8 _ _ _ _ rfl
    faithful_sampleChanges (.stopped ⟨List.take_prefix 20 _, rfl⟩)

/-- The file that the commit does not name. -/
theorem stopped_commit_leaves_other_files_second :
    let passed := ((commitFiles 7 [] sampleChanges).durable exec sampleRoot).passed
    ∃ last, ((recoverLocked 8).durable exec).Finishes
      ((passed.take 20).getLastD sampleRoot) last () ∧
      last.files (utf8 "c") = some [3] := by
  intro passed
  have hrun : (((recoverLocked 8).durable exec).finish?
      ((passed.take 20).getLastD sampleRoot)).isSome = true := by
    decide +kernel
  obtain ⟨⟨last, _⟩, hlast⟩ := Option.isSome_iff_exists.mp hrun
  have hrecovered := Durable.finish?_eq_some.mp hlast
  exact ⟨last, hrecovered, stopped_commit_leaves_other_files ManifestSerde.plain_roundTrips rfl
    faithful_sampleChanges (.stopped ⟨List.take_prefix 20 _, rfl⟩) hrecovered
    (visible_of_getLast? (by decide)) (by decide)⟩

/-- A target whose name is not valid UTF-8 is written under another name: the commit is
published, but the target keeps its old content beside the new one of the other target. -/
theorem misnamed_target_is_left :
    let changes := [FileChange.mk [[0xff]] (some [1]) (some [2]),
      FileChange.mk [utf8 "a"] none (some [3])]
    let prior : Root := ⟨fun name => if name = [0xff] then some [1] else none, none⟩
    ∃ seen found last, Interrupted ((commitFiles 7 [] changes).durable exec)
        (fun pid => (recoverLocked pid).durable exec) prior seen found ∧
      (∃ state ∈ seen, Published state) ∧ ((recoverLocked 8).durable exec).Finishes found last () ∧
      last.files [0xff] = some [1] ∧ last.files (utf8 "a") = some [3] := by
  intro changes prior
  let passed := ((commitFiles 7 [] changes).durable exec prior).passed
  have hrun : (match ((recoverLocked 8).durable exec).finish? (passed.getLastD prior) with
      | some (last, ()) => passed.any isPublished && decide (last.files [0xff] = some [1]) &&
          decide (last.files (utf8 "a") = some [3])
      | none => false) = true := by decide +kernel
  split at hrun
  · rename_i last hlast
    simp only [Bool.and_eq_true, decide_eq_true_eq] at hrun
    obtain ⟨⟨hpublished, hleft⟩, hwritten⟩ := hrun
    obtain ⟨state, hmem, hstate⟩ := any_eq_true.mp hpublished
    exact ⟨passed, _, last, .stopped ⟨prefix_rfl, rfl⟩,
      ⟨state, hmem, published_of_isPublished hstate⟩,
      Durable.finish?_eq_some.mp hlast, hleft, hwritten⟩
  · cases hrun

end TxBase.Catalog
