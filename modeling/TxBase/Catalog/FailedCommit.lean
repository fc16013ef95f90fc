import TxBase.Catalog.TransactionIds

/-! A commit in which operations fail, with or without having taken effect: what its result
says of the state that a recovery leaves. -/
namespace TxBase.Catalog
open Lib Json
open Procedure (Event Ensures Runs Calls after runs_play)
variable {events : List (Event FsOp Root IoError)} {result : Except CatalogError Unit}

section Late
variable [DirectoryOrder] [ManifestSerde]

/-- The operation brings the decision to disk: the sync of a directory, or the rename of a manifest. -/
def FsOp.Settles : FsOp → Prop
  | .syncDirectory _ => True
  | .rename source target => source = .temporary ∧ target = .manifest
  | _ => False

/-- An operation fails although the committed manifest is or was in place: the sync of a directory
behind it, or its own rename that has taken effect. -/
def Event.Late (published : Prop) (event : Event FsOp Root IoError) : Prop :=
  ∃ error effect, event.happening = .failed error effect ∧
    match event.op with
    | .syncDirectory _ => published ∨ Published event.state
    | .rename .temporary .manifest => effect = true ∧ Published (exec event.op event.state).2
    | _ => False

def FailsLate (published : Prop) : List (Event FsOp Root IoError) → Prop
  | [] => False
  | event :: rest => Event.Late published event ∨ FailsLate (published ∨ Published event.state) rest

variable {event : Event FsOp Root IoError}

theorem Event.Late.settles {published : Prop} (h : Event.Late published event) :
    event.op.Settles := by
  obtain ⟨error, effect, -, h⟩ := h
  split at h
  · rename_i hop
    rw [hop]
    trivial
  · rename_i hop
    rw [hop]
    exact ⟨rfl, rfl⟩
  · exact h.elim

/-- Neither before nor after the operation a committed manifest is in place. -/
def Event.Early (event : Event FsOp Root IoError) : Prop :=
  ¬ Published event.state ∧ ¬ Published (after exec event.op event.state event.happening).2

theorem Event.Early.not_late (h : Event.Early event) : ¬ Event.Late False event := by
  rintro ⟨error, effect, hhappening, hlate⟩
  obtain ⟨hbefore, hafter⟩ := h
  split at hlate
  · exact hlate.elim id hbefore
  · obtain ⟨rfl, hpublished⟩ := hlate
    rw [hhappening] at hafter
    exact hafter hpublished
  · exact hlate

variable {front back : List (Event FsOp Root IoError)}

theorem failsLate_early (hfront : ∀ event ∈ front, Event.Early event) :
    FailsLate False (front ++ back) ↔ FailsLate False back := by
  induction front with
  | nil => rfl
  | cons event front ih =>
    have hevent := hfront event List.mem_cons_self
    rw [List.cons_append, FailsLate, ← ih (List.forall_mem_cons.mp hfront).2]
    simp only [hevent.not_late, hevent.1, false_or]

theorem failsLate_unsettled (hfront : ∀ event ∈ front, ¬ event.op.Settles) :
    FailsLate True (front ++ back) ↔ FailsLate True back := by
  induction front with
  | nil => rfl
  | cons event front ih =>
    have hevent : ¬ Event.Late True event := fun h => hfront event List.mem_cons_self h.settles
    rw [List.cons_append, FailsLate, ← ih (List.forall_mem_cons.mp hfront).2]
    simp only [hevent, false_or, true_or]

end Late

section Runs
theorem calls_perform {called : FsOp → Prop} {op : FsOp} (h : called op) :
    Calls called (perform op) :=
  ⟨h, fun answer => by cases answer <;> trivial⟩

theorem calls_removeManifest : Calls (fun op => ¬ op.Settles) removeManifest := by
  refine ⟨id, fun answer => ?_⟩
  cases answer with
  | ok done => trivial
  | error error =>
    show Calls _ (if error.notFound then (pure () : Cataloguing Unit) else .fail (.io error))
    split <;> trivial

theorem calls_removeEntry (entry : Entry) : Calls (fun op => ¬ op.Settles) (removeEntry entry) := by
  cases entry with
  | file path => exact calls_perform id
  | directory dir =>
    refine (calls_perform id).bind fun entries =>
      Calls.bind (Calls.forEach fun inner => ?_) fun _ => calls_perform id
    cases inner <;> exact calls_perform id

theorem calls_removeJournal : Calls (fun op => ¬ op.Settles) removeJournal :=
  (calls_perform id).bind fun _ => (Calls.forEach calls_removeEntry).bind fun _ => calls_perform id

variable [DirectoryOrder] [ManifestSerde] {root : Root} {last : Root}

omit [ManifestSerde] in
theorem runs_perform {α : Type} {op : FsOp} {reply : op.Reply} {next : Root}
    {rest : op.Reply → Cataloguing α}
    {result : Except CatalogError α} (hexec : exec op root = (.ok reply, next))
    (h : Runs exec (perform op >>= rest) root events result last) :
    (∃ error effect, events = [⟨op, root, .failed error effect⟩] ∧ result = .error (.io error) ∧
      last = bif effect then next else root) ∨
    ∃ back, events = ⟨op, root, .answered⟩ :: back ∧
      Runs exec (rest reply) next back result last := by
  cases h with
  | call happening hrest =>
    cases happening with
    | answered =>
      rw [after, hexec] at hrest
      exact .inr ⟨_, rfl, hrest⟩
    | failed error effect =>
      refine .inl ⟨error, effect, ?_⟩
      cases effect with
      | false =>
        cases hrest
        exact ⟨rfl, rfl, rfl⟩
      | true =>
        cases hrest
        exact ⟨rfl, rfl, congrArg Prod.snd hexec⟩

/-- Behind the committed manifest only the sync of the directory can fail late, and its failure is
the only one that is returned. -/
theorem runs_syncRoot (h : Runs exec (perform (.syncDirectory none)) root events result last) :
    (∃ error, result = .error error) ↔ FailsLate True events := by
  rw [← bind_pure (perform (.syncDirectory none))] at h
  rcases runs_perform rfl h with ⟨error, effect, rfl, rfl, -⟩ | ⟨back, rfl, hdone⟩
  · exact iff_of_true ⟨_, rfl⟩ (.inl ⟨error, effect, rfl, .inl trivial⟩)
  · cases hdone
    simp [FailsLate, Event.Late]

theorem runs_closeJournal (h : Runs exec closeJournal root events result last) :
    (∃ error, result = .error error) ↔ FailsLate True events := by
  unfold closeJournal at h
  rcases h.bind_inv with ⟨error, -, hfirst⟩ | ⟨removed, middle, front, back, hfirst, hrest, rfl⟩
  · obtain ⟨_, hok, -⟩ := hfirst.attempt_inv
    cases hok
  obtain ⟨_, -, hfirst⟩ := hfirst.attempt_inv
  rw [failsLate_unsettled (calls_removeManifest.runs hfirst)]
  cases removed with
  | error error => exact runs_syncRoot hrest
  | ok done =>
    rcases hrest.bind_inv with ⟨error, -, hsecond⟩ | ⟨_, _, front, back, hsecond, hsync, rfl⟩
    · obtain ⟨_, hok, -⟩ := hsecond.attempt_inv
      cases hok
    obtain ⟨_, -, hsecond⟩ := hsecond.attempt_inv
    rw [failsLate_unsettled (calls_removeJournal.runs hsecond)]
    exact runs_syncRoot hsync

end Runs

section Commit
variable {state : Root} {base goal : FileName → Option Bytes} {phase : Phase}

theorem targetsAt_unchanged (h : ∀ change ∈ changes, change.before = change.after)
    (hafter : TargetsAt root changes .after state) : TargetsAt root changes .before state :=
  fun change hmem name hname => (hafter change hmem name hname).trans (h change hmem).symm

variable [Runtime] [DirectoryOrder] [ManifestSerde] {pid : Nat} {root : Path}
  {changes : List FileChange}
  {prior last : Root}

/-- A failure that is not reported as the absence of a file. -/
def Event.Genuine (event : Event FsOp Root IoError) : Prop :=
  ∀ error effect, event.happening = .failed error effect → error.notFound = false

omit [Runtime] [DirectoryOrder] [ManifestSerde] in
theorem genuine_events : Genuine Event.Genuine := fun _ _ _ _ h => h _ _ rfl

/-- What a run of a commit comes to. -/
def Settled (root : Path) (changes : List FileChange) (prior : FileName → Option Bytes)
    (events : List (Event FsOp Root IoError)) (result : Except CatalogError Unit)
    (last : Root) : Prop :=
  (Bound .prepared (desiredFiles root changes prior) prior last ∧ ¬ FailsLate False events ∧
    ∃ error, result = .error error) ∨
  (Final (Accepted root changes) root changes prior last ∧
    ((∃ error, result = .error error) ↔ FailsLate False events))

theorem Settled.front {α : Type} {program : Cataloguing α} {next : α → Cataloguing Unit}
    {ends : α → Root → Prop}
    {fails : CatalogError → Root → Prop} (hserde : RoundTrips)
    (h : Ensures exec Event.Genuine (Bound .prepared
      (desiredFiles root changes prior.files) prior.files) program state ends fails)
    (hnext : ∀ value middle back, (∀ event ∈ back, Event.Genuine event) →
      Bound .prepared (desiredFiles root changes prior.files) prior.files middle →
        ends value middle →
      Runs exec (next value) middle back result last →
        Settled root changes prior.files back result last)
    (hevents : ∀ event ∈ events, Event.Genuine event)
    (hrun : Runs exec (program >>= next) state events result last) :
    Settled root changes prior.files events result last := by
  obtain ⟨front, back, middle, rfl, hmiddle, hfront, hrest⟩ := 
    h.runs_bind hrun fun event hmem => .inr (hevents event hmem)
  have hearly : ∀ event ∈ front, Event.Early event := fun event hmem =>
    ⟨(hfront event hmem).1.not_published hserde, (hfront event hmem).2.not_published hserde⟩
  unfold Settled
  rw [failsLate_early hearly]
  rcases hrest with ⟨error, rfl, rfl, rfl, -⟩ | ⟨value, hends, hrest⟩
  · exact .inl ⟨hmiddle, id, error, rfl⟩
  · exact hnext value middle back (fun event hmem =>
      hevents event (List.mem_append_right _ hmem)) hmiddle hends
      hrest

theorem runs_publish {prior : FileName → Option Bytes} {named : List (String × FileChange)}
    {drafted : Root}
    (hserde : RoundTrips) (haccepted : Accepted root changes)
    (hchanges : Changes prior (desiredFiles root changes prior) named)
    (hdraft : Drafted named drafted)
    (hbound : Bound .prepared (desiredFiles root changes prior) prior drafted)
    (hshows : Shows (desiredFiles root changes prior) drafted)
    (hevents : ∀ event ∈ events, Event.Genuine event)
    (hrun : Runs exec (do
      perform (.rename .temporary .manifest)
      perform (.syncDirectory (some .journal))
      closeJournal) drafted events result last) : Settled root changes prior events result last := by
  obtain ⟨next, journal, hexec, -, hpending⟩ := hdraft.publish hchanges hshows
  have hpublished : Published next := (hpending.published hserde).mpr rfl
  have hfinal : Final (Accepted root changes) root changes prior next :=
    ⟨haccepted, .inr ⟨_, _, hpending⟩⟩
  -- the rename decides: without effect a recovery rolls back, with effect it rolls forward
  rcases runs_perform hexec hrun with ⟨error, _ | _, rfl, rfl, rfl⟩ | ⟨back, rfl, hrest⟩
  · exact .inl ⟨hbound, by simp [FailsLate, Event.Late], _, rfl⟩
  · refine .inr ⟨hfinal, iff_of_true ⟨_, rfl⟩ (.inl ⟨error, true, rfl, rfl, ?_⟩)⟩
    rw [hexec]
    exact hpublished
  refine .inr ?_
  have hback : ∀ event ∈ back, Event.Genuine event := (List.forall_mem_cons.mp hevents).2
  have hlate : FailsLate False (⟨.rename .temporary .manifest, drafted, .answered⟩ :: back) ↔
      FailsLate False back := by
    simp [FailsLate, Event.Late, hbound.not_published hserde]
  rw [hlate]
  rcases runs_perform rfl hrest with ⟨error, effect, rfl, rfl, rfl⟩ | ⟨back, rfl, hclose⟩
  · rw [Bool.cond_self]
    exact ⟨hfinal, iff_of_true ⟨_, rfl⟩ (.inl ⟨error, effect, rfl, .inr hpublished⟩)⟩
  · obtain ⟨hlast, -⟩ := (closeJournal_ensures genuine_events hpending).runs hclose fun event hmem =>
      .inr (hback event (List.mem_cons_of_mem _ hmem))
    refine ⟨⟨haccepted, hlast⟩, (runs_closeJournal hclose).trans ?_⟩
    simp [FailsLate, Event.Late, hpublished]

theorem commitFiles_settled (hserde : RoundTrips) (hjournal : prior.journal = none)
    (hfaithful : Faithful root changes prior.files) (hevents : ∀ event ∈ events, Event.Genuine event)
    (hrun : Runs exec (commitFiles pid root changes) prior events result last) :
    Settled root changes prior.files events result last := by
  have hclear : Clear prior.files prior := ⟨fun _ _ => rfl, hjournal⟩
  have hprior : Bound .prepared (desiredFiles root changes prior.files) prior.files prior :=
    .inl hclear.quiet
  unfold commitFiles at hrun
  split at hrun
  · rename_i hempty
    cases List.isEmpty_iff.mp hempty
    cases hrun
    exact .inr ⟨⟨⟨[], rfl⟩, .inl hclear.quiet⟩, by simp [FailsLate]⟩
  refine Settled.front hserde (show Ensures exec _ _ _ _ (fun found state => found = false ∧
    state = prior) _ from
    exists?_ensures hprior ⟨by rw [prior.present_journal, hjournal]; rfl, rfl⟩ fun _ _ _ =>
      ⟨rfl, rfl⟩) ?_ hevents hrun
  rintro _ _ back hevents - ⟨rfl, rfl⟩ hrun
  cases hnames : targetNames root [] changes with
  | error error =>
    rw [hnames] at hrun
    cases hrun
    exact .inl ⟨hprior, id, error, rfl⟩
  | ok names =>
    rw [hnames, if_neg Bool.false_ne_true, Procedure.ofExcept_ok_bind] at hrun
    have hchanges := changes_of_targetNames hnames hfaithful
    refine Settled.front hserde (prepareJournal_ensures hserde hclear hchanges) ?_ hevents hrun
    rintro _ prepared back hevents - ⟨rfl, hshows, hprepared⟩ hrun
    refine Settled.front hserde (applyAfter_ensures genuine_events hchanges hprepared hshows)
      ?_ hevents hrun
    rintro _ applied back hevents - ⟨hshows, hprepared⟩ hrun
    obtain ⟨bytes, htoVec, hencoded⟩ :=
      encodeManifest_eq hserde ⟨.committed, manifestChanges 0 (names.zip changes)⟩
    unfold writeManifest at hrun
    rw [hencoded, Procedure.ofExcept_ok_bind, bind_assoc] at hrun
    refine Settled.front hserde (draftCommitted_ensures hchanges hprepared hshows htoVec)
      ?_ hevents hrun
    rintro _ drafted back hevents hdrafted ⟨hshows, hdraft⟩ hrun
    rw [bind_assoc] at hrun
    exact runs_publish hserde ⟨names, hnames⟩ hchanges hdraft hdrafted hshows hevents hrun

def RecoveryStops (state next : Root) : Prop :=
  ∃ pid seen, ((recoverLocked pid).durable exec).StopsAfter state seen next

def Recovered (state recovered : Root) : Prop :=
  ∃ pid found, Relation.ReflTransGen RecoveryStops state found ∧
    ((recoverLocked pid).durable exec).Finishes found recovered ()

omit [Runtime] in
theorem Recovered.shows {recovered : Root} (hserde : RoundTrips)
    (hbound : Bound phase base goal state)
    (h : Recovered state recovered) :
    Shows goal recovered := by
  obtain ⟨pid, found, hstops, hfinishes⟩ := h
  have hfound : Bound phase base goal found := by
    clear hfinishes
    induction hstops with
    | refl => exact hbound
    | tail _ hstop ih =>
      obtain ⟨pid, seen, hstop⟩ := hstop
      exact (hstop.holds ih (recoverLocked_completes pid hserde ih).passed).1
  obtain ⟨-, _, last, hlast, hshows, -⟩ := recoverLocked_completes pid hserde hfound
  obtain ⟨rfl, -⟩ := hfinishes.unique hlast
  exact hshows

omit [Runtime] in
theorem Bound.recovered (hserde : RoundTrips) (h : Bound phase base goal state) :
    ∃ recovered, Recovered state recovered := by
  obtain ⟨-, _, last, hlast, -⟩ := recoverLocked_completes 0 hserde h
  exact ⟨last, 0, state, .refl, hlast⟩

/-- The result of a commit tells what is left of it. -/
def Honest (root : Path) (changes : List FileChange) (result : Except CatalogError Unit)
    (last : Root) : Prop :=
  match result with
  | .ok () => TargetsAt root changes .after last
  | .error _ => ∀ recovered, Recovered last recovered → TargetsAt root changes .before recovered

omit [DirectoryOrder] [ManifestSerde] in
theorem unchanged_of_targetsAt (haccepted : Accepted root changes)
    (hbefore : TargetsAt root changes .before state)
    (hafter : TargetsAt root changes .after state) :
    ∀ change ∈ changes, change.before = change.after := by
  intro change hmem
  obtain ⟨names, hnames⟩ := haccepted
  obtain ⟨hlength, -, -, hnamed⟩ := targetNames_eq_ok hnames
  have hzip := hmem
  rw [← List.map_snd_zip hlength.ge] at hzip
  obtain ⟨entry, hentry, rfl⟩ := List.mem_map.mp hzip
  obtain ⟨name, hname, -⟩ := hnamed entry hentry
  exact (hbefore _ hmem name hname).symm.trans (hafter _ hmem name hname)

/-- A commit that returns an error is rolled back, and one that does not has made its changes, if
and only if no directory sync behind the committed manifest and no rename of it that has taken effect
was taken for a failure, or nothing was to change. -/
theorem failed_commit_is_no_commit (hserde : RoundTrips) (hjournal : prior.journal = none)
    (hfaithful : Faithful root changes prior.files) (hevents : ∀ event ∈ events, Event.Genuine event)
    (hrun : Runs exec (commitFiles pid root changes) prior events result last) :
    Honest root changes result last ↔
      ¬ FailsLate False events ∨ ∀ change ∈ changes, change.before = change.after := by
  rcases commitFiles_settled hserde hjournal hfaithful hevents hrun with
    ⟨hbound, hlate, error, rfl⟩ | ⟨⟨haccepted, hbound⟩, hresult⟩
  · refine iff_of_true (fun recovered hrecovered => ?_) (.inl hlate)
    exact targetsAt_before hfaithful (hrecovered.shows hserde hbound)
  have hafter : ∀ state, Shows (desiredFiles root changes prior.files) state →
      TargetsAt root changes .after state := fun state => targetsAt_after hfaithful haccepted
  cases result with
  | ok done =>
    refine iff_of_true (hafter last hbound.shows) (.inl fun hlate => ?_)
    obtain ⟨error, herror⟩ := hresult.mpr hlate
    cases herror
  | error error =>
    have hlate : FailsLate False events := hresult.mp ⟨error, rfl⟩
    constructor
    · intro hhonest
      obtain ⟨recovered, hrecovered⟩ := hbound.recovered hserde
      exact .inr (unchanged_of_targetsAt haccepted (hhonest recovered hrecovered)
        (hafter recovered (hrecovered.shows hserde hbound)))
    · rintro (hearly | hunchanged) recovered hrecovered
      · exact absurd hlate hearly
      · exact targetsAt_unchanged hunchanged (hafter recovered (hrecovered.shows hserde hbound))

end Commit

def deviceError : IoError := ⟨false, "Input/output error"⟩

attribute [local instance] Replacing DirectoryOrder.plain ManifestSerde.plain

/-- A new file, with a write of its draft that fails. -/
theorem failed_commit_is_no_commit_draft :
    let changes := [FileChange.mk [utf8 "a"] none (some [1])]
    let prior : Root := ⟨fun _ => none, none⟩
    let run := (commitFiles 7 [] changes).play exec prior
      (List.replicate 14 .answered ++ [.failed deviceError true])
    run.2.1 = .error (.io deviceError) ∧ (Honest [] changes run.2.1 run.2.2 ↔
      ¬ FailsLate False run.1 ∨ ∀ change ∈ changes, change.before = change.after) := by
  intro changes prior run
  refine ⟨by decide +kernel, failed_commit_is_no_commit ManifestSerde.plain_roundTrips rfl
    (faithful_single proper_a rfl) ?_
    (runs_play _)⟩
  have hhappenings : ∀ happening ∈ run.1.map Event.happening,
      happening = .answered ∨ happening = .failed deviceError true := by decide +kernel
  intro event hmem error effect hfailed
  rcases hhappenings _ (List.mem_map_of_mem hmem) with heq | heq
  · cases hfailed.symm.trans heq
  · cases hfailed.symm.trans heq
    rfl

/-- The sync of the journal's directory fails once the committed manifest is in place: the commit
returns an error, and the next recovery makes its change. -/
theorem failed_commit_is_rolled_forward :
    let changes := [FileChange.mk [utf8 "a"] none (some [1])]
    let prior : Root := ⟨fun _ => none, none⟩
    ∃ events error last recovered, Runs exec (commitFiles 7 [] changes) prior events
      (.error error) last ∧
      events.map Event.happening = List.replicate 22 .answered ++ [.failed deviceError false] ∧
      Recovered last recovered ∧ recovered.files (utf8 "a") = some [1] ∧
      ¬ Honest [] changes (.error error) last := by
  intro changes prior
  let run := (commitFiles 7 [] changes).play exec prior
    (List.replicate 22 .answered ++ [.failed deviceError false])
  have hevents : run.1.map Event.happening = List.replicate 22 .answered ++
      [.failed deviceError false] := by
    decide +kernel
  have hresult : run.2.1 = .error (.io deviceError) := by decide +kernel
  have hrecovery : (((recoverLocked 8).durable exec).finish? run.2.2).map
    (fun last => last.1.files (utf8 "a")) =
      some (some [1]) := by decide +kernel
  obtain ⟨⟨recovered, _⟩, hfinish, hfile⟩ := Option.map_eq_some_iff.mp hrecovery
  have hrecovered : Recovered run.2.2 recovered := ⟨8, _, .refl, Durable.finish?_eq_some.mp hfinish⟩
  refine ⟨run.1, .io deviceError, run.2.2, recovered, hresult ▸ runs_play _, hevents,
    hrecovered, hfile,
    fun hhonest => ?_⟩
  have hbefore := hhonest recovered hrecovered _ List.mem_cons_self (utf8 "a") rfl
  cases hfile.symm.trans hbefore

end TxBase.Catalog
