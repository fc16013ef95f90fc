import TxBase.Catalog.Commit

/-! A commit through the journal is all or nothing, however often it and its recoveries are
stopped. -/
namespace TxBase.Catalog
open Lib Json
open Procedure (Event Ensures after Turns Crosses)
open Durable (Interrupted)
variable {changes : List FileChange} {state : Root}

section Targets
variable [Runtime] {root : Path} {prior : FileName → Option Bytes}

def FileChange.Names (root : Path) (change : FileChange) (name : FileName) : Prop :=
  stripRoot root change.target = some [name]

instance (root : Path) (change : FileChange) (name : FileName) :
    Decidable (change.Names root name) :=
  inferInstanceAs (Decidable (_ = _))

def desiredFiles (root : Path) (changes : List FileChange) (prior : FileName → Option Bytes) :
    FileName → Option Bytes := fun name =>
  match changes.find? fun change => change.Names root name with
  | some change => change.after
  | none => prior name

/-- Each change is about a file whose name the manifest can hold, which is neither a directory
nor the draft of a file, and whose content it knows. -/
def Faithful (root : Path) (changes : List FileChange) (prior : FileName → Option Bytes) : Prop :=
  ∀ change ∈ changes, ∀ name, change.Names root name →
    utf8 (fromUtf8Lossy name) = name ∧ Proper name ∧ prior name = change.before

theorem targetName_eq_ok {change : FileChange} {text : String}
    (h : targetName root change = .ok text) :
    ∃ name, change.Names root name ∧ text = fromUtf8Lossy name := by
  unfold targetName at h
  split at h
  · cases h
  · rename_i name hname
    cases h
    exact ⟨name, hname, rfl⟩
  · cases h

variable {names : List String}

theorem targetNames_eq_ok {seen : List String} (h : targetNames root seen changes = .ok names) :
    names.length = changes.length ∧ names.Nodup ∧ (∀ text ∈ names, text ∉ seen) ∧
      ∀ entry ∈ names.zip changes, ∃ name, entry.2.Names root name ∧
        entry.1 = fromUtf8Lossy name := by
  induction changes generalizing seen names with
  | nil =>
    cases h
    simp
  | cons change rest ih =>
    simp only [targetNames, bind_eq_ok] at h
    obtain ⟨text, htext, h⟩ := h
    split at h
    · cases h
    · rename_i hseen
      simp only [bind_eq_ok, Except.ok.injEq] at h
      obtain ⟨others, hothers, rfl⟩ := h
      obtain ⟨hlength, hnodup, hnew, hnamed⟩ := ih hothers
      have hfresh : text ∉ others := fun hmem => hnew text hmem List.mem_cons_self
      refine ⟨congrArg Nat.succ hlength, List.nodup_cons.mpr ⟨hfresh, hnodup⟩, ?_, ?_⟩
      · intro other hother
        rcases List.mem_cons.mp hother with rfl | hother
        · exact hseen
        · exact fun hmem => hnew other hother (List.mem_cons_of_mem _ hmem)
      · exact List.forall_mem_cons.mpr ⟨targetName_eq_ok htext, hnamed⟩

theorem changes_of_targetNames (h : targetNames root [] changes = .ok names)
    (hfaithful : Faithful root changes prior) :
    Changes prior (desiredFiles root changes prior) (names.zip changes) := by
  obtain ⟨hlength, hnodup, -, hnamed⟩ := targetNames_eq_ok h
  have hsnd : ∀ entry ∈ names.zip changes, entry.2 ∈ changes :=
    fun _ hmem => (List.of_mem_zip hmem).2
  have hkeys : ((names.zip changes).map Prod.fst).Nodup := by
    rw [List.map_fst_zip hlength.le]
    exact hnodup
  have hpaired : ∀ change ∈ changes, ∃ text, (text, change) ∈ names.zip changes := by
    intro change hmem
    rw [← List.map_snd_zip hlength.ge] at hmem
    obtain ⟨⟨text, _⟩, hzip, rfl⟩ := List.mem_map.mp hmem
    exact ⟨text, hzip⟩
  have hname : ∀ entry ∈ names.zip changes, entry.2.Names root (utf8 entry.1) := by
    intro entry hmem
    obtain ⟨name, hname, htext⟩ := hnamed entry hmem
    rw [htext, (hfaithful entry.2 (hsnd entry hmem) name hname).1]
    exact hname
  refine ⟨fun entry hmem => ?_, fun entry hmem => ?_, fun entry hmem => ?_, fun name _ hne => ?_⟩
  · exact (hfaithful entry.2 (hsnd entry hmem) _ (hname entry hmem)).2.1
  · exact (hfaithful entry.2 (hsnd entry hmem) _ (hname entry hmem)).2.2
  · have hfound : (changes.find? fun change => change.Names root (utf8 entry.1)) = some entry.2 := by
      cases hfind : changes.find? fun change => change.Names root (utf8 entry.1) with
      | none =>
        have hnone := List.find?_eq_none.mp hfind entry.2 (hsnd entry hmem)
        simp [hname entry hmem] at hnone
      | some found =>
        have hother : found.Names root (utf8 entry.1) := by simpa using List.find?_some hfind
        obtain ⟨text, hzip⟩ := hpaired found (List.mem_of_find?_eq_some hfind)
        have hsame : [utf8 text] = [utf8 entry.1] :=
          Option.some.inj ((hname _ hzip).symm.trans hother)
        have htext : text = entry.1 := utf8_inj (List.head_eq_of_cons_eq hsame)
        exact congrArg (some ∘ Prod.snd) (List.inj_on_of_nodup_map hkeys hzip hmem htext)
    unfold desiredFiles
    rw [hfound]
  · unfold desiredFiles at hne
    split at hne
    · rename_i change hfind
      obtain ⟨text, hzip⟩ := hpaired change (List.mem_of_find?_eq_some hfind)
      have hother : change.Names root name := by simpa using List.find?_some hfind
      have hsame : [utf8 text] = [name] := Option.some.inj ((hname _ hzip).symm.trans hother)
      exact ⟨_, hzip, List.head_eq_of_cons_eq hsame⟩
    · exact absurd rfl hne

/-- The targets are ones that a commit accepts. -/
def Accepted (root : Path) (changes : List FileChange) : Prop :=
  ∃ names, targetNames root [] changes = .ok names

def TargetsAt (root : Path) (changes : List FileChange) (side : Side) (state : Root) : Prop :=
  ∀ change ∈ changes, ∀ name, change.Names root name → state.files name = change.content side

theorem targetsAt_before (hfaithful : Faithful root changes prior) (h : Shows prior state) :
    TargetsAt root changes .before state := by
  intro change hmem name hname
  obtain ⟨-, hproper, hbefore⟩ := hfaithful change hmem name hname
  rw [h name hproper.2, hbefore]
  rfl

theorem targetsAt_after (hfaithful : Faithful root changes prior) (haccepted : Accepted root changes)
    (h : Shows (desiredFiles root changes prior) state) :
    TargetsAt root changes .after state := by
  intro change hmem name hname
  obtain ⟨names, hnames⟩ := haccepted
  obtain ⟨hlength, -, -, hnamed⟩ := targetNames_eq_ok hnames
  have hchanges := changes_of_targetNames hnames hfaithful
  obtain ⟨htext, hproper, -⟩ := hfaithful change hmem name hname
  rw [← List.map_snd_zip hlength.ge] at hmem
  obtain ⟨entry, hentry, rfl⟩ := List.mem_map.mp hmem
  obtain ⟨other, hother, heq⟩ := hnamed entry hentry
  cases Option.some.inj (hname.symm.trans hother)
  have hafter := hchanges.after entry hentry
  rw [heq, htext] at hafter
  rw [h name hproper.2, hafter]
  rfl

end Targets

section Stopped
variable [ManifestSerde] {pid : Nat} {root : Path} {prior : Root}

def NoFailure (_ : Event FsOp Root IoError) : Prop := False

omit [ManifestSerde] in
theorem genuine_noFailure : Genuine NoFailure := fun _ _ _ _ => False.elim

omit [ManifestSerde] in
theorem looks_noFailure : Looks NoFailure := fun _ _ _ => not_false

/-- The manifest on disk is a committed one. -/
def Published (root : Root) : Prop :=
  ∃ bytes changes, root.get .manifest = some bytes ∧
    ManifestSerde.fromSlice bytes = .ok ⟨.committed, changes⟩

def isPublished (root : Root) : Bool :=
  match (root.get .manifest).map ManifestSerde.fromSlice with
  | some (.ok ⟨.committed, _⟩) => true
  | _ => false

theorem published_of_isPublished (h : isPublished state = true) : Published state := by
  unfold isPublished at h
  split at h
  · rename_i changes hmap
    obtain ⟨bytes, hbytes, hread⟩ := Option.map_eq_some_iff.mp hmap
    exact ⟨bytes, changes, hbytes, hread⟩
  · cases h

variable {base goal : FileName → Option Bytes} {phase : Phase}

theorem Pending.published {changes : List ManifestChange} {journal : JournalDirectory}
    (h : Pending phase changes base goal journal state) (hserde : RoundTrips) :
    Published state ↔ phase = .committed := by
  obtain ⟨bytes, hbytes, htoVec⟩ := h.manifest
  obtain ⟨_, hwritten, hread⟩ := hserde ⟨phase, changes⟩
  cases htoVec.symm.trans hwritten
  have hget : state.get .manifest = some bytes := by
    simp only [Root.get, h.kept, Option.bind_some, hbytes]
  constructor
  · rintro ⟨found, others, hfound, hothers⟩
    cases hget.symm.trans hfound
    cases hread.symm.trans hothers
    rfl
  · rintro rfl
    exact ⟨bytes, changes, hget, hread⟩

theorem Quiet.not_published {files : FileName → Option Bytes} (h : Quiet files state) :
    ¬ Published state := by
  rintro ⟨bytes, changes, hget, -⟩
  obtain ⟨journal, hjournal, hmanifest⟩ := Option.bind_eq_some_iff.mp hget
  rw [h.noManifest journal hjournal] at hmanifest
  cases hmanifest

theorem Bound.not_published (hserde : RoundTrips) (h : Bound .prepared base goal state) :
    ¬ Published state := by
  intro hpublished
  rcases h with hquiet | ⟨_, _, hpending⟩
  · exact hquiet.not_published hpublished
  · cases (hpending.published hserde).mp hpublished

/-- The changes were accepted and are made; a recovery keeps them. -/
def Final (accepted : Prop) (root : Path) (changes : List FileChange)
    (prior : FileName → Option Bytes)
    (state : Root) : Prop :=
  accepted ∧ Bound .committed (desiredFiles root changes prior)
    (desiredFiles root changes prior) state

variable {permitted : Event FsOp Root IoError → Prop}

variable [Runtime] [DirectoryOrder]

theorem publish_turns {prior : FileName → Option Bytes} {named : List (String × FileChange)}
    {drafted : Root}
    {ends : Unit → Root → Prop} (hserde : RoundTrips) (hgenuine : Genuine permitted)
    (haccepted : Accepted root changes)
    (hchanges : Changes prior (desiredFiles root changes prior) named)
    (hdraft : Drafted named drafted)
    (hbound : Bound .prepared (desiredFiles root changes prior) prior drafted)
    (hshows : Shows (desiredFiles root changes prior) drafted) :
    Turns exec permitted (Bound .prepared (desiredFiles root changes prior) prior)
      (Final (Accepted root changes) root changes prior) Published (do
        perform (.rename .temporary .manifest)
        perform (.syncDirectory (some .journal))
        closeJournal) drafted ends := by
  obtain ⟨next, journal, hexec, -, hpending⟩ := hdraft.publish hchanges hshows
  have hpublished : Published next := (hpending.published hserde).mpr rfl
  have hnext : Final (Accepted root changes) root changes prior next :=
    ⟨haccepted, .inr ⟨_, _, hpending⟩⟩
  have hrest : Ensures exec permitted (Final (Accepted root changes) root changes prior)
      (do perform (.syncDirectory (some .journal)); closeJournal) next (fun _ _ => True)
        fun _ _ => True := by
    refine Ensures.bind ((perform_ensures rfl hnext hnext ?_).mono (fun _ _ _ h => h)
      fun _ _ _ _ => trivial)
    exact ((closeJournal_ensures hgenuine hpending).weaken fun _ hstate => ⟨haccepted, hstate⟩).mono
      (fun _ _ _ _ => trivial) fun _ _ _ _ => trivial
  refine ⟨hbound, fun happening hhappening => ?_⟩
  cases happening with
  | answered =>
    rw [after, hexec]
    exact .inr ⟨hpublished, hrest⟩
  | failed error effect =>
    cases effect with
    | false => exact .inl ⟨hbound.not_published hserde, hbound⟩
    | true =>
      rw [after, hexec]
      exact .inr ⟨hpublished, hnext, trivial⟩

/-- Until the committed manifest is published a commit can be rolled back, and from then on it
is made, whichever of its operations fail. -/
theorem commitFiles_turns (hserde : RoundTrips) (hgenuine : Genuine permitted)
    (hjournal : prior.journal = none)
    (hfaithful : Faithful root changes prior.files) :
    Turns exec permitted (Bound .prepared (desiredFiles root changes prior.files) prior.files)
      (Final (Accepted root changes) root changes prior.files) Published
        (commitFiles pid root changes) prior
      fun _ last => changes = [] ∧ last = prior := by
  have hclear : Clear prior.files prior := ⟨fun _ _ => rfl, hjournal⟩
  have hprior : Bound .prepared (desiredFiles root changes prior.files) prior.files prior :=
    .inl hclear.quiet
  have hmark : ∀ state, Bound .prepared (desiredFiles root changes prior.files) prior.files state →
      ¬ Published state := fun _ hstate => hstate.not_published hserde
  unfold commitFiles
  split
  · rename_i hempty
    exact ⟨hprior, List.isEmpty_iff.mp hempty, rfl⟩
  refine Ensures.turns_bind hmark ((show Ensures exec permitted _ _ _
    (fun found state => found = false ∧ state = prior) _ from
      exists?_ensures hprior ⟨by rw [prior.present_journal, hjournal]; rfl, rfl⟩
      fun _ _ _ => ⟨rfl, rfl⟩).imp ?_)
  rintro _ _ - ⟨rfl, rfl⟩
  cases hnames : targetNames root [] changes with
  | error error => exact hprior
  | ok names =>
    have hchanges := changes_of_targetNames hnames hfaithful
    rw [if_neg Bool.false_ne_true, Procedure.ofExcept_ok_bind]
    refine Ensures.turns_bind hmark ((prepareJournal_ensures hserde hclear hchanges).imp ?_)
    rintro _ prepared - ⟨rfl, hshows, hprepared⟩
    refine Ensures.turns_bind hmark ((applyAfter_ensures hgenuine hchanges hprepared hshows).imp ?_)
    rintro _ applied - ⟨hshows, hprepared⟩
    obtain ⟨bytes, htoVec, hencoded⟩ :=
      encodeManifest_eq hserde ⟨.committed, manifestChanges 0 (names.zip changes)⟩
    unfold writeManifest
    rw [hencoded, Procedure.ofExcept_ok_bind, bind_assoc]
    refine Ensures.turns_bind hmark
      ((draftCommitted_ensures hchanges hprepared hshows htoVec).imp ?_)
    rintro _ drafted hdrafted ⟨hshows, hdraft⟩
    rw [bind_assoc]
    exact publish_turns hserde hgenuine ⟨names, hnames⟩ hchanges hdraft hdrafted hshows

theorem commitFiles_crosses (hserde : RoundTrips) (hjournal : prior.journal = none)
    (hfaithful : Faithful root changes prior.files) :
    Crosses exec (Bound .prepared (desiredFiles root changes prior.files) prior.files)
      (Final (Accepted root changes) root changes prior.files) Published
        (commitFiles pid root changes) prior :=
  (commitFiles_turns hserde genuine_noFailure hjournal hfaithful).crosses

omit [Runtime] in
theorem recoverLocked_completes (pid : Nat) (hserde : RoundTrips) (h : Bound phase base goal state) :
    Durable.Completes ((recoverLocked pid).durable exec) state (Bound phase base goal)
      fun _ next => Shows goal next ∧ next.journal = none := by
  refine Ensures.completes ((recoverLocked_ensures genuine_noFailure looks_noFailure hserde h).mono
    (fun _ _ _ hends => hends) ?_)
  rintro _ _ - ⟨_, hfalse⟩
  exact hfalse

omit [Runtime] in
/-- The recovery after a commit and recoveries that were stopped: the files are as they were
before, or as they should be after if the committed manifest was published. -/
theorem interrupted_recovers {α : Type} {accepted : Prop} {program : Cataloguing α} (next : Nat)
    (hserde : RoundTrips) (hcrosses : Crosses exec
      (Bound .prepared (desiredFiles root changes prior.files) prior.files)
      (Final accepted root changes prior.files) Published program prior) {seen : List Root}
        {found : Root}
    (hrun : Interrupted (program.durable exec) (fun pid => (recoverLocked pid).durable exec)
      prior seen found) :
    ∃ last, ((recoverLocked next).durable exec).Finishes found last () ∧ last.journal = none ∧
      ((Shows prior.files last ∧ ∀ state ∈ seen, ¬ Published state) ∨
        ((accepted ∧ Shows (desiredFiles root changes prior.files) last) ∧
          ∃ state ∈ seen, Published state)) := by
  rcases hrun.phases hcrosses (fun _ _ hstate => (recoverLocked_completes _ hserde hstate).passed)
    (fun _ _ hstate next hmem =>
      ⟨hstate.1, (recoverLocked_completes _ hserde hstate.2).passed next hmem⟩) with
    ⟨hseen, hfound⟩ | hfound
  · obtain ⟨-, _, last, hfinishes, hshows, hnone⟩ := recoverLocked_completes next hserde hfound
    exact ⟨last, hfinishes, hnone, .inl ⟨hshows,
      fun state hmem => (hseen state hmem).not_published hserde⟩⟩
  · obtain ⟨⟨haccepted, hfound⟩, hever⟩ := hfound
    obtain ⟨-, _, last, hfinishes, hshows, hnone⟩ := recoverLocked_completes next hserde hfound
    exact ⟨last, hfinishes, hnone, .inr ⟨⟨haccepted, hshows⟩, hever⟩⟩

end Stopped

end TxBase.Catalog
