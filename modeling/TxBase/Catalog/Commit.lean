import TxBase.Catalog.Recovery

/-! A commit through the journal: what holds until the committed manifest is published, and
what holds from then on. -/
namespace TxBase.Catalog
open Lib
open Procedure (Event Ensures forEach)
open Option (map_some bind_some isSome_some)
variable {permitted : Event FsOp Root IoError → Prop} {journal : JournalDirectory}
  {prior desired : FileName → Option Bytes} {named : List (String × FileChange)}

def FileChange.content (change : FileChange) : Side → Option Bytes
  | .before => change.before
  | .after => change.after

def JournalDirectory.find (journal : JournalDirectory) (side : Side) (name : String) :
    Option Bytes :=
  (journal.staged side).bind (OrderedMap.get? name)

section Stage
variable [DirectoryOrder] {root : Root} {files : FileName → Option Bytes}

def manifestChange (index : Nat) (name : String) (change : FileChange) : ManifestChange :=
  ⟨name, change.before.map fun _ => toString index, change.after.map fun _ => toString index⟩

def manifestChanges (index : Nat) : List (String × FileChange) → List ManifestChange
  | [] => []
  | (name, change) :: rest => manifestChange index name change :: manifestChanges (index + 1) rest

def Staging (journal : JournalDirectory) (root : Root) : Prop :=
  root.journal = some journal ∧ ∀ side, (journal.staged side).isSome

def SameBut (name : String) (journal other : JournalDirectory) : Prop :=
  ∀ side found, found ≠ name → other.find side found = journal.find side found

variable {name : String}

theorem stageSide_ensures {side : Side} {content : Option Bytes} (h : Quiet files root)
    (hstaging : Staging journal root) :
    Ensures exec permitted (Quiet files) (stageSide (.staged side name) content) root
      (fun _ next => ∃ other, Staging other next ∧
        (∀ bytes, content = some bytes → other.find side name = some bytes) ∧
        (∀ found, found ≠ side → other.staged found = journal.staged found) ∧
          SameBut name journal other)
      fun _ _ => Faulty permitted := by
  obtain ⟨hjournal, hsides⟩ := hstaging
  cases content with
  | none => exact ⟨h, journal, ⟨hjournal, hsides⟩, nofun, fun _ _ => rfl, fun _ _ _ => rfl⟩
  | some bytes =>
    obtain ⟨staged, hstaged⟩ := Option.isSome_iff_exists.mp (hsides side)
    have hset : ∀ content, (root.set (.staged side name) (some content)).journal =
        some (journal.setStaged side (some (OrderedMap.insert name content staged))) := by
      intro content
      simp only [Root.set, hjournal, map_some, hstaged]
    have hquiet : ∀ content, Quiet files (root.set (.staged side name) (some content)) := by
      refine fun content => ⟨h.shows, fun other hother => ?_⟩
      rw [hset] at hother
      cases hother
      exact h.noManifest journal hjournal
    have hparent : root.hasParent (.staged side name) = true := by
      simp only [Root.hasParent, Root.stagedFiles, hjournal, bind_some, hstaged,
        isSome_some]
    refine (writeSynced_ensures rfl hparent h hquiet).imp ?_
    rintro _ _ - rfl
    refine ⟨_, ⟨hset bytes, fun found => ?_⟩, ?_, fun found hfound => if_neg hfound,
      fun found other hother => ?_⟩
    · by_cases heq : found = side
      · subst heq
        rw [setStaged_staged, isSome_some]
      · show Option.isSome (if found = side then _ else _) = true
        rw [if_neg heq]
        exact hsides found
    · rintro _ ⟨⟩
      simp only [JournalDirectory.find, setStaged_staged, bind_some, OrderedMap.get?_insert_self]
    · by_cases heq : found = side
      · subst heq
        simp only [JournalDirectory.find, setStaged_staged, bind_some, hstaged,
          OrderedMap.get?_insert_ne _ _ hother]
      · simp only [JournalDirectory.find, JournalDirectory.setStaged, if_neg heq]

variable {index : Nat}

theorem stageChange_ensures {change : FileChange} (h : Quiet files root)
    (hstaging : Staging journal root) :
    Ensures exec permitted (Quiet files) (stageChange index name change) root
      (fun result next => result = manifestChange index name change ∧ ∃ other, Staging other next ∧
        (∀ side bytes, change.content side = some bytes →
          other.find side (toString index) = some bytes) ∧
        SameBut (toString index) journal other)
      fun _ _ => Faulty permitted := by
  refine (stageSide_ensures h hstaging).then ?_
  rintro _ first hfirst ⟨middle, hmiddle, hbefore, -, hsame⟩
  refine (stageSide_ensures hfirst hmiddle).then ?_
  rintro _ last hlast ⟨other, hother, hafter, hbut, hsame'⟩
  refine ⟨hlast, rfl, other, hother, ?_, fun side found hne =>
    (hsame' side found hne).trans (hsame side found hne)⟩
  intro side bytes hbytes
  cases side with
  | before =>
    have hkept : other.find .before (toString index) = middle.find .before (toString index) := by
      unfold JournalDirectory.find
      rw [hbut .before (by decide)]
    exact hkept.trans (hbefore bytes hbytes)
  | after => exact hafter bytes hbytes

def Stored (index : Nat) (named : List (String × FileChange)) (journal : JournalDirectory) : Prop :=
  ∀ i entry, named[i]? = some entry → ∀ side bytes, entry.2.content side = some bytes →
    journal.find side (toString (index + i)) = some bytes

theorem stageChanges_ensures (h : Quiet files root) (hstaging : Staging journal root) :
    Ensures exec permitted (Quiet files) (stageChanges index named) root
      (fun result next => result = manifestChanges index named ∧ ∃ other, Staging other next ∧
        Stored index named other ∧
        ∀ side found, found < index → other.find side (toString found) =
          journal.find side (toString found))
      fun _ _ => Faulty permitted := by
  induction named generalizing index root journal with
  | nil => exact ⟨h, rfl, journal, hstaging, nofun, fun _ _ _ => rfl⟩
  | cons entry rest ih =>
    obtain ⟨name, change⟩ := entry
    refine (stageChange_ensures h hstaging).then ?_
    rintro _ first hfirst ⟨rfl, middle, hmiddle, hstored, hsame⟩
    refine (ih hfirst hmiddle).then ?_
    rintro _ last hlast ⟨rfl, other, hother, hrest, hkept⟩
    refine ⟨hlast, rfl, other, hother, ?_, fun side found hlt => ?_⟩
    · intro i found hfound side bytes hbytes
      cases i with
      | zero =>
        cases hfound
        exact (hkept side index (Nat.lt_succ_self index)).trans (hstored side bytes hbytes)
      | succ i =>
        have hnumber : index + (i + 1) = index + 1 + i := by omega
        rw [hnumber]
        exact hrest i found hfound side bytes hbytes
    · rw [hkept side found (Nat.lt_succ_of_lt hlt), hsame side _ fun heq => ?_]
      exact absurd (toString_inj heq) (Nat.ne_of_lt hlt)

end Stage

section Named
/-- The files before and after a set of changes. -/
structure Changes (prior desired : FileName → Option Bytes)
    (named : List (String × FileChange)) : Prop where
  proper : ∀ entry ∈ named, Proper (utf8 entry.1)
  before : ∀ entry ∈ named, prior (utf8 entry.1) = entry.2.before
  after : ∀ entry ∈ named, desired (utf8 entry.1) = entry.2.after
  covers : ∀ name, Visible name → prior name ≠ desired name → ∃ entry ∈ named, utf8 entry.1 = name

variable {index : Nat} {change : ManifestChange}

theorem mem_manifestChanges :
    change ∈ manifestChanges index named ↔
      ∃ i entry, named[i]? = some entry ∧ change = manifestChange (index + i) entry.1 entry.2 := by
  induction named generalizing index with
  | nil => simp [manifestChanges]
  | cons entry rest ih =>
    simp only [manifestChanges, List.mem_cons, ih]
    constructor
    · rintro (rfl | ⟨i, found, hfound, rfl⟩)
      · exact ⟨0, entry, rfl, rfl⟩
      · exact ⟨i + 1, found, hfound, by rw [Nat.add_assoc, Nat.add_comm 1 i]⟩
    · rintro ⟨_ | i, found, hfound, rfl⟩
      · cases hfound
        exact .inl rfl
      · exact .inr ⟨i, found, hfound, by rw [Nat.add_assoc, Nat.add_comm 1 i]⟩

theorem Changes.mem (h : Changes prior desired named) (hmem : change ∈ manifestChanges index named) :
    Proper (utf8 change.target) := by
  obtain ⟨i, entry, hentry, rfl⟩ := mem_manifestChanges.mp hmem
  exact h.proper entry (List.mem_of_getElem? hentry)

theorem filed_of_stored {side : Side} {goal : FileName → Option Bytes}
    (hstored : Stored index named journal)
    (hgoal : ∀ entry ∈ named, goal (utf8 entry.1) = entry.2.content side) :
    ∀ change ∈ manifestChanges index named, Filed journal side goal change := by
  intro change hmem
  obtain ⟨i, entry, hentry, rfl⟩ := mem_manifestChanges.mp hmem
  have hcontent := hgoal entry (List.mem_of_getElem? hentry)
  have hstaged : (manifestChange (index + i) entry.1 entry.2).staged side =
      (entry.2.content side).map fun _ => toString (index + i) := by
    cases side <;> rfl
  unfold Filed
  rw [hstaged]
  cases hside : entry.2.content side with
  | none => exact hcontent.trans hside
  | some bytes => exact ⟨bytes, hstored i entry hentry side bytes hside, hcontent.trans hside⟩

theorem Changes.covered (h : Changes prior desired named) (index : Nat) (name : FileName)
    (hname : Visible name) (hne : prior name ≠ desired name) :
    ∃ change ∈ manifestChanges index named, utf8 change.target = name := by
  obtain ⟨entry, hentry, rfl⟩ := h.covers name hname hne
  obtain ⟨i, hi⟩ := List.mem_iff_getElem?.mp hentry
  exact ⟨_, mem_manifestChanges.mpr ⟨i, entry, hi, rfl⟩, rfl⟩

end Named

section Publish
variable [ManifestSerde] {root : Root}

/-- The journal holds all the contents and the manifest of a phase. -/
structure Journaled (phase : Phase) (named : List (String × FileChange))
    (journal : JournalDirectory) :
    Prop where
  manifest : ∃ bytes, journal.manifest = some bytes ∧
    ManifestSerde.toVec ⟨phase, manifestChanges 0 named⟩ = .ok bytes
  stored : Stored 0 named journal

theorem Journaled.prepared (h : Journaled .prepared named journal)
    (hchanges : Changes prior desired named)
    (hroot : Replaying journal desired prior root) :
    Pending .prepared (manifestChanges 0 named) desired prior journal root :=
  ⟨hroot, h.manifest, filed_of_stored h.stored hchanges.before, fun _ hmem => hchanges.mem hmem,
    fun name hname hne => hchanges.covered 0 name hname hne.symm⟩

theorem Journaled.committed (h : Journaled .committed named journal)
    (hchanges : Changes prior desired named)
    (hjournal : root.journal = some journal) (hroot : Shows desired root) :
    Pending .committed (manifestChanges 0 named) desired desired journal root :=
  ⟨⟨hjournal, fun name hname => .inl (hroot name hname)⟩, h.manifest,
    filed_of_stored h.stored hchanges.after, fun _ hmem => hchanges.mem hmem,
    fun _ _ hne => absurd rfl hne⟩

variable {bytes : Bytes}

variable [DirectoryOrder]

omit [ManifestSerde] in
theorem draftManifest_ensures {inv : Root → Prop} (hjournal : root.journal = some journal)
    (hinv : inv root)
    (hset : ∀ content, inv (root.set .temporary content)) :
    Ensures exec permitted inv (writeSynced .temporary bytes) root
      (fun _ next => next.files = root.files ∧
        next.journal = some { journal with temporary := some bytes })
      fun _ _ => Faulty permitted := by
  have hparent : root.hasParent .temporary = true := by
    simp only [Root.hasParent, hjournal, isSome_some]
  refine (writeSynced_ensures rfl hparent hinv fun content => hset _).imp ?_
  rintro _ _ - rfl
  exact ⟨rfl, by simp only [Root.set, hjournal, map_some]⟩

omit [ManifestSerde] in
theorem exec_publish (hjournal : root.journal = some { journal with temporary := some bytes }) :
    exec (.rename .temporary .manifest) root =
      (.ok (),
        { root with journal := some { journal with manifest := some bytes, temporary := none } }) := by
  have hget : root.get .temporary = some bytes := by
    simp only [Root.get, hjournal, bind_some]
  rw [exec_rename hget rfl]
  simp only [Root.set, hjournal, map_some]

/-- Nothing is in the way of a new journal. -/
structure Clear (files : FileName → Option Bytes) (root : Root) : Prop where
  shows : Shows files root
  absent : root.journal = none

omit [DirectoryOrder] [ManifestSerde] in
theorem Clear.quiet (h : Clear prior root) : Quiet prior root :=
  ⟨h.shows, fun _ hjournal => nomatch h.absent.symm.trans hjournal⟩

omit [ManifestSerde] in
theorem stageFiles_ensures (h : Clear prior root) :
    Ensures exec permitted (Quiet prior) (stageFiles named) root
      (fun result next => result = manifestChanges 0 named ∧
        ∃ journal, Staging journal next ∧ Stored 0 named journal) fun _ _ => Faulty permitted := by
  have hquiet : ∀ journal : JournalDirectory, journal.manifest = none →
      Quiet prior { root with journal := some journal } := by
    intro journal hmanifest
    refine ⟨h.shows, fun other hother => ?_⟩
    cases hother
    exact hmanifest
  have hfirst : exec (.createDir .journal) root =
      (.ok (), { root with journal := some .empty }) := by
    simp [exec, Root.list, h.absent, Root.setDirectory]
  refine .bind (perform_ensures hfirst h.quiet (hquiet _ rfl) ?_)
  refine .bind (perform_ensures rfl (hquiet _ rfl) (hquiet _ rfl) ?_)
  refine .bind (perform_ensures rfl (hquiet _ rfl) (hquiet _ rfl) ?_)
  refine (stageChanges_ensures (hquiet _ rfl) ⟨rfl, fun side => ?_⟩).imp ?_
  · cases side <;> rfl
  · rintro _ next - ⟨rfl, journal, hstaging, hstored, -⟩
    exact ⟨rfl, journal, hstaging, hstored⟩

/-- All is staged and the prepared manifest published. -/
def Prepared (named : List (String × FileChange)) (root : Root) : Prop :=
  ∃ journal, root.journal = some journal ∧ Journaled .prepared named journal

omit [DirectoryOrder] in
theorem Prepared.bound (h : Prepared named root) (hchanges : Changes prior desired named)
    (hbetween : ∀ name, Visible name → root.files name = desired name ∨
      root.files name = prior name) :
    Bound .prepared desired prior root := by
  obtain ⟨journal, hjournal, hjournaled⟩ := h
  exact .inr ⟨_, journal, hjournaled.prepared hchanges ⟨hjournal, hbetween⟩⟩

omit [DirectoryOrder] in
theorem encodeManifest_eq (hserde : RoundTrips) (manifest : Manifest) :
    ∃ bytes, ManifestSerde.toVec manifest = .ok bytes ∧ encodeManifest manifest = .ok bytes := by
  obtain ⟨bytes, hbytes, -⟩ := hserde manifest
  exact ⟨bytes, hbytes, by rw [encodeManifest, hbytes]⟩

theorem prepareJournal_ensures (hserde : RoundTrips) (h : Clear prior root)
    (hchanges : Changes prior desired named) :
    Ensures exec permitted (Bound .prepared desired prior) (prepareJournal named) root
      (fun result next => result = manifestChanges 0 named ∧ Shows prior next ∧ Prepared named next)
      fun _ _ => Faulty permitted := by
  have hstaged : Ensures exec permitted (Quiet prior) (stageFiles named) root
      (fun result next => result = manifestChanges 0 named ∧ Quiet prior next ∧
        ∃ journal, Staging journal next ∧ Stored 0 named journal) fun _ _ => Faulty permitted :=
    (stageFiles_ensures h).imp fun _ _ hquiet hends => ⟨hends.1, hquiet, hends.2⟩
  refine (hstaged.weaken fun _ => .inl).then ?_
  rintro _ staged hbound ⟨rfl, hquiet, journal, ⟨hjournal, -⟩, hstored⟩
  obtain ⟨bytes, htoVec, hencoded⟩ := encodeManifest_eq hserde ⟨.prepared, manifestChanges 0 named⟩
  have hset : ∀ content, Bound .prepared desired prior (staged.set .temporary content) := by
    refine fun content => .inl ⟨hquiet.shows, fun other hother => ?_⟩
    simp only [Root.set, hjournal, map_some] at hother
    cases hother
    exact hquiet.noManifest journal hjournal
  refine .bind ?_
  unfold writeManifest
  rw [hencoded]
  refine .bind ⟨hbound, (draftManifest_ensures hjournal hbound hset).then ?_⟩
  rintro _ drafted hdrafted ⟨hfiles, hdraft⟩
  have hshows : Shows prior drafted :=
    fun name hname => (congrFun hfiles name).trans (hquiet.shows name hname)
  have hprepared : Prepared named
      { drafted with journal := some { journal with manifest := some bytes, temporary := none } } :=
    ⟨_, rfl, ⟨bytes, rfl, htoVec⟩, hstored⟩
  have hnext := hprepared.bound hchanges fun name hname => .inr (hshows name hname)
  refine .bind (perform_ensures (exec_publish hdraft) hdrafted hnext ?_)
  exact perform_ensures rfl hnext hnext ⟨hnext, rfl, hshows, hprepared⟩

theorem applyAfter_ensures {pid : Nat} (hgenuine : Genuine permitted)
    (hchanges : Changes prior desired named)
    (hprepared : Prepared named root) (hshows : Shows prior root) :
    Ensures exec permitted (Bound .prepared desired prior)
      (forEach (manifestChanges 0 named) fun change => applyChange pid change .after) root
      (fun _ next => Shows desired next ∧ Prepared named next) fun _ _ => Faulty permitted := by
  obtain ⟨journal, hjournal, hjournaled⟩ := hprepared
  have hreplaying : Replaying journal prior desired root :=
    ⟨hjournal, fun name hname => .inl (hshows name hname)⟩
  have hfiled : ∀ change ∈ manifestChanges 0 named, Filed journal .after desired change :=
    filed_of_stored hjournaled.stored hchanges.after
  refine ((applyChanges_ensures hgenuine hfiled (fun _ hmem => hchanges.mem hmem) hreplaying
    (hreplaying.left fun name hname hne => hchanges.covered 0 name hname hne)).imp
    fun _ next hnext hends => ⟨hends, journal, hnext.kept, hjournaled⟩).weaken fun state hstate => ?_
  refine Prepared.bound ⟨journal, hstate.kept, hjournaled⟩ hchanges fun name hname => ?_
  exact (hstate.between name hname).symm

/-- The committed manifest lies beside the prepared one. -/
def Drafted (named : List (String × FileChange)) (root : Root) : Prop :=
  ∃ journal bytes, root.journal = some { journal with temporary := some bytes } ∧
    Journaled .prepared named journal ∧
    ManifestSerde.toVec ⟨.committed, manifestChanges 0 named⟩ = .ok bytes

theorem draftCommitted_ensures (hchanges : Changes prior desired named)
    (hprepared : Prepared named root)
    (hshows : Shows desired root)
    (hbytes : ManifestSerde.toVec ⟨.committed, manifestChanges 0 named⟩ = .ok bytes) :
    Ensures exec permitted (Bound .prepared desired prior) (writeSynced .temporary bytes) root
      (fun _ next => Shows desired next ∧ Drafted named next) fun _ _ => Faulty permitted := by
  have hbound := hprepared.bound hchanges fun name hname => .inl (hshows name hname)
  obtain ⟨journal, hjournal, hjournaled⟩ := hprepared
  refine (draftManifest_ensures hjournal hbound fun content => ?_).imp ?_
  · refine Prepared.bound ⟨{ journal with temporary := content }, ?_, hjournaled.manifest,
      hjournaled.stored⟩
      hchanges fun name hname => .inl (hshows name hname)
    simp only [Root.set, hjournal, map_some]
  · rintro _ next - ⟨hfiles, hnext⟩
    exact ⟨fun name hname => (congrFun hfiles name).trans (hshows name hname), journal, bytes, hnext,
      hjournaled, hbytes⟩

theorem Drafted.publish (h : Drafted named root) (hchanges : Changes prior desired named)
    (hshows : Shows desired root) :
    ∃ next journal, exec (.rename .temporary .manifest) root = (.ok (), next) ∧
      Journaled .committed named journal ∧
      Pending .committed (manifestChanges 0 named) desired desired journal next := by
  obtain ⟨journal, bytes, hjournal, hjournaled, hbytes⟩ := h
  have hcommitted : Journaled .committed named
      { journal with manifest := some bytes, temporary := none } :=
    ⟨⟨bytes, rfl, hbytes⟩, hjournaled.stored⟩
  exact ⟨_, _, exec_publish hjournal, hcommitted, hcommitted.committed hchanges rfl hshows⟩

theorem closeJournal_ensures {changes : List ManifestChange} (hgenuine : Genuine permitted)
    (h : Pending .committed changes desired desired journal root) :
    Ensures exec permitted (Bound .committed desired desired) closeJournal root (fun _ _ => True)
      fun _ _ => ∃ state error effect, Bound .committed desired desired state ∧
        permitted ⟨.syncDirectory none, state, .failed error effect⟩ := by
  have hsync : ∀ state, Bound .committed desired desired state → Ensures exec permitted
      (Bound .committed desired desired) (perform (.syncDirectory none)) state (fun _ _ => True)
      fun _ _ => ∃ state error effect, Bound .committed desired desired state ∧
        permitted ⟨.syncDirectory none, state, .failed error effect⟩ := by
    intro state hstate
    refine .bind (.ask hstate ⟨hstate, hstate, trivial⟩ fun error effect hpermitted => ?_)
    cases effect <;> exact ⟨hstate, hstate, state, error, _, hstate, hpermitted⟩
  have hshows : Shows desired root := fun name hname => (h.between name hname).elim id id
  refine .bind (.attempt ((removeManifest_ensures hgenuine h hshows).mono ?_ ?_))
  · rintro _ next hnext ⟨hquiet, left, hleft⟩
    refine .bind (.attempt (.mono (((removeJournal_ensures hquiet hleft).weaken
      fun _ => .inl)) ?_ ?_))
    · exact fun _ last hlast _ => hsync last hlast
    · exact fun _ last hlast _ => hsync last hlast
  · exact fun _ last hlast _ => hsync last hlast

end Publish

end TxBase.Catalog
