import TxBase.Catalog.JournalRules

/-! A recovery of the journal, from any state in which a commit or another recovery was left. -/
namespace TxBase.Catalog
open Lib List
open Procedure (Event Ensures forEach)
open Function (update_of_ne update_self)
open JournalDirectory (setStaged entries)
open Option (map_some bind_some)
variable {permitted : Event FsOp Root IoError → Prop} {root next : Root} {journal : JournalDirectory}
  {base goal : FileName → Option Bytes} {changes : List ManifestChange} {pid : Nat}

section Replay
variable {side : Side} {change : ManifestChange}

def Filed (journal : JournalDirectory) (side : Side) (goal : FileName → Option Bytes)
    (change : ManifestChange) : Prop :=
  match change.staged side with
  | some name => ∃ bytes, (journal.staged side).bind (OrderedMap.get? name) = some bytes ∧
      goal (utf8 change.target) = some bytes
  | none => goal (utf8 change.target) = none

def Proper (name : FileName) : Prop := isDirectory name = false ∧ Visible name

/-- The journal stays, and each file is on one of the two sides. -/
structure Replaying (journal : JournalDirectory) (base goal : FileName → Option Bytes)
    (root : Root) :
    Prop where
  kept : root.journal = some journal
  between : ∀ name, Visible name → root.files name = base name ∨ root.files name = goal name

/-- What does not hold its content yet is the target of one of the changes. -/
def Left (goal : FileName → Option Bytes) (rest : List ManifestChange) (root : Root) : Prop :=
  ∀ name, Visible name → root.files name = goal name ∨ ∃ change ∈ rest, utf8 change.target = name

theorem Replaying.draft (h : Replaying journal base goal root) (pid : Nat) (name : FileName)
    (content : Option Bytes) :
    Replaying journal base goal (root.set (.target (temporaryName pid name)) content) := by
  refine ⟨h.kept, fun other hother => ?_⟩
  have hfile : (root.set (.target (temporaryName pid name)) content).files other =
      root.files other :=
    update_of_ne (hother pid name) _ _
  rw [hfile]
  exact h.between other hother

theorem Replaying.write (h : Replaying journal base goal root) (name : FileName) :
    Replaying journal base goal (root.set (.target name) (goal name)) := by
  refine ⟨h.kept, fun other hother => ?_⟩
  by_cases heq : other = name
  · subst heq
    exact .inr (update_self _ _ _)
  · have hfile : (root.set (.target name) (goal name)).files other = root.files other :=
      update_of_ne heq _ _
    rw [hfile]
    exact h.between other hother

variable {rest : List ManifestChange}

theorem Left.tail (h : Left goal (change :: rest) root)
    (htarget : next.files (utf8 change.target) = goal (utf8 change.target))
    (hothers : ∀ name, Visible name → name ≠ utf8 change.target →
      next.files name = root.files name) :
    Left goal rest next := by
  intro name hname
  by_cases heq : name = utf8 change.target
  · subst heq
    exact .inl htarget
  · rw [hothers name hname heq]
    refine (h name hname).imp_right ?_
    rintro ⟨other, hmem, hother⟩
    rcases mem_cons.mp hmem with rfl | hmem
    · exact absurd hother.symm heq
    · exact ⟨other, hmem, hother⟩

variable [DirectoryOrder]

theorem applyChange_ensures (hgenuine : Genuine permitted) (hfiled : Filed journal side goal change)
    (hproper : Proper (utf8 change.target)) (h : Replaying journal base goal root)
    (hleft : Left goal (change :: rest) root) :
    Ensures exec permitted (Replaying journal base goal) (applyChange pid change side) root
      (fun _ => Left goal rest) fun _ _ => Faulty permitted := by
  unfold applyChange
  unfold Filed at hfiled
  cases hstaged : change.staged side with
  | some name =>
    rw [hstaged] at hfiled
    obtain ⟨bytes, hbytes, hgoal⟩ := hfiled
    have hread : root.get (.staged side name) = some bytes := by
      show ((root.journal.bind fun journal => journal.staged side).bind _) = _
      rw [h.kept]
      exact hbytes
    refine .bind (perform_ensures (exec_readFile rfl hread) h h ?_)
    refine (writeTarget_ensures hproper.1 (fun _ content hstate => hstate.draft _ _ content)
      (fun state hstate => ?_) h).imp ?_
    · rw [← hgoal]
      exact hstate.write _
    · rintro _ _ - rfl
      refine hleft.tail ?_ fun other hother hne => ?_
      · exact (update_self _ _ _).trans hgoal.symm
      · exact (update_of_ne hne _ _).trans (update_of_ne (hother _ _) _ _)
  | none =>
    rw [hstaged] at hfiled
    have hdirectory : FilePath.isDirectory (.target (utf8 change.target)) = false := hproper.1
    refine (removeIfExists_ensures hgenuine hdirectory h ?_).imp ?_
    · rw [← hfiled]
      exact h.write _
    · rintro _ _ - (rfl | ⟨rfl, hnone⟩)
      · refine hleft.tail ((update_self _ _ _).trans hfiled.symm) fun other _ hne => ?_
        exact update_of_ne hne _ _
      · exact hleft.tail (hnone.trans hfiled.symm) fun _ _ _ => rfl

theorem applyChanges_ensures (hgenuine : Genuine permitted)
    (hfiled : ∀ change ∈ changes, Filed journal side goal change)
    (hproper : ∀ change ∈ changes, Proper (utf8 change.target))
    (h : Replaying journal base goal root)
    (hleft : Left goal changes root) :
    Ensures exec permitted (Replaying journal base goal)
      (forEach changes fun change => applyChange pid change side) root
      (fun _ => Shows goal) fun _ _ => Faulty permitted := by
  -- What is left to do is a part of the changes.
  refine (Ensures.forEach (fun rest state => Left goal rest state ∧
    ∀ item ∈ rest, item ∈ changes) ?_ h
    ⟨hleft, fun _ hmem => hmem⟩).imp ?_
  · rintro item rest state hstate ⟨hleft, hsubset⟩
    have hmem := hsubset item mem_cons_self
    refine (applyChange_ensures hgenuine (hfiled item hmem) (hproper item hmem) hstate hleft).imp ?_
    exact fun _ _ _ hrest => ⟨hrest, (forall_mem_cons.mp hsubset).2⟩
  · rintro _ last - ⟨hnone, -⟩ name hname
    refine (hnone name hname).resolve_right ?_
    rintro ⟨_, hmem, -⟩
    cases hmem

end Replay

section Removal
variable {files : FileName → Option Bytes}

def NoManifest (root : Root) : Prop :=
  ∀ journal, root.journal = some journal → journal.manifest = none

/-- Nothing is pending, and the files are these. -/
structure Quiet (files : FileName → Option Bytes) (root : Root) : Prop where
  shows : Shows files root
  noManifest : NoManifest root

theorem setStaged_setStaged (journal : JournalDirectory) (side : Side)
    (first second : Option (OrderedMap String Bytes)) :
    (journal.setStaged side first).setStaged side second = journal.setStaged side second := by
  unfold setStaged
  congr 1
  funext other
  dsimp only
  split <;> rfl

theorem setStaged_staged (journal : JournalDirectory) (side : Side)
    (staged : Option (OrderedMap String Bytes)) :
    (journal.setStaged side staged).staged side = staged :=
  if_pos rfl

/-- The files of a directory that are still to be removed. -/
def StagedLeft (journal : JournalDirectory) (side : Side) (rest : List Entry) (root : Root) : Prop :=
  ∃ staged, root.journal = some (journal.setStaged side (some staged)) ∧ rest.Nodup ∧
    ∀ entry, entry ∈ rest ↔ ∃ name ∈ staged.keys, entry = .file (.staged side name)

variable {rest : List Entry} {entry : Entry} {side : Side}

variable [DirectoryOrder]

theorem removeStagedFile_ensures (h : Quiet files root)
    (hleft : StagedLeft journal side (entry :: rest) root) :
    Ensures exec permitted (Quiet files) (match entry with
        | .file path => perform (.removeFile path)
        | .directory dir => perform (.removeDir dir)) root
      (fun _ => StagedLeft journal side rest) fun _ _ => Faulty permitted := by
  obtain ⟨staged, hjournal, hnodup, hrest⟩ := hleft
  obtain ⟨name, hname, rfl⟩ := (hrest entry).mp mem_cons_self
  have hmanifest : journal.manifest = none :=
    h.noManifest (journal.setStaged side (some staged)) hjournal
  have hget : (root.get (.staged side name)).isSome := by
    show Option.isSome ((root.journal.bind fun journal => journal.staged side).bind _)
    rw [hjournal, bind_some, setStaged_staged, Option.isSome_iff_ne_none]
    exact fun hnone => (OrderedMap.get?_eq_none_iff _ _).mp hnone hname
  obtain ⟨bytes, hbytes⟩ := Option.isSome_iff_exists.mp hget
  have hexec : exec (.removeFile (.staged side name)) root =
      (.ok (), root.set (.staged side name) none) := by
    simp only [exec, FilePath.isDirectory, hbytes, Bool.false_eq_true, if_false]
  have hnext : (root.set (.staged side name) none).journal =
      some (journal.setStaged side (some (OrderedMap.erase name staged))) := by
    simp only [Root.set, hjournal, map_some, setStaged_staged, setStaged_setStaged]
  refine perform_ensures hexec h ⟨h.shows, fun other hother => ?_⟩
    ⟨OrderedMap.erase name staged, hnext, (nodup_cons.mp hnodup).2, fun other => ?_⟩
  · rw [hnext] at hother
    cases hother
    exact hmanifest
  · simp only [OrderedMap.mem_keys_erase]
    constructor
    · intro hother
      obtain ⟨found, hfound, rfl⟩ := (hrest other).mp (mem_cons_of_mem _ hother)
      refine ⟨found, ⟨?_, hfound⟩, rfl⟩
      rintro rfl
      exact (nodup_cons.mp hnodup).1 hother
    · rintro ⟨found, ⟨hne, hfound⟩, rfl⟩
      rcases mem_cons.mp ((hrest _).mpr ⟨found, hfound, rfl⟩) with heq | hmem
      · cases heq
        exact absurd rfl hne
      · exact hmem

theorem removeStaged_ensures {staged : OrderedMap String Bytes} (h : Quiet files root)
    (hjournal : root.journal = some journal) (hstaged : journal.staged side = some staged) :
    Ensures exec permitted (Quiet files) (removeEntry (.directory (.staged side))) root
      (fun _ next => next.journal = some (journal.setStaged side none))
        fun _ _ => Faulty permitted := by
  have hlist : root.list (.staged side) =
      some (staged.keys.dedup.map fun name => .file (.staged side name)) := by
    simp only [Root.list, Root.stagedFiles, hjournal, bind_some, hstaged, map_some]
  have hsame : journal.setStaged side (some staged) = journal := by
    rw [← hstaged]
    unfold setStaged
    congr 1
    funext other
    split
    · rename_i heq
      rw [heq]
    · rfl
  have hexec : exec (.readDir (.staged side)) root = (.ok (DirectoryOrder.order
      (staged.keys.dedup.map fun name => .file (.staged side name))), root) := by
    simp only [exec, hlist]
  refine Ensures.bind (perform_ensures hexec h h ?_)
  have hleft : StagedLeft journal side (DirectoryOrder.order
      (staged.keys.dedup.map fun name => Entry.file (.staged side name))) root := by
    refine ⟨staged, by rw [hsame, hjournal], ?_, fun entry => ?_⟩
    · refine (DirectoryOrder.perm _).nodup_iff.mpr ((nodup_dedup _).map ?_)
      intro left right heq
      cases heq
      rfl
    · rw [(DirectoryOrder.perm _).mem_iff, mem_map]
      simp only [mem_dedup, eq_comm]
  refine (Ensures.forEach (StagedLeft journal side)
    (fun _ _ _ hstate hrest => removeStagedFile_ensures hstate hrest) h hleft).then ?_
  rintro _ last hlast ⟨rest, hrest, -, hnone⟩
  have hempty : rest = [] := by
    rw [← map_eq_nil_iff (f := Prod.fst), eq_nil_iff_forall_not_mem]
    exact fun name hname => not_mem_nil ((hnone _).mpr ⟨name, hname, rfl⟩)
  subst hempty
  have hremove : exec (.removeDir (.staged side)) last =
      (.ok (), last.setDirectory (.staged side) false) := by
    simp only [exec, Root.list, Root.stagedFiles, hrest, bind_some, setStaged_staged]
    rfl
  have hnext : (last.setDirectory (.staged side) false).journal =
      some (journal.setStaged side none) := by
    simp only [Root.setDirectory, hrest, map_some, setStaged_setStaged]
    rfl
  refine perform_ensures hremove hlast ⟨hlast.shows, fun other hother => ?_⟩ hnext
  rw [hnext] at hother
  cases hother
  exact hlast.noManifest (journal.setStaged side (some [])) hrest

omit [DirectoryOrder] in
theorem mem_entries :
    entry ∈ journal.entries ↔ (∃ side, entry = .directory (.staged side) ∧
      (journal.staged side).isSome) ∨
      (entry = .file .manifest ∧ journal.manifest.isSome) ∨
      entry = .file .temporary ∧ journal.temporary.isSome := by
  have hside : (∃ side, entry = .directory (.staged side) ∧ (journal.staged side).isSome) ↔
      (entry = .directory (.staged .before) ∧ (journal.staged .before).isSome) ∨
        entry = .directory (.staged .after) ∧ (journal.staged .after).isSome := by
    constructor
    · rintro ⟨_ | _, h⟩
      · exact .inl h
      · exact .inr h
    · rintro (h | h) <;> exact ⟨_, h⟩
  simp only [entries, mem_append, hside]
  cases (journal.staged .before).isSome <;> cases (journal.staged .after).isSome <;>
    cases journal.manifest.isSome <;> cases journal.temporary.isSome <;> simp [or_assoc]

omit [DirectoryOrder] in
theorem entries_nodup (journal : JournalDirectory) : journal.entries.Nodup := by
  simp only [entries]
  cases (journal.staged .before).isSome <;> cases (journal.staged .after).isSome <;>
    cases journal.manifest.isSome <;> cases journal.temporary.isSome <;> decide

def EntriesLeft (rest : List Entry) (root : Root) : Prop :=
  ∃ journal, root.journal = some journal ∧ rest.Nodup ∧ ∀ entry, entry ∈ rest ↔
    entry ∈ journal.entries

omit [DirectoryOrder] in
theorem EntriesLeft.tail (hnodup : (entry :: rest).Nodup)
    (h : ∀ other, other ∈ entry :: rest ↔ other ∈ journal.entries) {left : JournalDirectory}
    (hnext : next.journal = some left)
    (hleft : ∀ other, other ∈ left.entries ↔ other ≠ entry ∧ other ∈ journal.entries) :
    EntriesLeft rest next := by
  refine ⟨left, hnext, (nodup_cons.mp hnodup).2, fun other => ?_⟩
  rw [hleft, ← h]
  constructor
  · intro hmem
    refine ⟨?_, mem_cons_of_mem _ hmem⟩
    rintro rfl
    exact (nodup_cons.mp hnodup).1 hmem
  · rintro ⟨hne, hmem⟩
    exact (mem_cons.mp hmem).resolve_left hne

theorem removeEntry_ensures (h : Quiet files root) (hleft : EntriesLeft (entry :: rest) root) :
    Ensures exec permitted (Quiet files) (removeEntry entry) root
      (fun _ => EntriesLeft rest) fun _ _ => Faulty permitted := by
  obtain ⟨journal, hjournal, hnodup, hrest⟩ := hleft
  have hmanifest := h.noManifest journal hjournal
  rcases mem_entries.mp ((hrest entry).mp mem_cons_self) with ⟨side, rfl, hside⟩ |
    ⟨-, hside⟩ | ⟨rfl, hside⟩
  · obtain ⟨staged, hstaged⟩ := Option.isSome_iff_exists.mp hside
    refine (removeStaged_ensures h hjournal hstaged).imp ?_
    intro _ next _ hnext
    refine EntriesLeft.tail hnodup hrest hnext fun other => ?_
    simp only [mem_entries, setStaged, hmanifest]
    cases other with
    | file path => simp
    | directory dir =>
      cases dir with
      | journal => simp
      | staged found => by_cases heq : found = side <;> simp [heq]
  · rw [hmanifest] at hside
    cases hside
  · obtain ⟨bytes, hbytes⟩ := Option.isSome_iff_exists.mp hside
    have hget : root.get .temporary = some bytes := by
      simp only [Root.get, hjournal, bind_some, hbytes]
    have hexec : exec (.removeFile .temporary) root = (.ok (), root.set .temporary none) := by
      simp only [exec, FilePath.isDirectory, hget, Bool.false_eq_true, if_false]
    have hnext : (root.set .temporary none).journal = some { journal with temporary := none } := by
      simp only [Root.set, hjournal, map_some]
    refine perform_ensures hexec h ⟨h.shows, fun other hother => ?_⟩
      (EntriesLeft.tail hnodup hrest hnext fun other => ?_)
    · rw [hnext] at hother
      cases hother
      exact hmanifest
    · simp only [mem_entries, hmanifest]
      cases other with
      | directory dir => simp
      | file path => by_cases heq : path = .temporary <;> simp [heq]

theorem removeJournal_ensures (h : Quiet files root) (hjournal : root.journal = some journal) :
    Ensures exec permitted (Quiet files) removeJournal root (fun _ next => next.journal = none)
      fun _ _ => Faulty permitted := by
  have hexec : exec (.readDir .journal) root =
      (.ok (DirectoryOrder.order journal.entries), root) := by
    simp only [exec, Root.list, hjournal, map_some]
  refine Ensures.bind (perform_ensures hexec h h ?_)
  have hleft : EntriesLeft (DirectoryOrder.order journal.entries) root :=
    ⟨journal, hjournal, (DirectoryOrder.perm _).nodup_iff.mpr (entries_nodup journal),
      fun _ => (DirectoryOrder.perm _).mem_iff⟩
  refine (Ensures.forEach EntriesLeft (fun _ _ _ hstate hrest =>
    removeEntry_ensures hstate hrest) h hleft).then ?_
  rintro _ last hlast ⟨left, hlastJournal, -, hnone⟩
  have hempty : left.entries = [] := by
    rw [eq_nil_iff_forall_not_mem]
    exact fun entry hmem => not_mem_nil ((hnone entry).mpr hmem)
  have hremove : exec (.removeDir .journal) last = (.ok (), last.setDirectory .journal false) := by
    simp only [exec, Root.list, hlastJournal, map_some, hempty]
  exact perform_ensures hremove hlast ⟨hlast.shows, fun _ h => by cases h⟩ rfl

end Removal

section Recover
variable [ManifestSerde] {phase : Phase}

def Phase.side : Phase → Side
  | .prepared => .before
  | .committed => .after

/-- `serde_json` reads the manifests it writes. -/
def RoundTrips : Prop :=
  ∀ manifest, ∃ bytes, ManifestSerde.toVec manifest = .ok bytes ∧
    ManifestSerde.fromSlice bytes = .ok manifest

/-- A manifest is to be replayed, and leads to the goal. -/
structure Pending (phase : Phase) (changes : List ManifestChange)
    (base goal : FileName → Option Bytes)
    (journal : JournalDirectory) (root : Root) : Prop extends Replaying journal base goal root where
  manifest : ∃ bytes, journal.manifest = some bytes ∧
    ManifestSerde.toVec ⟨phase, changes⟩ = .ok bytes
  filed : ∀ change ∈ changes, Filed journal phase.side goal change
  proper : ∀ change ∈ changes, Proper (utf8 change.target)
  covers : ∀ name, Visible name → base name ≠ goal name →
    ∃ change ∈ changes, utf8 change.target = name

/-- A recovery leads to the goal, through a manifest of the phase if there is one. -/
def Bound (phase : Phase) (base goal : FileName → Option Bytes) (root : Root) : Prop :=
  Quiet goal root ∨ ∃ changes journal, Pending phase changes base goal journal root

theorem Bound.shows (h : Bound phase goal goal root) : Shows goal root := by
  rcases h with h | ⟨_, _, h⟩
  · exact h.shows
  · exact fun name hname => (h.between name hname).elim id id

def Looks (permitted : Event FsOp Root IoError → Prop) : Prop :=
  ∀ entry state happening, ¬ permitted ⟨.present entry, state, happening⟩

omit [ManifestSerde] in
theorem Replaying.left (h : Replaying journal base goal root)
    (hcovers : ∀ name, Visible name → base name ≠ goal name →
      ∃ change ∈ changes, utf8 change.target = name) :
    Left goal changes root := by
  intro name hname
  by_cases hgoal : root.files name = goal name
  · exact .inl hgoal
  · refine .inr (hcovers name hname ?_)
    rw [← (h.between name hname).resolve_right hgoal]
    exact hgoal

variable [DirectoryOrder]

theorem replayManifest_ensures (hgenuine : Genuine permitted)
    (h : Pending phase changes base goal journal root) :
    Ensures exec permitted (Replaying journal base goal) (replayManifest pid ⟨phase, changes⟩) root
      (fun _ next => Replaying journal base goal next ∧ Shows goal next)
        fun _ _ => Faulty permitted := by
  have hleft := h.left h.covers
  refine .imp ?_ fun _ _ hnext hshows => ⟨hnext, hshows⟩
  cases phase with
  | prepared =>
    refine applyChanges_ensures hgenuine (fun change hmem => h.filed change (mem_reverse.mp hmem))
      (fun change hmem => h.proper change (mem_reverse.mp hmem)) h.toReplaying fun name hname => ?_
    simpa using hleft name hname
  | committed => exact applyChanges_ensures hgenuine h.filed h.proper h.toReplaying hleft

omit [DirectoryOrder] in
theorem Pending.of_replaying (h : Pending phase changes base goal journal root)
    (hnext : Replaying journal base goal next) :
    Pending phase changes base goal journal next := ⟨hnext, h.manifest, h.filed, h.proper, h.covers⟩

theorem discard_ensures (h : Quiet goal root) (hjournal : root.journal = some journal) :
    Ensures exec permitted (Bound phase base goal)
      (do removeJournal; perform (.syncDirectory none)) root
      (fun _ next => Shows goal next ∧ next.journal = none) fun _ _ => Faulty permitted := by
  have hremoved : Ensures exec permitted (Quiet goal) removeJournal root
      (fun _ next => Quiet goal next ∧ next.journal = none) fun _ _ => Faulty permitted :=
    (removeJournal_ensures h hjournal).imp fun _ _ hquiet hnone => ⟨hquiet, hnone⟩
  refine (hremoved.weaken fun _ hquiet => .inl hquiet).then ?_
  rintro _ next hbound ⟨hquiet, hnone⟩
  exact perform_ensures rfl hbound hbound ⟨hquiet.shows, hnone⟩

theorem removeManifest_ensures (hgenuine : Genuine permitted)
    (h : Pending phase changes base goal journal root)
    (hshows : Shows goal root) :
    Ensures exec permitted (Bound phase base goal) removeManifest root
      (fun _ next => Quiet goal next ∧ ∃ journal, next.journal = some journal)
      fun _ _ => Faulty permitted := by
  have hnext : (root.set .manifest none).journal = some { journal with manifest := none } := by
    simp only [Root.set, h.kept, map_some]
  have hquiet : Quiet goal (root.set .manifest none) := by
    refine ⟨hshows, fun other hother => ?_⟩
    rw [hnext] at hother
    cases hother
    rfl
  refine (removeIfExists_ensures hgenuine rfl (.inr ⟨_, _, h⟩) (.inl hquiet)).imp ?_
  rintro _ _ - (rfl | ⟨-, hnone⟩)
  · exact ⟨hquiet, _, hnext⟩
  · obtain ⟨bytes, hbytes, -⟩ := h.manifest
    simp only [Root.get, h.kept, bind_some, hbytes] at hnone
    cases hnone

theorem recoverLocked_ensures (hgenuine : Genuine permitted) (hlooks : Looks permitted)
    (hserde : RoundTrips)
    (h : Bound phase base goal root) :
    Ensures exec permitted (Bound phase base goal) (recoverLocked pid) root
      (fun _ next => Shows goal next ∧ next.journal = none) fun _ _ => Faulty permitted := by
  refine .bind (exists?_ensures h ?_ fun _ _ hpermitted => (hlooks _ _ _ hpermitted).elim)
  cases hjournal : root.journal with
  | none =>
    rw [root.present_journal, hjournal, Option.isSome_none]
    refine ⟨h, ?_, hjournal⟩
    rcases h with h | ⟨_, _, h⟩
    · exact h.shows
    · cases hjournal.symm.trans h.kept
  | some journal =>
    rw [root.present_journal, hjournal, Option.isSome_some]
    refine .bind (exists?_ensures h ?_ fun _ _ hpermitted => (hlooks _ _ _ hpermitted).elim)
    have hmanifest : root.present (.file .manifest) = journal.manifest.isSome := by
      simp only [Root.present, Root.get, hjournal, bind_some]
    rw [hmanifest]
    rcases h with h | ⟨changes, other, h⟩
    · rw [h.noManifest journal hjournal]
      exact discard_ensures h hjournal
    · cases hjournal.symm.trans h.kept
      obtain ⟨bytes, hbytes, htoVec⟩ := h.manifest
      obtain ⟨_, hwritten, hread⟩ := hserde ⟨phase, changes⟩
      cases htoVec.symm.trans hwritten
      have hget : root.get .manifest = some bytes := by
        simp only [Root.get, hjournal, bind_some, hbytes]
      have hbound : Bound phase base goal root := .inr ⟨_, _, h⟩
      rw [hbytes]
      refine .bind (.bind (perform_ensures (exec_readFile rfl hget) hbound hbound ?_))
      rw [hread]
      refine ⟨hbound, ((replayManifest_ensures hgenuine h).weaken fun state hstate =>
          .inr ⟨_, _, h.of_replaying hstate⟩).then ?_⟩
      rintro _ replayed - ⟨hreplaying, hshows⟩
      refine (removeManifest_ensures hgenuine (h.of_replaying hreplaying) hshows).then ?_
      rintro _ closed - ⟨hquiet, left, hleft⟩
      exact discard_ensures hquiet hleft

end Recover

end TxBase.Catalog
