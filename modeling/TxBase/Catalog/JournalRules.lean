import TxBase.Catalog.Journal

/-! What the building blocks of the journal leave, whichever of their operations fail. -/
namespace TxBase.Catalog
open Lib
open Procedure (Event Ensures after)

theorem temporaryName_getLast? (pid : Nat) (name : FileName) :
    (temporaryName pid name).getLast? = some 0x70 := by
  have htext : utf8 s!".txbase-catalog-{pid}.tmp" =
      utf8 s!".txbase-catalog-{pid}" ++ utf8 ".tmp" := utf8_append _ _
  unfold temporaryName
  rw [htext, ← List.append_assoc]
  exact List.getLast?_append_of_ne_nil _ (by decide)

theorem isDirectory_temporaryName (pid : Nat) (name : FileName) :
    isDirectory (temporaryName pid name) = false := by
  have hlast := temporaryName_getLast? pid name
  simp only [isDirectory, Bool.or_eq_false_iff, decide_eq_false_iff_not]
  constructor <;>
    · intro h
      rw [h] at hlast
      revert hlast
      decide

/-- A name that no draft of a target has. -/
def Visible (name : FileName) : Prop := ∀ pid base, name ≠ temporaryName pid base

theorem visible_of_getLast? {name : FileName} (h : name.getLast? ≠ some 0x70) : Visible name := by
  rintro pid base rfl
  exact h (temporaryName_getLast? pid base)

/-- The files that are no drafts are these. -/
def Shows (files : FileName → Option Bytes) (root : Root) : Prop :=
  ∀ name, Visible name → root.files name = files name

section Operations

theorem Root.present_journal (root : Root) :
    root.present (.directory .journal) = root.journal.isSome := by
  obtain ⟨files, journal⟩ := root
  cases journal <;> rfl

theorem Root.set_set (root : Root) (path : FilePath) (first second : Bytes) :
    (root.set path (some first)).set path (some second) = root.set path (some second) := by
  obtain ⟨files, journal⟩ := root
  cases path with
  | target name => simp [Root.set]
  | staged side name =>
    cases journal with
    | none => rfl
    | some journal =>
      simp only [Root.set, Option.map_some, JournalDirectory.setStaged, if_pos, Option.map_map]
      congr 3
      funext other
      split
      · congr 1
        funext entries
        exact OrderedMap.insert_insert name first second entries
      · rfl
  | manifest | temporary => cases journal <;> rfl

variable [DirectoryOrder] {permitted : Event FsOp Root IoError → Prop}
  {inv : Root → Prop} {root : Root}

/-- A failure is not taken for the absence of a file. -/
def Genuine (permitted : Event FsOp Root IoError → Prop) : Prop :=
  ∀ op state error effect, permitted ⟨op, state, .failed error effect⟩ → error.notFound = false

def Faulty (permitted : Event FsOp Root IoError → Prop) : Prop := ∃ event, permitted event

theorem perform_ensures {op : FsOp} {reply : op.Reply} {next : Root} {ends : op.Reply → Root → Prop}
    (hexec : exec op root = (.ok reply, next)) (hinv : inv root) (hnext : inv next)
    (hends : ends reply next) :
    Ensures exec permitted inv (perform op) root ends fun _ _ => Faulty permitted := by
  refine .bind (.ask hinv ?_ ?_)
  · rw [hexec]
    exact ⟨hnext, hnext, hends⟩
  · intro error effect hpermitted
    have hstate := Procedure.inv_after_failed hexec hinv hnext error effect
    exact ⟨hstate, hstate, _, hpermitted⟩

theorem exists?_ensures {entry : Entry} {ends : Bool → Root → Prop}
    (hinv : inv root) (hends : ends (root.present entry) root)
    (hfailed : ∀ error effect, permitted ⟨.present entry, root, .failed error effect⟩ →
      ends false root) :
    Ensures exec permitted inv (exists? entry) root ends fun _ _ => Faulty permitted := by
  refine .bind (.ask hinv ⟨hinv, hinv, hends⟩ fun error effect hpermitted => ?_)
  cases effect <;> exact ⟨hinv, hinv, hfailed error _ hpermitted⟩

variable {path : FilePath}

theorem exec_createFile (hdirectory : path.isDirectory = false)
    (hparent : root.hasParent path = true) :
    exec (.createFile path) root = (.ok (), root.set path (some [])) := by
  simp only [exec, hdirectory, hparent, if_true, Bool.false_eq_true, if_false]

variable {bytes : Bytes}

theorem exec_rename {source target : FilePath} (hsource : root.get source = some bytes)
    (hdirectory : target.isDirectory = false) :
    exec (.rename source target) root = (.ok (),
      (root.set source none).set target (some bytes)) := by
  simp only [exec, hsource, hdirectory, Bool.false_eq_true, if_false]

theorem exec_readFile (hdirectory : path.isDirectory = false) (hbytes : root.get path = some bytes) :
    exec (.readFile path) root = (.ok bytes, root) := by
  simp only [exec, hbytes, hdirectory, Bool.false_eq_true, if_false]

theorem writeSynced_ensures (hdirectory : path.isDirectory = false)
    (hparent : root.hasParent path = true)
    (hinv : inv root) (hset : ∀ content, inv (root.set path (some content))) :
    Ensures exec permitted inv (writeSynced path bytes) root
      (fun _ next => next = root.set path (some bytes)) fun _ _ => Faulty permitted := by
  refine .bind (perform_ensures (exec_createFile hdirectory hparent) hinv (hset []) ?_)
  refine .bind (perform_ensures rfl (hset []) ?_ ?_)
  all_goals rw [Root.set_set]
  · exact hset bytes
  · exact perform_ensures rfl (hset bytes) (hset bytes) rfl

theorem removeFile_ensures {ends : Except IoError Unit → Root → Prop}
    {fails : CatalogError → Root → Prop}
    (hinv : inv root) (hnone : inv (root.set path none))
    (hends : ∀ answer next, next = root ∨ next = root.set path none → ends answer next) :
    Ensures exec permitted inv (tryTo (.removeFile path)) root ends fails := by
  have hexec : (exec (.removeFile path) root).2 = root ∨
      (exec (.removeFile path) root).2 = root.set path none := by
    simp only [exec]
    split
    · exact .inl rfl
    · split
      · exact .inl rfl
      · exact .inr rfl
  have hstate : inv (exec (.removeFile path) root).2 := by
    rcases hexec with h | h <;> rw [h] <;> assumption
  refine .ask hinv ⟨hstate, hends _ _ hexec⟩ fun error effect _ => ?_
  cases effect
  · exact ⟨hinv, hends _ _ (.inl rfl)⟩
  · exact ⟨hstate, hends _ _ hexec⟩

theorem writeTarget_ensures {pid : Nat} {name : FileName} (hdirectory : isDirectory name = false)
    (hdraft : ∀ state content, inv state →
      inv (state.set (.target (temporaryName pid name)) content))
    (hwrite : ∀ state, inv state → inv (state.set (.target name) (some bytes))) (hinv : inv root) :
    Ensures exec permitted inv (writeTarget pid name bytes) root
      (fun _ next => next = (root.set (.target (temporaryName pid name)) none).set
        (.target name) (some bytes))
      fun _ _ => Faulty permitted := by
  have hrun : Ensures exec permitted inv (do
      writeSynced (.target (temporaryName pid name)) bytes
      perform (.rename (.target (temporaryName pid name)) (.target name))
      perform (.syncDirectory none)) root (fun _ next => next =
        (root.set (.target (temporaryName pid name)) none).set (.target name) (some bytes))
      fun _ _ => Faulty permitted := by
    refine (writeSynced_ensures (show FilePath.isDirectory
      (.target (temporaryName pid name)) = false from
        isDirectory_temporaryName pid name) rfl hinv fun content => hdraft root _ hinv).then ?_
    rintro _ _ hstate rfl
    have hsource : (root.set (.target (temporaryName pid name)) (some bytes)).get
        (.target (temporaryName pid name)) = some bytes := Function.update_self _ _ _
    refine .bind (perform_ensures (exec_rename hsource hdirectory) hstate ?_ ?_)
    · exact hwrite _ (hdraft _ none hstate)
    · refine perform_ensures rfl (hwrite _ (hdraft _ none hstate))
        (hwrite _ (hdraft _ none hstate)) ?_
      simp [Root.set]
  refine .bind (.attempt (hrun.mono (fun _ _ hstate h => ⟨hstate, h⟩) ?_))
  · intro error state hstate hfaulty
    refine .bind (removeFile_ensures hstate (hdraft state none hstate) ?_)
    rintro _ next (rfl | rfl)
    · exact ⟨hstate, hfaulty⟩
    · exact ⟨hdraft state none hstate, hfaulty⟩

theorem removeIfExists_ensures (hgenuine : Genuine permitted) (hdirectory : path.isDirectory = false)
    (hinv : inv root) (hnone : inv (root.set path none)) :
    Ensures exec permitted inv (removeIfExists path) root
      (fun _ next => next = root.set path none ∨ next = root ∧ root.get path = none)
      fun _ _ => Faulty permitted := by
  refine .bind (.ask hinv ?_ fun error effect hpermitted => ?_)
  · cases hget : root.get path with
    | none =>
      have hexec : exec (.removeFile path) root = (noEntry, root) := by
        simp only [exec, hdirectory, hget, Bool.false_eq_true, if_false]
      rw [hexec]
      exact ⟨hinv, hinv, .inr ⟨rfl, rfl⟩⟩
    | some bytes =>
      have hexec : exec (.removeFile path) root = (.ok (), root.set path none) := by
        simp only [exec, hdirectory, hget, Bool.false_eq_true, if_false]
      rw [hexec]
      exact ⟨hnone, hnone, .inl rfl⟩
  · have hstate : inv (after exec (.removeFile path) root (.failed error effect)).2 := by
      cases effect
      · exact hinv
      · show inv (exec (.removeFile path) root).2
        simp only [exec]
        repeat' split
        all_goals assumption
    have hfound : error.notFound = false := hgenuine _ _ _ _ hpermitted
    refine ⟨hstate, ?_⟩
    dsimp only
    rw [hfound]
    exact ⟨hstate, _, hpermitted⟩

end Operations

end TxBase.Catalog
