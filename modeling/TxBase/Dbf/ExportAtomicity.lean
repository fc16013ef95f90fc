import TxBase.Dbf.ExportJournal

/-! An export of a table with its schema is all or nothing.  Until its journal record is
written no target changes; from then on every recovery goes on to the new files, however
often it is stopped. -/
namespace TxBase.Dbf
open Lib Json List
open Durable (Completes Keeps Refuses Interrupted StopsAfter finishes_bind finishes_ask finishes_step
  stopsAfter_bind forEach phased_bind)
open OrderedMap (get?)
open Outcome (lift lift_eq_ok)
open Files (Between between_base)
open ExportTarget (targetPaths)
variable {bytes schemaBytes : Bytes} {disk last prior : ExportDisk} {target : ExportTarget}
  {files : OrderedMap String Bytes} {flags : Nat} {table : DbfTable} {path name : String}
  {staged : StagedExport}
  {rest : List ExportTarget}

section Directory

def Unpublished (disk : ExportDisk) : Prop := disk.journal = .absent ∨ disk.journal = .records []

def Published (disk : ExportDisk) : Prop := ∃ record, disk.journal = .records [record]

/-- Nothing but the directory changes. -/
def SameTargets (disk state : ExportDisk) : Prop :=
  state.targets = disk.targets ∧ state.journal = disk.journal

theorem removeDirectoryIfExists_completes [ReadDir] (disk : ExportDisk) :
    Completes removeDirectoryIfExists disk (SameTargets disk)
      fun _ last => last = { disk with directory := none } := by
  refine Completes.ask_bind rfl ?_
  cases hdirectory : disk.directory with
  | none =>
    refine Completes.pure ?_
    rw [← hdirectory]
  | some files =>
    -- What is left of the dir is among the names that are still to be removed.
    let inv (rest : List String) (state : ExportDisk) : Prop := SameTargets disk state ∧
      ∃ left, state.directory = some left ∧ ∀ name ∈ left.map Prod.fst, name ∈ rest
    have hbody : ∀ name rest state, inv (name :: rest) state →
        Completes (removeStaged name) state (SameTargets disk) fun _ next => inv rest next := by
      rintro name rest state ⟨hsame, left, hleft, hnames⟩
      refine Completes.step hsame ⟨hsame, OrderedMap.erase name left, ?_, ?_⟩
      · show Option.map _ state.directory = _
        rw [hleft]
        rfl
      · intro other hother
        obtain ⟨entry, hentry, rfl⟩ := mem_map.mp hother
        obtain ⟨hmem, hne⟩ := mem_filter.mp hentry
        rcases mem_cons.mp (hnames _ (mem_map_of_mem hmem)) with heq | hrest
        · simp [heq] at hne
        · exact hrest
    have hstart : inv (ReadDir.order (files.map Prod.fst)) disk :=
      ⟨⟨rfl, rfl⟩, files, hdirectory, fun name hname => (ReadDir.perm _).mem_iff.mpr hname⟩
    refine (Completes.forEach hbody hstart).bind ?_
    rintro _ state ⟨hsame, left, hleft, hnames⟩
    have hempty : left = [] := by
      rw [← map_eq_nil_iff (f := Prod.fst), eq_nil_iff_forall_not_mem]
      exact fun name hname => not_mem_nil (hnames name hname)
    refine Completes.ask_bind (if_pos (by rw [hleft, hempty])) (Completes.step hsame ?_)
    obtain ⟨htargets, hjournal⟩ := hsame
    rw [← htargets, ← hjournal]

theorem finishes_writeFile {done : Unit} :
    (writeFile name bytes).Finishes disk last done ↔
      ∃ files, disk.directory = some files ∧
        last = { disk with directory := some (OrderedMap.insert name bytes files) } := by
  simp only [writeFile, finishes_bind, finishes_ask, finishes_step]
  cases hdirectory : disk.directory with
  | none => simp [hdirectory, notFound, Outcome.fail]
  | some files => simp [hdirectory]

/-- The copies of the old files, and the flags that name them. -/
structure Captured (prior : ExportTarget → Option Bytes) (done : List ExportTarget) (flags : Nat)
    (files : OrderedMap String Bytes) : Prop where
  bases : ∀ target ∈ done, files.get? target.basePath = prior target
  bits : ∀ target, flags.testBit target.number = (decide (target ∈ done) && (prior target).isSome)
  others : ∀ target ∉ done, files.get? target.basePath = none
  small : flags < 2 ^ targetPaths.length

variable {left right : ExportTarget}

theorem basePath_inj (h : left.basePath = right.basePath) : left = right := by
  revert h
  cases left <;> cases right <;> decide

theorem number_inj (h : left.number = right.number) : left = right := by
  revert h
  cases left <;> cases right <;> decide

theorem number_lt (target : ExportTarget) : target.number < targetPaths.length := by
  cases target <;> decide

variable {done : List ExportTarget} {prior : ExportTarget → Option Bytes}

theorem Captured.skip (h : Captured prior done flags files) (hnew : target ∉ done)
    (hnone : prior target = none) :
    Captured prior (target :: done) flags files := by
  refine ⟨?_, ?_, fun other hother => h.others other fun hmem => hother (mem_cons_of_mem _ hmem),
    h.small⟩
  · intro other hother
    rcases mem_cons.mp hother with rfl | hmem
    · rw [h.others other hnew, hnone]
    · exact h.bases other hmem
  · intro other
    rw [h.bits other]
    by_cases heq : other = target
    · subst heq
      simp [hnone]
    · simp [heq]

theorem Captured.copy (h : Captured prior done flags files) (hbytes : prior target = some bytes) :
    Captured prior (target :: done) (flags ||| 1 <<< target.number)
      (OrderedMap.insert target.basePath bytes files) := by
  refine ⟨?_, ?_, ?_, ?_⟩
  · intro other hother
    rw [OrderedMap.get?_insert]
    split
    · rename_i heq
      rw [basePath_inj heq, hbytes]
    · rename_i hne
      rcases mem_cons.mp hother with rfl | hmem
      · exact absurd rfl hne
      · exact h.bases other hmem
  · intro other
    rw [Nat.testBit_or, h.bits other, Nat.one_shiftLeft, Nat.testBit_two_pow]
    by_cases heq : other = target
    · subst heq
      simp [hbytes]
    · have hnumber : target.number ≠ other.number := fun hsame => heq (number_inj hsame.symm)
      simp [heq, hnumber]
  · intro other hother
    rw [mem_cons, not_or] at hother
    rw [OrderedMap.get?_insert_ne _ _ fun heq => hother.1 (basePath_inj heq)]
    exact h.others other hother.2
  · refine Nat.or_lt_two_pow h.small ?_
    rw [Nat.one_shiftLeft]
    exact Nat.pow_lt_pow_right Nat.one_lt_two (number_lt target)

theorem finishes_captureBases {result : Nat} (hdirectory : disk.directory = some files)
    (h : Captured disk.targets done flags files) (hnodup : rest.Nodup)
    (hdisjoint : ∀ target ∈ rest, target ∉ done)
    (hrun : (captureBases rest flags).Finishes disk last result) :
    ∃ more, last = { disk with directory := some more } ∧
      (∃ all, Captured disk.targets all result more ∧ ∀ target ∈ done ++ rest, target ∈ all) ∧
      ∀ name, (∀ target : ExportTarget, target.basePath ≠ name) →
        get? name more = get? name files := by
  induction rest generalizing done flags disk files with
  | nil =>
    obtain ⟨rfl, rfl⟩ := Durable.finishes_pure.mp hrun
    exact ⟨files, by rw [← hdirectory], ⟨done, h, by simp⟩, fun _ _ => rfl⟩
  | cons target rest ih =>
    rw [nodup_cons] at hnodup
    have hnew := hdisjoint target mem_cons_self
    have hrest : ∀ other ∈ rest, other ∉ target :: done := by
      intro other hother hmem
      rcases mem_cons.mp hmem with rfl | hmem
      · exact hnodup.1 hother
      · exact hdisjoint other (mem_cons_of_mem _ hother) hmem
    simp only [captureBases, finishes_bind, finishes_ask] at hrun
    obtain ⟨middle, _, ⟨hmiddle, ⟨⟩⟩, hrun⟩ := hrun
    rw [hmiddle] at hrun
    cases htarget : disk.targets target with
    | none =>
      rw [htarget] at hrun
      obtain ⟨more, hlast, ⟨all, hall, hmem⟩, hnames⟩ :=
        ih hdirectory (h.skip hnew htarget) hnodup.2 hrest hrun
      refine ⟨more, hlast, ⟨all, hall, fun other hother => hmem other ?_⟩, hnames⟩
      simp only [mem_append, mem_cons] at hother ⊢
      tauto
    | some bytes =>
      rw [htarget] at hrun
      simp only [finishes_bind, finishes_writeFile] at hrun
      obtain ⟨_, _, ⟨own, hown, rfl⟩, hrun⟩ := hrun
      cases hdirectory.symm.trans hown
      let copied : ExportDisk :=
        { disk with directory := some (OrderedMap.insert target.basePath bytes files) }
      obtain ⟨more, hlast, ⟨all, hall, hmem⟩, hnames⟩ :=
        ih (show copied.directory = _ from rfl) (h.copy htarget) hnodup.2 hrest hrun
      refine ⟨more, hlast, ⟨all, hall, fun other hother => hmem other ?_⟩, fun name hname => ?_⟩
      · simp only [mem_append, mem_cons] at hother ⊢
        tauto
      · rw [hnames name hname, OrderedMap.get?_insert_ne _ _ (hname target).symm]

variable {P : ExportDisk → Prop}

section
variable (h : ∀ disk directory, P disk → P { disk with directory })
include h

theorem keeps_writeFile (name : String) (bytes : Bytes) : Keeps P (writeFile name bytes) :=
  (Keeps.ask _).bind fun _ => Keeps.step fun disk hdisk => h disk _ hdisk

theorem keeps_captureBases (rest : List ExportTarget)
    (flags : Nat) : Keeps P (captureBases rest flags) := by
  induction rest generalizing flags with
  | nil => exact Keeps.pure flags
  | cons target rest ih =>
    refine (Keeps.ask _).bind fun current => ?_
    cases current with
    | none => exact ih flags
    | some bytes => exact (keeps_writeFile h _ _).bind fun _ => ih _

theorem keeps_removeDirectoryIfExists [ReadDir] : Keeps P removeDirectoryIfExists := by
  refine (Keeps.ask _).bind fun dir => ?_
  cases dir with
  | none => exact Keeps.pure ()
  | some files =>
    refine (Keeps.forEach (fun name => Keeps.step fun disk hdisk => h disk _ hdisk) _).bind
      fun _ => ?_
    exact (Keeps.ask _).bind fun _ => Keeps.step fun disk hdisk => h disk _ hdisk

end

end Directory

section Stage
theorem mem_targetPaths (target : ExportTarget) : target ∈ targetPaths := by
  cases target <;> decide

theorem stagePath_ne_basePath (target other : ExportTarget) : other.basePath ≠ target.stagePath := by
  cases target <;> cases other <;> decide

variable {done : Unit}

theorem finishes_forSome_writeFile {option : Option Bytes} (hdirectory : disk.directory = some files)
    (hnone : files.get? name = none)
    (h : (Durable.forSome option (writeFile name)).Finishes disk last done) :
    ∃ more, last = { disk with directory := some more } ∧ get? name more = option ∧
      ∀ other ≠ name, get? other more = get? other files := by
  cases option with
  | none =>
    obtain ⟨rfl, -⟩ := Durable.finishes_pure.mp h
    exact ⟨files, by rw [← hdirectory], hnone, fun _ _ => rfl⟩
  | some bytes =>
    obtain ⟨own, hown, rfl⟩ := finishes_writeFile.mp h
    cases hdirectory.symm.trans hown
    exact ⟨_, rfl, OrderedMap.get?_insert_self _ _ _, fun other hother =>
      OrderedMap.get?_insert_ne _ _ hother⟩

variable [Runtime] [Filters] [Serde] [Indexing] [ReadDir]

/-- What an export of a table puts in the place of the targets. -/
structure Exports (prior : ExportDisk) (table : DbfTable) (schemaBytes : Bytes)
    (staged : StagedExport) : Prop where
  valid : validateStagedExport staged.dbf staged.schema = .ok ()
  dbf : staged.dbf = table.bytes
  schema : staged.schema = schemaBytes
  state : ∃ bytes, exportState prior = .ok bytes ∧ staged.state = some bytes
  index : exportIndex table prior = .ok staged.index

omit [Runtime] [Filters] [Serde] [ReadDir] in
theorem exportIndex_isSome {index : Option Bytes} (h : exportIndex table disk = .ok index) :
    index.isSome = (disk.targets .index).isSome := by
  simp only [exportIndex, bind_eq_ok, Except.ok.injEq] at h
  obtain ⟨rebuilt, hrebuilt, rfl⟩ := h
  cases hindex : disk.targets .index with
  | none =>
    rw [hindex] at hrebuilt
    cases hrebuilt
    rfl
  | some bytes => cases rebuilt <;> rfl

/-- The directory of an export that is ready to be published. -/
structure Staged (prior : ExportDisk) (staged : StagedExport) (flags : Nat)
    (files : OrderedMap String Bytes) : Prop where
  dbf : files.get? ExportTarget.dbf.stagePath = some staged.dbf
  schema : files.get? ExportTarget.schema.stagePath = some staged.schema
  state : files.get? ExportTarget.state.stagePath = staged.state
  index : files.get? ExportTarget.index.stagePath = staged.index
  bases : ∀ target : ExportTarget, files.get? target.basePath = prior.targets target
  bits : ∀ target, flags.testBit target.number = (prior.targets target).isSome
  small : flags < 2 ^ targetPaths.length

omit [Runtime] [Filters] [Serde] [Indexing] in
theorem finishes_removeDirectoryIfExists (h : removeDirectoryIfExists.Finishes disk last done) :
    last = { disk with directory := none } := by
  obtain ⟨-, value, other, hother, rfl⟩ := removeDirectoryIfExists_completes disk
  exact (h.unique hother).1

def stagedFiles (dbf schema state : Bytes) : OrderedMap String Bytes :=
  OrderedMap.insert ExportTarget.state.stagePath state
    (OrderedMap.insert ExportTarget.schema.stagePath schema
      (OrderedMap.insert ExportTarget.dbf.stagePath dbf []))

omit [Runtime] [Filters] [Serde] [Indexing] [ReadDir] in
theorem get?_stagedFiles (dbf schema state : Bytes) (name : String) :
    get? name (stagedFiles dbf schema state) =
      if name = ExportTarget.state.stagePath then some state
      else if name = ExportTarget.schema.stagePath then some schema
      else if name = ExportTarget.dbf.stagePath then some dbf else none := by
  simp only [stagedFiles, OrderedMap.get?_insert, OrderedMap.get?_nil]

theorem stageExport_finishes (h : (stageExport table schemaBytes).Finishes prior last flags) :
    ∃ staged files, Exports prior table schemaBytes staged ∧
      last = { prior with directory := some files } ∧ Staged prior staged flags files := by
  simp only [stageExport, createDirectory, finishes_bind, finishes_ask, finishes_step,
    finishes_writeFile, lift_eq_ok] at h
  obtain ⟨checked, _, ⟨hchecked, hvalid⟩, _, indexBytes, ⟨rfl, hindex⟩, start, stateBytes,
    ⟨rfl, hstate⟩, removed, _, hremoved, created, _, ⟨_, _, ⟨rfl, -⟩, rfl⟩, withDbf, _,
    ⟨_, ⟨⟩, rfl⟩, withSchema, _, ⟨_, ⟨⟩, rfl⟩, withState, _, ⟨_, ⟨⟩, rfl⟩, withIndex, _, hwithIndex,
    hcapture⟩ := h
  subst hchecked
  have hremoved := finishes_removeDirectoryIfExists hremoved
  subst hremoved
  rw [show OrderedMap.insert _ _ (OrderedMap.insert _ _ (OrderedMap.insert _ _ [])) =
    stagedFiles table.bytes schemaBytes stateBytes from rfl] at hwithIndex
  obtain ⟨indexed, rfl, hindexFile, hother⟩ := finishes_forSome_writeFile rfl
    (by rw [get?_stagedFiles]; rfl) hwithIndex
  have hbases : ∀ target : ExportTarget, get? target.basePath indexed = none := by
    intro target
    rw [hother _ (stagePath_ne_basePath .index target), get?_stagedFiles,
      if_neg (stagePath_ne_basePath .state target), if_neg (stagePath_ne_basePath .schema target),
      if_neg (stagePath_ne_basePath .dbf target)]
  let staging : ExportDisk := { start with directory := some indexed }
  have hempty : Captured staging.targets [] 0 indexed :=
    ⟨fun _ hmem => (not_mem_nil hmem).elim, fun _ => by simp, fun target _ => hbases target,
      by decide⟩
  dsimp only at hcapture
  obtain ⟨files, rfl, ⟨all, hall, hmem⟩, hnames⟩ := finishes_captureBases
    (show staging.directory = some indexed from rfl) hempty (by decide : targetPaths.Nodup)
      (fun _ _ => not_mem_nil) hcapture
  have hmem : ∀ target, target ∈ all := fun target => hmem target (mem_targetPaths target)
  have hstage : ∀ target : ExportTarget, get? target.stagePath files =
      get? target.stagePath indexed := fun target =>
    hnames _ fun other => stagePath_ne_basePath target other
  refine ⟨⟨table.bytes, schemaBytes, some stateBytes, indexBytes⟩, files,
    ⟨hvalid, rfl, rfl, ⟨stateBytes, hstate, rfl⟩, hindex⟩, rfl, ?_⟩
  refine ⟨?_, ?_, ?_, by rw [hstage, hindexFile],
    fun target => hall.bases target (hmem target), fun target =>
    by rw [hall.bits target, decide_eq_true (hmem target), Bool.true_and], hall.small⟩
  all_goals
    rw [hstage, hother _ (by decide), get?_stagedFiles]
    rfl

end Stage

theorem decode_journalRecord (h : flags < 2 ^ targetPaths.length) :
    decodeJournalRecord (journalRecord flags) = .ok flags := by
  have hflags : flags < 256 ^ 2 := lt_trans h (by decide)
  have hvalue : fromLeBytes (slice (journalRecord flags) 6 8) = flags :=
    fromLeBytes_slice 2 (journalMagic ++ toLeBytes 2 journalVersion) prefix_rfl rfl rfl hflags
  unfold decodeJournalRecord
  simp only [bind_eq_ok, reject_eq_ok, hvalue]
  refine ⟨(), ?_, (), ?_, (), not_le.mpr h, trivial⟩
  · rintro (hlength | hmagic)
    · exact hlength (by simp [journalRecord, journalMagic, journalRecordSize])
    · exact hmagic rfl
  · exact fun hversion => hversion rfl

/-- The journal has the record of an export, and the directory its files. -/
structure Pending (prior : ExportDisk) (staged : StagedExport) (flags : Nat) (disk : ExportDisk) :
    Prop where
  journal : disk.journal = .records [journalRecord flags]
  directory : ∃ files, disk.directory = some files ∧ Staged prior staged flags files

theorem Pending.targets (h : Pending prior staged flags disk)
    (targets : ExportTarget → Option Bytes) :
    Pending prior staged flags { disk with targets } := ⟨h.journal, h.directory⟩

theorem readStaged_eq (hdirectory : disk.directory = some files)
    (hbytes : files.get? name = some bytes) :
    readStaged name disk = .ok bytes := by
  unfold readStaged
  rw [hdirectory, Option.bind_some, hbytes]

theorem Pending.baseOf (h : Pending prior staged flags disk) (target : ExportTarget) :
    baseOf flags target disk = .ok (prior.targets target) := by
  obtain ⟨files, hdirectory, hstaged⟩ := h.directory
  unfold TxBase.Dbf.baseOf
  rw [hstaged.bits target]
  cases hprior : prior.targets target with
  | none => rfl
  | some bytes =>
    rw [readStaged_eq hdirectory ((hstaged.bases target).trans hprior)]
    rfl

theorem targetNeedsReplacement_of_between {current desired base : Option Bytes}
    (h : current = base ∨ current = desired) :
    targetNeedsReplacement path target current desired base = .ok (decide (current ≠ desired)) := by
  unfold targetNeedsReplacement
  split
  · rename_i hdesired
    simp [hdesired]
  · rename_i hdesired
    rw [if_neg (not_not_intro (h.resolve_right hdesired)), decide_eq_true hdesired]

theorem Pending.planReplacements (h : Pending prior staged flags disk)
    (hstate : staged.state.isSome) (hbetween : Between prior.targets staged.desired disk.targets)
    (rest : List ExportTarget) :
    planReplacements path flags staged disk rest =
      .ok (rest.map fun target => (target,
        decide (disk.targets target ≠ staged.desired target))) := by
  induction rest with
  | nil => rfl
  | cons target rest ih =>
    have hnone : ¬ (target = .state ∧ staged.state = none) := by
      rintro ⟨-, hnone⟩
      rw [hnone] at hstate
      cases hstate
    unfold TxBase.Dbf.planReplacements
    rw [if_neg hnone, h.baseOf target, ih]
    show (lift (targetNeedsReplacement _ _ _ _ _) >>= _) = _
    rw [targetNeedsReplacement_of_between (hbetween target)]
    rfl

theorem Pending.planReplacements_foreign (h : Pending prior staged flags disk)
    (hstate : staged.state.isSome)
    (hbase : disk.targets target ≠ prior.targets target)
    (hdesired : disk.targets target ≠ staged.desired target)
    (hmem : target ∈ rest) :
    ¬ ∃ plan, TxBase.Dbf.planReplacements path flags staged disk rest = .ok plan := by
  induction rest with
  | nil => cases hmem
  | cons other rest ih =>
    rintro ⟨plan, hplan⟩
    unfold TxBase.Dbf.planReplacements at hplan
    split at hplan
    · rename_i hnone
      rw [hnone.2] at hstate
      cases hstate
    · simp only [h.baseOf other, bind_eq_ok, lift_eq_ok, Except.ok.injEq] at hplan
      obtain ⟨_, rfl, needed, hneeded, others, hothers, -⟩ := hplan
      rcases mem_cons.mp hmem with rfl | hmem
      · rw [targetNeedsReplacement, if_neg hdesired, if_pos hbase] at hneeded
        cases hneeded
      · exact ih hmem ⟨others, hothers⟩

section Recovery
variable [Runtime] [Filters] [Serde] [Indexing] [IndexCheck]
/-- The index that the export stages is one that its replay accepts. -/
def IndexFits (path : String) (table : DbfTable) (prior : ExportDisk) : Prop :=
  ∀ bytes, exportIndex table prior = .ok (some bytes) →
    validateSnapshotBytes path table.bytes bytes = .ok ()

theorem Pending.readStagedExport (h : Pending prior staged flags disk)
    (hexports : Exports prior table schemaBytes staged) (hfits : IndexFits path table prior) :
    readStagedExport path flags disk = .ok staged := by
  obtain ⟨files, hdirectory, hstaged⟩ := h.directory
  have hstate : disk.directory.bind (get? ExportTarget.state.stagePath) = staged.state := by
    rw [hdirectory]
    exact hstaged.state
  have hbit : flags.testBit ExportTarget.index.number = staged.index.isSome :=
    (hstaged.bits .index).trans (exportIndex_isSome hexports.index).symm
  unfold TxBase.Dbf.readStagedExport
  rw [readStaged_eq hdirectory hstaged.dbf, readStaged_eq hdirectory hstaged.schema, hstate, hbit]
  cases hindex : staged.index with
  | none =>
    show (validateStagedExport staged.dbf staged.schema >>= _) = _
    rw [hexports.valid]
    show Except.ok _ = _
    rw [← hindex]
  | some bytes =>
    rw [readStaged_eq hdirectory (hstaged.index.trans hindex)]
    show (validateStagedExport staged.dbf staged.schema >>= _) = _
    rw [hexports.valid]
    show (lift (indexed (validateSnapshotBytes path staged.dbf bytes)) >>= _) = _
    rw [hexports.dbf, hfits bytes (hindex ▸ hexports.index), ← hexports.dbf]
    show Except.ok _ = _
    rw [← hindex]

theorem Pending.readStagedExport_unique (h : Pending prior staged flags disk)
    (hexports : Exports prior table schemaBytes staged) {found : StagedExport}
    (hread : TxBase.Dbf.readStagedExport path flags disk = .ok found) : found = staged := by
  obtain ⟨files, hdirectory, hstaged⟩ := h.directory
  have hbit : flags.testBit ExportTarget.index.number = staged.index.isSome :=
    (hstaged.bits .index).trans (exportIndex_isSome hexports.index).symm
  have hstate : disk.directory.bind (get? ExportTarget.state.stagePath) = staged.state := by
    rw [hdirectory]
    exact hstaged.state
  unfold TxBase.Dbf.readStagedExport at hread
  rw [readStaged_eq hdirectory hstaged.dbf, readStaged_eq hdirectory hstaged.schema, hstate,
    hbit] at hread
  cases hindex : staged.index with
  | none =>
    rw [hindex] at hread
    obtain ⟨_, -, hread⟩ :=
      bind_eq_ok.mp (show (validateStagedExport staged.dbf staged.schema >>= _) = _
      from hread)
    cases hread
    rw [← hindex]
  | some bytes =>
    rw [hindex, readStaged_eq hdirectory (hstaged.index.trans hindex)] at hread
    obtain ⟨_, -, hread⟩ :=
      bind_eq_ok.mp (show (validateStagedExport staged.dbf staged.schema >>= _) = _
      from hread)
    obtain ⟨_, -, hread⟩ := bind_eq_ok.mp hread
    cases hread
    rw [← hindex]

/-- The targets are on the way to their new contents. -/
structure Replaying (prior : ExportDisk) (staged : StagedExport) (flags : Nat) (disk : ExportDisk) :
    Prop extends Pending prior staged flags disk where
  between : Between prior.targets staged.desired disk.targets

omit [Runtime] [Filters] [Serde] [Indexing] [IndexCheck] in
theorem replaceTarget_completes {entry : ExportTarget × Bool} {rest : List (ExportTarget × Bool)}
    (h : Replaying prior staged flags disk)
    (hdone : ∀ target, disk.targets target = staged.desired target ∨
      (target, true) ∈ entry :: rest) :
    Completes (replaceTarget path flags staged entry) disk (Replaying prior staged flags)
      fun _ next => Replaying prior staged flags next ∧
        ∀ target, next.targets target = staged.desired target ∨ (target, true) ∈ rest := by
  obtain ⟨target, needed⟩ := entry
  unfold replaceTarget
  cases needed with
  | false =>
    refine .pure ⟨h, fun other => (hdone other).imp_right fun hmem => ?_⟩
    simpa using hmem
  | true =>
    refine .ask_bind (h.baseOf target) (.ask_bind
      (congrArg lift (targetNeedsReplacement_of_between (h.between target))) ?_)
    by_cases hdesired : disk.targets target = staged.desired target
    · rw [decide_eq_false (not_not_intro hdesired)]
      refine .pure ⟨h, fun other => ?_⟩
      rcases hdone other with hother | hmem
      · exact .inl hother
      · rcases mem_cons.mp hmem with heq | hmem
        · cases heq
          exact .inl hdesired
        · exact .inr hmem
    · rw [decide_eq_true hdesired]
      have hnext : Replaying prior staged flags
          { disk with targets := Function.update disk.targets target (staged.desired target) } :=
        ⟨h.targets _, h.between.update target⟩
      refine .step hnext ⟨hnext, fun other => ?_⟩
      dsimp only
      by_cases heq : other = target
      · subst heq
        exact .inl (Function.update_self _ _ _)
      · rw [Function.update_of_ne heq]
        refine (hdone other).imp_right fun hmem => ?_
        simpa [heq] using hmem

theorem applyExport_completes (h : Replaying prior staged flags disk)
    (hexports : Exports prior table schemaBytes staged) (hfits : IndexFits path table prior) :
    Completes (applyExport path flags) disk (Replaying prior staged flags)
      fun _ next => Replaying prior staged flags next ∧ next.targets = staged.desired := by
  have hstate : staged.state.isSome := by
    obtain ⟨bytes, -, hbytes⟩ := hexports.state
    rw [hbytes]
    rfl
  refine Completes.ask_bind (h.readStagedExport hexports hfits) (Completes.ask_bind
    (h.planReplacements hstate h.between _) ?_)
  let inv (rest : List (ExportTarget × Bool)) (state : ExportDisk) : Prop :=
    Replaying prior staged flags state ∧
      ∀ target, state.targets target = staged.desired target ∨ (target, true) ∈ rest
  have hbody : ∀ entry rest state, inv (entry :: rest) state →
      Completes (replaceTarget path flags staged entry) state (Replaying prior staged flags)
        fun _ next => inv rest next := fun _ _ _ hinv => replaceTarget_completes hinv.1 hinv.2
  refine (Completes.forEach hbody ⟨h, fun target => ?_⟩).mono fun _ next hnext =>
    ⟨hnext.1, funext fun target => ?_⟩
  · by_cases hdesired : disk.targets target = staged.desired target
    · exact .inl hdesired
    · refine .inr (mem_map.mpr ⟨target, mem_targetPaths target, ?_⟩)
      rw [decide_eq_true hdesired]
  · exact (hnext.2 target).resolve_right not_mem_nil

/-- The journal is closed, or about to be removed, and the targets stay as they are. -/
def AtRest (targets : ExportTarget → Option Bytes) (disk : ExportDisk) : Prop :=
  disk.targets = targets ∧ Unpublished disk

variable [ReadDir]

omit [Runtime] [Filters] [Serde] [Indexing] [IndexCheck] in
theorem closeJournal_completes (disk : ExportDisk) :
    Completes closeJournal disk (AtRest disk.targets) fun _ last =>
      last = { disk with directory := none, journal := .absent } := by
  refine .step_bind ⟨rfl, .inr rfl⟩ (.step_bind ⟨rfl, .inl rfl⟩ ?_)
  obtain ⟨hpassed, hended⟩ := removeDirectoryIfExists_completes
    { disk with journal := .absent }
  refine ⟨fun state hmem => ?_, hended⟩
  obtain ⟨htargets, hjournal⟩ := hpassed state hmem
  exact ⟨htargets, .inl hjournal⟩

theorem recover_unpublished (path : String) (h : Unpublished disk) :
    Completes (recoverSchemaExportLocked path) disk (AtRest disk.targets) fun _ last =>
      last.targets = disk.targets := by
  refine .ask_bind rfl ?_
  rcases h with h | h
  · rw [h]
    exact .pure rfl
  · rw [h]
    refine (closeJournal_completes disk).bind fun _ last hlast => .pure ?_
    rw [hlast]

theorem recover_replaying (h : Replaying prior staged flags disk)
    (hexports : Exports prior table schemaBytes staged) (hfits : IndexFits path table prior) :
    Completes (recoverSchemaExportLocked path) disk
      (fun state => Replaying prior staged flags state ∨ AtRest staged.desired state)
      fun _ last => last.targets = staged.desired := by
  obtain ⟨files, -, hstaged⟩ := h.directory
  refine .ask_bind rfl ?_
  rw [h.journal]
  refine .ask_bind (congrArg lift (decode_journalRecord hstaged.small)) ?_
  refine ((applyExport_completes h hexports hfits).weaken fun _ => .inl).bind ?_
  rintro _ applied ⟨-, htargets⟩
  refine (((closeJournal_completes applied).weaken fun _ hstate => ?_).bind
    fun _ last hlast => .pure ?_)
  · exact .inr (htargets ▸ hstate)
  · rw [hlast]
    exact htargets

theorem recover_foreign (h : Pending prior staged flags disk)
    (hexports : Exports prior table schemaBytes staged)
    (hbase : disk.targets target ≠ prior.targets target)
    (hdesired : disk.targets target ≠ staged.desired target) :
    Refuses (recoverSchemaExportLocked path) disk := by
  have hstate : staged.state.isSome := by
    obtain ⟨bytes, -, hbytes⟩ := hexports.state
    rw [hbytes]
    rfl
  refine Refuses.ask_bind fun journal hjournal => ?_
  cases hjournal
  rw [h.journal]
  refine Refuses.ask_bind fun decoded hdecoded => ?_
  obtain ⟨files, hdirectory, hstaged⟩ := h.directory
  rw [decode_journalRecord hstaged.small] at hdecoded
  cases hdecoded
  refine Refuses.bind (Refuses.ask_bind fun found hfound => Refuses.bind (Refuses.ask ?_))
  rw [h.readStagedExport_unique hexports hfound]
  exact h.planReplacements_foreign hstate hbase hdesired (mem_targetPaths target)

end Recovery

section Interrupted
theorem keeps_openJournal (targets : ExportTarget → Option Bytes) :
    Keeps (AtRest targets) openJournal := by
  refine (Keeps.ask _).bind fun _ => (Keeps.step fun disk h => ⟨h.1, .inr ?_⟩).bind
    fun _ => Keeps.pure _
  rcases h.2 with hjournal | hjournal <;> rw [hjournal] <;> rfl

variable [Runtime] [Filters] [Serde] [Indexing] [IndexCheck] [ReadDir]
/-- The export is published, and its replay has begun or is complete. -/
def Underway (prior : ExportDisk) (table : DbfTable) (schemaBytes : Bytes)
    (disk : ExportDisk) : Prop :=
  ∃ staged flags, Exports prior table schemaBytes staged ∧
    (Replaying prior staged flags disk ∨ AtRest staged.desired disk)

theorem recover_atRest {targets : ExportTarget → Option Bytes} (path : String)
    (h : AtRest targets disk) :
    Completes (recoverSchemaExportLocked path) disk (AtRest targets) fun _ last =>
      last.targets = targets := by
  obtain ⟨rfl, hunpublished⟩ := h
  exact recover_unpublished path hunpublished

theorem recover_underway (hfits : IndexFits path table prior)
    (h : Underway prior table schemaBytes disk) :
    Completes (recoverSchemaExportLocked path) disk (Underway prior table schemaBytes) fun _ last =>
      ∃ staged, Exports prior table schemaBytes staged ∧ last.targets = staged.desired := by
  obtain ⟨staged, flags, hexports, hreplaying | hrest⟩ := h
  · exact ((recover_replaying hreplaying hexports hfits).weaken fun state hstate =>
      ⟨staged, flags, hexports, hstate⟩).mono fun _ _ hlast => ⟨staged, hexports, hlast⟩
  · exact ((recover_atRest path hrest).weaken fun state hstate =>
      ⟨staged, flags, hexports, .inr hstate⟩).mono fun _ _ hlast => ⟨staged, hexports, hlast⟩

omit [IndexCheck] in
theorem keeps_stageExport (targets : ExportTarget → Option Bytes) :
    Keeps (AtRest targets) (stageExport table schemaBytes) := by
  have hdirectory : ∀ disk dir, AtRest targets disk →
      AtRest targets { disk with directory := dir } := fun _ _ h => h
  unfold stageExport
  refine (Keeps.ask _).bind fun _ => (Keeps.ask _).bind fun _ => (Keeps.ask _).bind fun _ =>
    (keeps_removeDirectoryIfExists hdirectory).bind fun _ =>
    Keeps.bind ((Keeps.ask _).bind fun _ => Keeps.step fun _ h => h) fun _ =>
    (keeps_writeFile hdirectory _ _).bind fun _ => (keeps_writeFile hdirectory _ _).bind fun _ =>
    (keeps_writeFile hdirectory _ _).bind fun _ =>
    (Keeps.forSome fun _ => keeps_writeFile hdirectory _ _).bind fun _ => ?_
  exact keeps_captureBases hdirectory _ _

theorem commitSchemaExportLocked_phased (hjournal : prior.journal = .absent)
    (hfits : IndexFits path table prior) {seen : List ExportDisk} {found : ExportDisk}
    (h : (commitSchemaExportLocked path table schemaBytes).StopsAfter prior seen found) :
    Durable.Phased (AtRest prior.targets)
      (Underway prior table schemaBytes) Published seen found := by
  have hprior : AtRest prior.targets prior := ⟨rfl, .inl hjournal⟩
  refine phased_bind hprior ((keeps_stageExport _).passed prior hprior) ?_ h
  intro middle flags hstage seen found h
  obtain ⟨staged, files, hexports, rfl, hstaged⟩ := stageExport_finishes hstage
  have hmiddle : AtRest prior.targets { prior with directory := some files } := hprior
  refine phased_bind hmiddle ((keeps_openJournal _).passed _ hmiddle) ?_ h
  intro opened payloads hopen seen found h
  simp only [openJournal, finishes_bind, finishes_ask, finishes_step, Durable.finishes_pure] at hopen
  obtain ⟨_, _, ⟨rfl, -⟩, _, _, rfl, rfl, -⟩ := hopen
  have hopened : AtRest prior.targets
      ⟨prior.targets, some files, prior.journal.created⟩ := ⟨rfl, .inr (by rw [hjournal]; rfl)⟩
  have hwritten : Replaying prior staged flags
      ⟨prior.targets, some files, prior.journal.created.append (journalRecord flags)⟩ :=
    ⟨⟨by rw [hjournal]; rfl, files, rfl, hstaged⟩, between_base _ _⟩
  unfold appendJournal at h
  rw [bind_assoc] at h
  refine phased_bind hopened (fun _ hmem => (Durable.not_passed_ask hmem).elim) ?_ h
  intro middle done hmiddle seen found h
  obtain ⟨rfl, -⟩ := finishes_ask.mp hmiddle
  refine Durable.phased_step_bind hopened ⟨_, hwritten.journal⟩ ⟨staged, flags, hexports,
    .inl hwritten⟩
    ?_ h
  intro state hmem
  rcases Durable.passed_bind.mp hmem with hmem | ⟨_, _, -, hmem⟩
  · exact (recover_underway hfits ⟨staged, flags, hexports, .inl hwritten⟩).passed state hmem
  · exact (Durable.not_passed_pure hmem).elim

/-- However an export and the recoveries after it are stopped, the next recovery leaves the
prior targets if the journal was never written and the new ones if it was; and a target with
foreign bytes keeps it from touching any. -/
theorem schema_export_all_or_nothing {seen : List ExportDisk} {found : ExportDisk}
    (hjournal : prior.journal = .absent) (hfits : IndexFits path table prior)
    (hrun : Interrupted (commitSchemaExportLocked path table schemaBytes)
      (fun _ : Unit => recoverSchemaExportLocked path) prior seen found) :
    (∃ recovered last, (recoverSchemaExportLocked path).Finishes found last recovered ∧
      ((∀ state ∈ seen, ¬ Published state) → last.targets = prior.targets) ∧
      ((∃ state ∈ seen, Published state) →
        ∃ staged, Exports prior table schemaBytes staged ∧ last.targets = staged.desired)) ∧
    ∀ targets target, Published found → targets target ≠ prior.targets target →
      (∀ staged, Exports prior table schemaBytes staged → targets target ≠ staged.desired target) →
      Refuses (recoverSchemaExportLocked path) { found with targets } := by
  have hphased := hrun.phases (fun _ _ => commitSchemaExportLocked_phased hjournal hfits)
    (fun _ state hstate => (recover_atRest path hstate).passed)
    (fun _ state hstate => (recover_underway hfits hstate).passed)
  have hunmarked : ∀ state : ExportDisk, Unpublished state → ¬ Published state := by
    rintro state (hstate | hstate) ⟨record, hrecord⟩ <;> cases hstate.symm.trans hrecord
  rcases hphased with ⟨hseen, hfound⟩ | ⟨hfound, hmark⟩
  · refine ⟨?_, fun _ _ hpublished => absurd hpublished (hunmarked _ hfound.2)⟩
    obtain ⟨-, recovered, last, hfinishes, hlast⟩ := recover_atRest path hfound
    refine ⟨recovered, last, hfinishes, fun _ => hlast, ?_⟩
    rintro ⟨state, hmem, hpublished⟩
    exact absurd hpublished (hunmarked _ (hseen state hmem).2)
  · obtain ⟨-, recovered, last, hfinishes, hlast⟩ := recover_underway hfits hfound
    refine ⟨⟨recovered, last, hfinishes, ?_, fun _ => hlast⟩, ?_⟩
    · obtain ⟨state, hmem, hpublished⟩ := hmark
      exact fun hnone => absurd hpublished (hnone state hmem)
    · intro targets target hpublished hbase hdesired
      obtain ⟨staged, flags, hexports, hreplaying | hrest⟩ := hfound
      · exact recover_foreign (hreplaying.targets targets) hexports hbase (hdesired staged hexports)
      · exact absurd hpublished (hunmarked _ hrest.2)

end Interrupted

end TxBase.Dbf
