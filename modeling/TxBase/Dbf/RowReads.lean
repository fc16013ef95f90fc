import TxBase.Dbf.MvccFraming
import TxBase.Dbf.Saved
import TxBase.Lib.Epochs

/-! Row reads agree with full images.  A history that only commits wrote is, up to the `==`
of row values, the log of a sequence of images: every commit starts an epoch or records
the rows that it changed. -/
namespace TxBase.Dbf
open Lib Json List
open Outcome (lift_eq_ok)
open Epochs (Image numbered isNew delta)
variable {table : DbfTable}

/-- A row as `==` sees it. -/
abbrev RowState := Bool × Value

def DbfRecord.state (record : DbfRecord) : RowState :=
  (record.deleted, canonicalValues record.values)

def RowChange.entry (change : RowChange) : Epochs.Entry RowState :=
  ⟨change.epoch, change.recordNumber, change.deleted, canonicalValues change.values⟩

def RowVersion.entry (version : RowVersion) : Epochs.Entry RowState :=
  ⟨version.id.epoch, version.id.recordNumber, version.deleted, canonicalValues version.values⟩

/-- The end of an epoch marks its rows as deleted. -/
def retired (state : RowState) : RowState := (true, state.2)

theorem RowChange.eqv_iff (left right : RowChange) :
    left.eqv right = true ↔ left.entry = right.entry := by
  simp only [eqv, entry, Bool.and_eq_true, decide_eq_true_eq, sameValues_iff, Epochs.Entry.mk.injEq,
    Prod.mk.injEq, and_assoc]

theorem rowChanges_eqv_iff (left right : List RowChange) : eqvList RowChange.eqv left right = true ↔
    left.map RowChange.entry = right.map RowChange.entry :=
  eqvList_iff RowChange.eqv_iff

theorem sameRow_iff {left right : DbfRecord} :
    sameRow left right = true ↔ left.state = right.state := by
  simp only [sameRow, DbfRecord.state, Bool.and_eq_true, decide_eq_true_eq, sameValues_iff,
    Prod.mk.injEq]

/-- Records that carry their positions as numbers. -/
def Numbered (records : List DbfRecord) : Prop :=
  ∀ i record, records[i]? = some record → record.number = i + 1

theorem entries_eq_numbered {records : List DbfRecord} (h : Numbered records) (epoch : Nat)
    (f : DbfRecord → RowState) :
    (records.map fun record => (⟨epoch, record.number, f record⟩ : Epochs.Entry RowState)) =
      numbered epoch (records.map f) := by
  apply ext_getElem?
  intro i
  simp only [numbered, getElem?_map, getElem?_mapIdx]
  cases hrecord : records[i]? with
  | none => rfl
  | some record => rw [Option.map_some, Option.map_some, Option.map_some, h i record hrecord]

theorem currentRows_entries (h : Numbered table.records) (epoch : Nat) :
    (currentRows table epoch).map RowChange.entry =
      numbered epoch (table.records.map DbfRecord.state) := by
  rw [← entries_eq_numbered h, currentRows, map_map]
  rfl

theorem previousRows_entries (h : Numbered table.records) (epoch : Nat) :
    (previousRows table epoch).map RowChange.entry =
      numbered epoch ((table.records.map DbfRecord.state).map retired) := by
  rw [map_map, ← entries_eq_numbered h, previousRows, map_map]
  rfl

theorem changedRows_entries {previous current : List DbfRecord} (h : Numbered current)
    (epoch : Nat) :
    (changedRows previous current epoch).map RowChange.entry =
      (numbered epoch (current.map DbfRecord.state)).filter
        (isNew (previous.map DbfRecord.state)) := by
  have hall : numbered epoch (current.map DbfRecord.state) =
      current.zipIdx.map fun entry => (rowChange entry.1 epoch).entry := by
    rw [← entries_eq_numbered h]
    conv_lhs => rw [← zipIdx_map_fst 0 current, map_map]
    rfl
  rw [hall, filter_map, changedRows, map_map]
  have hsame : current.zipIdx.filter (fun entry =>
      !(previous[entry.2]?.any fun old => sameRow old entry.1)) =
        current.zipIdx.filter
          (isNew (previous.map DbfRecord.state) ∘ fun entry =>
            (rowChange entry.1 epoch).entry) := by
    apply filter_congr
    intro entry hentry
    obtain ⟨record, index⟩ := entry
    have hrecord : current[index]? = some record := by
      simpa using mem_zipIdx_iff_getElem?.mp hentry
    have hnumber : (rowChange record epoch).entry.number - 1 = index := by
      have hpos := h index record hrecord
      show record.number - 1 = index
      omega
    simp only [Function.comp_apply, isNew, hnumber, getElem?_map]
    cases previous[index]? with
    | none => rfl
    | some old =>
      simp only [Option.any_some, Option.map_some, ne_eq, Option.some.injEq]
      have hstate : (rowChange record epoch).entry.row = record.state := rfl
      rw [hstate, decide_not, Bool.not_inj_iff]
      rw [Bool.eq_iff_iff, sameRow_iff, decide_eq_true_iff]
  rw [hsame]
  rfl

section Images
variable [Runtime] [Filters] [Serde]

/-- The image that a snapshot holds. -/
def Shows (snapshot : Snapshot) (image : Image RowState) : Prop :=
  ∃ table, fromSnapshot snapshot = .ok table ∧
    image = ⟨snapshot.rowEpoch, table.records.map DbfRecord.state⟩

variable {snapshot : Snapshot}

theorem coherent_fromSnapshot (h : fromSnapshot snapshot = .ok table) : Coherent table := by
  obtain ⟨schema, -, h⟩ := bind_eq_ok.mp h
  exact coherent_assemble h

theorem fromSnapshot_congr {left right : Snapshot} (hdbf : left.dbf = right.dbf)
    (hmemo : left.memo = right.memo) (hschema : left.schema = right.schema) :
    fromSnapshot left = fromSnapshot right := by
  unfold fromSnapshot
  rw [hdbf, hmemo, hschema]

/-- A commit records its rows as the next image of the log. -/
structure Recorded (previous : Option (Image RowState)) (snapshot : Snapshot)
    (image : Image RowState) : Prop where
  shows : Shows snapshot image
  changes : ∃ changes, snapshot.rowChanges = some changes ∧
    changes.map RowChange.entry = delta retired previous image
  follows : ∀ last ∈ previous, Epochs.Follows last image
  positive : 0 < image.epoch
  small : image.epoch < u64Size

variable {forceNewEpoch : Bool} {current built : Snapshot}

theorem changesForCommit_recorded {previous : Option Snapshot} {image : Option (Image RowState)}
    (h : changesForCommit previous current forceNewEpoch = .ok built)
    (hprevious : Option.Rel Shows previous image)
    (hepoch : ∀ last ∈ image, 0 < last.epoch ∧ last.epoch < u64Size) :
    ∃ next, Recorded image built next := by
  obtain ⟨currentTable, hcurrent, h⟩ := bind_eq_ok.mp h
  have hnumbered : Numbered currentTable.records := (coherent_fromSnapshot hcurrent).numbered
  cases hprevious with
  | none =>
    cases h
    exact ⟨⟨1, currentTable.records.map DbfRecord.state⟩, ⟨currentTable, hcurrent, rfl⟩,
      ⟨_, rfl, currentRows_entries hnumbered 1⟩, (by rintro _ ⟨⟩), Nat.one_pos,
      (by decide : 1 < u64Size)⟩
  | @some last lastImage hlast =>
    obtain ⟨lastTable, hlastTable, rfl⟩ := hlast
    obtain ⟨hpos, hsmall⟩ := hepoch _ rfl
    obtain ⟨otherTable, hother, h⟩ := bind_eq_ok.mp h
    cases hother.symm.trans hlastTable
    have heffective : effectiveEpoch last = last.rowEpoch := Nat.max_eq_left hpos
    have hlastNumbered : Numbered lastTable.records := (coherent_fromSnapshot hlastTable).numbered
    unfold changesBetween at h
    rw [lift_eq_ok, heffective] at h
    split at h
    · obtain ⟨⟨⟩, hroom, h⟩ := bind_eq_ok.mp h
      cases h
      rw [reject_eq_ok, Nat.not_le] at hroom
      refine ⟨⟨last.rowEpoch + 1, currentTable.records.map DbfRecord.state⟩,
        ⟨currentTable, hcurrent, rfl⟩, ⟨_, rfl, ?_⟩, ?_, Nat.succ_pos _, hroom⟩
      · rw [delta, if_neg (Nat.ne_of_lt (Nat.lt_succ_self _)), map_append,
          previousRows_entries hlastNumbered, currentRows_entries hnumbered]
      · rintro _ ⟨⟩
        exact .inr (Nat.lt_succ_self _)
    · rename_i hsame
      cases h
      refine ⟨⟨last.rowEpoch, currentTable.records.map DbfRecord.state⟩,
        ⟨currentTable, hcurrent, rfl⟩, ⟨_, rfl, ?_⟩, ?_, hpos, hsmall⟩
      · rw [delta, if_pos rfl, changedRows_entries hnumbered]
      · rintro _ ⟨⟩
        refine .inl ⟨rfl, ?_⟩
        simp only [startsEpoch, Bool.or_eq_true, decide_eq_true_eq, not_or, Nat.not_lt] at hsame
        simpa using hsame.2

/-- A snapshot in the epoch of the one before keeps its layout and its rows; otherwise its
epoch is the next one. -/
def FollowsOn (last snapshot : Snapshot) : Prop :=
  ∃ lastTable table, fromSnapshot last = .ok lastTable ∧ fromSnapshot snapshot = .ok table ∧
    (snapshot.rowEpoch = effectiveEpoch last ∧
        startsEpoch last snapshot lastTable table false = false ∨
      snapshot.rowEpoch = effectiveEpoch last + 1)

variable {last : Snapshot}

theorem changesForCommit_followsOn
    (h : changesForCommit (some last) current forceNewEpoch = .ok built) :
    FollowsOn last built ∧ (forceNewEpoch = true → built.rowEpoch = effectiveEpoch last + 1) ∧
      ∀ lastTable table, fromSnapshot last = .ok lastTable → fromSnapshot current = .ok table →
        startsEpoch last current lastTable table forceNewEpoch = false →
          built.rowEpoch = effectiveEpoch last := by
  obtain ⟨table, htable, h⟩ := bind_eq_ok.mp h
  obtain ⟨lastTable, hlast, h⟩ := bind_eq_ok.mp h
  rw [lift_eq_ok] at h
  unfold changesBetween at h
  split at h
  · rename_i hstarts
    obtain ⟨-, -, h⟩ := bind_eq_ok.mp h
    cases h
    refine ⟨⟨lastTable, table, hlast, htable, .inr rfl⟩, fun _ => rfl, ?_⟩
    intro otherLast other hotherLast hother hquiet
    cases hlast.symm.trans hotherLast
    cases htable.symm.trans hother
    rw [hquiet] at hstarts
    cases hstarts
  · rename_i hquiet
    cases h
    rw [Bool.not_eq_true] at hquiet
    refine ⟨⟨lastTable, table, hlast, htable, .inl ⟨rfl, ?_⟩⟩, ?_, fun _ _ _ _ _ => rfl⟩
    · simp only [startsEpoch, Bool.or_eq_false_iff] at hquiet ⊢
      exact ⟨⟨⟨⟨trivial, hquiet.1.1.1.2⟩, hquiet.1.1.2⟩, hquiet.1.2⟩, hquiet.2⟩
    · rintro rfl
      simp [startsEpoch] at hquiet

variable {other : Snapshot}

theorem FollowsOn.congr {previous : Snapshot} (h : FollowsOn last snapshot)
    (hdbf' : previous.dbf = last.dbf)
    (hmemo' : previous.memo = last.memo) (hschema' : previous.schema = last.schema)
    (hepoch' : previous.rowEpoch = last.rowEpoch) (heqv : other.eqv snapshot = true) :
    FollowsOn previous other := by
  obtain ⟨lastTable, table, hlast, htable, h⟩ := h
  simp only [Snapshot.eqv, Bool.and_eq_true, decide_eq_true_eq] at heqv
  obtain ⟨⟨⟨⟨hdbf, hmemo⟩, hschema⟩, hepoch⟩, -⟩ := heqv
  refine ⟨lastTable, table, (fromSnapshot_congr hdbf' hmemo' hschema').trans hlast,
    (fromSnapshot_congr hdbf hmemo hschema).trans htable, ?_⟩
  rw [effectiveEpoch, hepoch', ← effectiveEpoch, hepoch]
  refine h.imp (fun hsame => ⟨hsame.1, ?_⟩) id
  have hquiet := hsame.2
  unfold startsEpoch at hquiet ⊢
  rwa [hschema, hschema']

theorem Recorded.congr {previous : Option (Image RowState)} {image : Image RowState}
    (h : Recorded previous snapshot image) (heqv : other.eqv snapshot = true) :
    Recorded previous other image := by
  obtain ⟨⟨table, htable, rfl⟩, ⟨changes, hchanges, hentries⟩, hfollows, hpos, hsmall⟩ := h
  simp only [Snapshot.eqv, Bool.and_eq_true, decide_eq_true_eq] at heqv
  obtain ⟨⟨⟨⟨hdbf, hmemo⟩, hschema⟩, hepoch⟩, hrows⟩ := heqv
  refine ⟨⟨table, (fromSnapshot_congr hdbf hmemo hschema).trans htable, by rw [hepoch]⟩, ?_,
    hfollows, hpos, hsmall⟩
  rw [hchanges, eqvOption_iff rowChanges_eqv_iff, Option.map_some, Option.map_eq_some_iff] at hrows
  obtain ⟨others, hothers, hsame⟩ := hrows
  exact ⟨others, hothers, hsame.trans hentries⟩

end Images

end TxBase.Dbf
