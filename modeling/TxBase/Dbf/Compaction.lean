import TxBase.Dbf.CommittedRows

/-! The retained snapshots of a collection are rebuilt, `compact_snapshots` of
`src/dbf/row_mvcc.rs`: the first is a baseline in the epoch 1, and each later one takes the
next epoch until the old number is reached. -/
namespace TxBase.Dbf
open Lib Json List
open Epochs (renumbered Image renumber)
open OrderedMap (Ascending)

/-- A committed snapshot with the image that it shows. -/
structure Commit where
  transactionId : Nat
  snapshot : Snapshot
  image : Image RowState

def Commit.entry (commit : Commit) : Nat × Snapshot := (commit.transactionId, commit.snapshot)

section Chronicle
variable [Runtime] [Filters] [Serde]

/-- A commit follows another one and is recorded against it. -/
structure NextTo (last next : Commit) : Prop where
  later : last.transactionId < next.transactionId
  followsOn : FollowsOn last.snapshot next.snapshot
  recorded : Recorded (some last.image) next.snapshot next.image

/-- Commits in a row, the first of them recorded against nothing or something before. -/
structure Chronicle (before : Option (Image RowState)) (run : List Commit) : Prop where
  first : ∀ commit ∈ run.head?, Recorded before commit.snapshot commit.image
  chain : run.IsChain NextTo
  positive : ∀ commit ∈ run, commit.transactionId ≠ 0

theorem Linked.chronicle {entries : OrderedMap Nat Snapshot} {images : List (Image RowState)}
    (h : Linked entries images) : ∃ run : List Commit, run.map Commit.entry = entries ∧
      run.map Commit.image = images ∧ Chronicle none run := by
  induction h with
  | nil => exact ⟨[], rfl, rfl, by simp, .nil, by simp⟩
  | @snoc entries images txn snapshot image h hpositive hlater hfollowsOn hrecorded ih =>
    obtain ⟨run, rfl, rfl, hrun⟩ := ih
    refine ⟨run ++ [⟨txn, snapshot, image⟩], by simp [Commit.entry], by simp, ?_, ?_, ?_⟩
    · intro commit hcommit
      rw [head?_append] at hcommit
      cases hhead : run.head? with
      | some first =>
        rw [hhead] at hcommit
        cases hcommit
        exact hrun.first _ hhead
      | none =>
        rw [hhead] at hcommit
        cases hcommit
        rw [head?_eq_none_iff.mp hhead] at hrecorded
        exact hrecorded
    · refine hrun.chain.append (.singleton _) ?_
      intro last hlast next hnext
      cases hnext
      refine ⟨hlater last.entry (mem_map_of_mem (mem_of_getLast? hlast)), ?_, ?_⟩
      · exact hfollowsOn last.snapshot (by rw [getLast?_map, Option.mem_def.mp hlast]; rfl)
      · rw [getLast?_map, Option.mem_def.mp hlast] at hrecorded
        exact hrecorded
    · intro commit hcommit
      rcases mem_append.mp hcommit with hcommit | hcommit
      · exact hrun.positive commit hcommit
      · rw [mem_singleton.mp hcommit]
        exact hpositive

variable {before : Option (Image RowState)}

theorem Chronicle.behind {front back : List Commit} (h : Chronicle before (front ++ back)) :
    Chronicle ((front.getLast?.map Commit.image).or before) back := by
  obtain ⟨hfirst, hchain, hpositive⟩ := h
  rw [isChain_append] at hchain
  refine ⟨?_, hchain.2.1, fun commit hcommit => hpositive commit (mem_append_right _ hcommit)⟩
  intro commit hcommit
  cases hlast : front.getLast? with
  | none =>
    rw [getLast?_eq_none_iff] at hlast
    subst hlast
    exact hfirst commit hcommit
  | some last => exact (hchain.2.2 last hlast commit hcommit).recorded

variable {run : List Commit}

theorem Chronicle.ascending (h : Chronicle before run) :
    Ascending (run.map Commit.entry) := by
  have hids : (run.map Commit.transactionId).IsChain (· < ·) :=
    (isChain_map Commit.transactionId).mpr (h.chain.imp fun _ _ hnext => hnext.later)
  have hpairwise := isChain_iff_pairwise.mp hids
  rw [pairwise_map] at hpairwise
  exact pairwise_map.mpr hpairwise

theorem Chronicle.linked (h : Chronicle none run) :
    Linked (run.map Commit.entry) (run.map Commit.image) := by
  induction run using List.reverseRecOn with
  | nil => exact .nil
  | append_singleton front last ih =>
    obtain ⟨hfront, -, hlink⟩ := isChain_append.mp h.chain
    have hbehind := h.behind
    have hascending := h.ascending
    rw [map_append, Ascending, pairwise_append] at hascending
    rw [map_append, map_append]
    refine .snoc (ih ⟨?_, hfront, ?_⟩) ?_ ?_ ?_ ?_
    · intro commit hcommit
      refine h.first commit ?_
      rw [head?_append, Option.mem_def.mp hcommit]
      rfl
    · exact fun commit hcommit => h.positive commit (mem_append_left _ hcommit)
    · exact h.positive last (mem_append_right _ mem_cons_self)
    · intro entry hentry
      exact hascending.2.2 entry hentry last.entry mem_cons_self
    · intro snapshot hsnapshot
      rw [getLast?_map] at hsnapshot
      cases hcommit : front.getLast? with
      | none =>
        rw [hcommit] at hsnapshot
        cases hsnapshot
      | some commit =>
        rw [hcommit] at hsnapshot
        cases hsnapshot
        exact (hlink commit hcommit last rfl).followsOn
    · have hrecorded := hbehind.first last rfl
      rwa [Option.or_none, ← getLast?_map] at hrecorded

/-- What a rebuilt snapshot has in common with the one it replaces. -/
def SameFiles (left right : Snapshot) : Prop :=
  left.dbf = right.dbf ∧ left.memo = right.memo ∧ left.schema = right.schema

theorem SameFiles.fromSnapshot {left right : Snapshot} (h : SameFiles left right) :
    fromSnapshot left = fromSnapshot right := fromSnapshot_congr h.1 h.2.1 h.2.2

/-- The commit as it is rebuilt at a position. -/
def Commit.Rebuilds (position : Nat) (commit rebuilt : Commit) : Prop :=
  rebuilt.transactionId = commit.transactionId ∧ SameFiles rebuilt.snapshot commit.snapshot ∧
    rebuilt.image = renumbered position commit.image

variable {snapshot : Snapshot}

theorem Recorded.rowEpoch {previous : Option (Image RowState)} {image : Image RowState}
    (h : Recorded previous snapshot image) :
    snapshot.rowEpoch = image.epoch := by
  obtain ⟨table, -, rfl⟩ := h.shows
  rfl

variable {built : Snapshot} {next last : Commit} {other : Option (Image RowState)}
  {position : Nat}

theorem rebuild_next {rebuilt : Commit} (hlast : Recorded before last.snapshot last.image)
    (hnext : NextTo last next) (hposition : 0 < position)
    (hrebuilds : last.Rebuilds position rebuilt)
    (hrebuilt : Recorded other rebuilt.snapshot rebuilt.image)
    (h : changesForCommit (some rebuilt.snapshot) next.snapshot (next.snapshot.rowEpoch ≠ 0 &&
      next.snapshot.rowEpoch ≠ effectiveEpoch rebuilt.snapshot) = .ok built) :
    NextTo rebuilt
        ⟨next.transactionId, built, renumbered (position + 1) next.image⟩ ∧
      next.Rebuilds (position + 1)
        ⟨next.transactionId, built, renumbered (position + 1) next.image⟩ := by
  obtain ⟨hid, hfiles, himage⟩ := hrebuilds
  have hlastEpoch : effectiveEpoch last.snapshot = last.image.epoch := by
    rw [effectiveEpoch, hlast.rowEpoch]
    exact Nat.max_eq_left hlast.positive
  have hrebuiltEpoch : effectiveEpoch rebuilt.snapshot = min last.image.epoch position := by
    rw [effectiveEpoch, hrebuilt.rowEpoch, himage]
    exact Nat.max_eq_left (Nat.lt_min.mpr ⟨hlast.positive, hposition⟩)
  obtain ⟨hfollowsOn, hforced, hquiet⟩ := changesForCommit_followsOn h
  obtain ⟨image, himageRecorded⟩ := changesForCommit_recorded h (.some hrebuilt.shows)
    (by rintro _ ⟨⟩; exact ⟨hrebuilt.positive, hrebuilt.small⟩)
  obtain ⟨lastTable, table, hlastTable, htable, hsteps⟩ := hnext.followsOn
  obtain ⟨-, hdbf, hmemo, hschema, -⟩ := changesForCommit_eq_ok h
    (by rintro _ ⟨⟩; exact hrebuilt.rowEpoch ▸ hrebuilt.small)
  have hfilesBuilt : SameFiles built next.snapshot := ⟨hdbf, hmemo, hschema⟩
  have hnextEpoch : next.snapshot.rowEpoch = next.image.epoch := hnext.recorded.rowEpoch
  have hnextPositive := hnext.recorded.positive
  have hepoch : built.rowEpoch = min next.image.epoch (position + 1) := by
    rw [hlastEpoch] at hsteps
    rw [hrebuiltEpoch] at hforced hquiet
    by_cases hreached : next.snapshot.rowEpoch = min last.image.epoch position
    · -- The number is reached and the commit keeps the layout, so that no epoch starts.
      rcases hsteps with ⟨hkept, hstarts⟩ | hnew
      · rw [hquiet lastTable table (hfiles.fromSnapshot.trans hlastTable) htable]
        · omega
        · unfold startsEpoch at hstarts ⊢
          rw [hfiles.2.2]
          simpa [hreached] using hstarts
      · omega
    · have hforce : (decide (next.snapshot.rowEpoch ≠ 0) &&
          decide (next.snapshot.rowEpoch ≠ min last.image.epoch position)) = true := by
        simp only [ne_eq, Bool.and_eq_true, decide_eq_true_eq]
        exact ⟨by omega, hreached⟩
      rw [hforced hforce]
      rcases hsteps with ⟨hkept, -⟩ | hnew <;> omega
  have himageEq : image = renumbered (position + 1) next.image := by
    obtain ⟨builtTable, hbuiltTable, rfl⟩ := himageRecorded.shows
    obtain ⟨nextTable, hnextTable, hshown⟩ := hnext.recorded.shows
    cases (hfilesBuilt.fromSnapshot.symm.trans hbuiltTable).symm.trans hnextTable
    rw [hepoch, hshown]
    rfl
  subst himageEq
  exact ⟨⟨hid ▸ hnext.later, hfollowsOn, himageRecorded⟩, rfl, hfilesBuilt, rfl⟩

variable {entries : List (Nat × Snapshot)}

theorem rebuild_from {rebuilt : Commit} (hlast : Recorded before last.snapshot last.image)
    (hchain : (last :: run).IsChain NextTo) (hposition : 0 < position)
    (hrebuilds : last.Rebuilds position rebuilt)
    (hrebuilt : Recorded other rebuilt.snapshot rebuilt.image)
    (h : compactSnapshotsFrom (some rebuilt.snapshot) (run.map Commit.entry) = .ok entries) :
    ∃ others : List Commit, others.map Commit.entry = entries ∧
      others.map Commit.image = renumber (position + 1) (run.map Commit.image) ∧
      (rebuilt :: others).IsChain NextTo ∧
      List.Forall₂ (fun commit other => other.transactionId = commit.transactionId ∧
        SameFiles other.snapshot commit.snapshot) run others := by
  induction run generalizing before other last rebuilt position entries with
  | nil =>
    cases h
    exact ⟨[], rfl, rfl, .singleton _, .nil⟩
  | cons next rest ih =>
    rw [isChain_cons_cons] at hchain
    simp only [map_cons, Commit.entry, compactSnapshotsFrom, Option.any_some, bind_eq_ok,
      Except.ok.injEq] at h
    obtain ⟨built, hbuilt, more, hmore, rfl⟩ := h
    obtain ⟨hnext, hnextRebuilds⟩ := rebuild_next hlast hchain.1 hposition hrebuilds hrebuilt hbuilt
    obtain ⟨others, rfl, himages, hothers, hfiles⟩ := ih hchain.1.recorded hchain.2
      (Nat.succ_pos position) hnextRebuilds hnext.recorded hmore
    refine ⟨_ :: others, rfl, ?_, isChain_cons_cons.mpr ⟨hnext, hothers⟩,
      .cons ⟨rfl, hnextRebuilds.2.1⟩ hfiles⟩
    rw [map_cons, map_cons, renumber, himages]

theorem rebuild (hrun : Chronicle before run)
    (h : compactSnapshots (run.map Commit.entry) = .ok entries) :
    ∃ others : List Commit, others.map Commit.entry = entries ∧
      others.map Commit.image = renumber 1 (run.map Commit.image) ∧
      Chronicle none others ∧
      List.Forall₂ (fun commit other => other.transactionId = commit.transactionId ∧
        SameFiles other.snapshot commit.snapshot) run others := by
  cases run with
  | nil =>
    cases h
    exact ⟨[], rfl, rfl, ⟨by simp, .nil, by simp⟩, .nil⟩
  | cons first rest =>
    simp only [map_cons, Commit.entry, compactSnapshots, compactSnapshotsFrom, bind_eq_ok,
      Except.ok.injEq] at h
    obtain ⟨built, hbuilt, more, hmore, rfl⟩ := h
    have hfirst := hrun.first first rfl
    obtain ⟨image, himage⟩ := changesForCommit_recorded hbuilt .none (by rintro _ ⟨⟩)
    obtain ⟨table, htable, hwritten⟩ := bind_eq_ok.mp hbuilt
    cases hwritten
    have hfiles : SameFiles (withChanges first.snapshot 1 (currentRows table 1)) first.snapshot :=
      ⟨rfl, rfl, rfl⟩
    have himageEq : image = renumbered 1 first.image := by
      obtain ⟨builtTable, hbuiltTable, rfl⟩ := himage.shows
      obtain ⟨firstTable, hfirstTable, hshown⟩ := hfirst.shows
      cases (hfiles.fromSnapshot.symm.trans hbuiltTable).symm.trans hfirstTable
      have hpositive := hfirst.positive
      rw [hshown] at hpositive ⊢
      rw [renumbered, Nat.min_eq_right hpositive]
      rfl
    subst himageEq
    have hrebuilds : first.Rebuilds 1 ⟨first.transactionId, _, renumbered 1 first.image⟩ :=
      ⟨rfl, hfiles, rfl⟩
    obtain ⟨others, rfl, himages, hothers, hrest⟩ :=
      rebuild_from hfirst hrun.chain Nat.one_pos hrebuilds himage hmore
    have hall : List.Forall₂ (fun commit other => other.transactionId = commit.transactionId ∧
        SameFiles other.snapshot commit.snapshot) (first :: rest)
        (⟨first.transactionId, _, renumbered 1 first.image⟩ :: others) :=
      .cons ⟨rfl, hfiles⟩ hrest
    refine ⟨_, rfl, ?_, ⟨?_, hothers, ?_⟩, hall⟩
    · rw [map_cons, map_cons, renumber, himages]
    · rintro _ ⟨⟩
      exact himage
    · intro commit hcommit
      obtain ⟨original, horiginal, hid, -⟩ := exists_of_forall₂ hall hcommit
      rw [hid]
      exact hrun.positive original horiginal

/-- What a commit writes: words that fit, and values of rows of the given snapshots. -/
structure Writable (sources : List Snapshot) (snapshot : Snapshot) : Prop where
  table : ∃ table, fromSnapshot snapshot = .ok table
  positive : 0 < snapshot.rowEpoch
  small : snapshot.rowEpoch < u64Size
  rowChanges : snapshot.rowChanges = some snapshot.changes
  fits : ∀ change ∈ snapshot.changes, change.Fits
  values : ∀ change ∈ snapshot.changes, ∃ source ∈ sources, ∃ table record,
    fromSnapshot source = .ok table ∧ record ∈ table.records ∧ change.values = record.values

variable {previous : Option Snapshot} {sources : List Snapshot}

theorem writable_of_changesForCommit {current : Snapshot} {forceNewEpoch : Bool}
    (h : changesForCommit previous current forceNewEpoch = .ok built)
    (hsmall : ∀ last ∈ previous, last.rowEpoch < u64Size) (hcurrent : current ∈ sources)
    (hprevious : ∀ last ∈ previous, ∃ source ∈ sources, SameFiles last source) :
    Writable sources built ∧ SameFiles built current := by
  obtain ⟨htable, hdbf, hmemo, hschema, hpositive, hbound, hchanges⟩ :=
    changesForCommit_eq_ok h hsmall
  have hfiles : SameFiles built current := ⟨hdbf, hmemo, hschema⟩
  refine ⟨⟨htable, hpositive, hbound, hchanges, changesForCommit_fits h hsmall, ?_⟩, hfiles⟩
  intro change hchange
  obtain ⟨snapshot, table, record, hsnapshot, hread, hrecord, hvalues, -⟩ :=
    changes_values h change hchange
  rcases hsnapshot with rfl | hsnapshot
  · exact ⟨current, hcurrent, table, record, hfiles.fromSnapshot ▸ hread, hrecord, hvalues⟩
  · obtain ⟨source, hsource, hsame⟩ := hprevious snapshot hsnapshot
    exact ⟨source, hsource, table, record, hsame.fromSnapshot ▸ hread, hrecord, hvalues⟩

variable {rebuilt : List (Nat × Snapshot)}

theorem writable_of_compact (h : compactSnapshotsFrom previous entries = .ok rebuilt)
    (hsmall : ∀ last ∈ previous, last.rowEpoch < u64Size)
    (hentries : ∀ entry ∈ entries, entry.2 ∈ sources)
    (hprevious : ∀ last ∈ previous, ∃ source ∈ sources, SameFiles last source) :
    ∀ entry ∈ rebuilt, Writable sources entry.2 := by
  induction entries generalizing previous rebuilt with
  | nil =>
    cases h
    intro entry hentry
    cases hentry
  | cons current rest ih =>
    obtain ⟨txn, snapshot⟩ := current
    simp only [compactSnapshotsFrom, bind_eq_ok, Except.ok.injEq] at h
    obtain ⟨built, hbuilt, others, hothers, rfl⟩ := h
    have hsource := hentries (txn, snapshot) mem_cons_self
    obtain ⟨hwritable, hfiles⟩ := writable_of_changesForCommit hbuilt hsmall hsource hprevious
    have hrest := ih hothers (by rintro _ ⟨⟩; exact hwritable.small)
      (forall_mem_cons.mp hentries).2
      (by rintro _ ⟨⟩; exact ⟨snapshot, hsource, hfiles⟩)
    exact forall_mem_cons.mpr ⟨hwritable, hrest⟩

/-- Commits that equal those of another history. -/
def Commit.Alike (commit other : Commit) : Prop :=
  other.transactionId = commit.transactionId ∧ other.image = commit.image ∧
    other.snapshot.eqv commit.snapshot = true

theorem NextTo.congr {otherLast otherNext : Commit} (h : NextTo last next)
    (hlast : last.Alike otherLast)
    (hnext : next.Alike otherNext) : NextTo otherLast otherNext := by
  obtain ⟨hlastId, hlastImage, hlastEqv⟩ := hlast
  obtain ⟨hnextId, hnextImage, hnextEqv⟩ := hnext
  simp only [Snapshot.eqv, Bool.and_eq_true, decide_eq_true_eq] at hlastEqv
  obtain ⟨⟨⟨⟨hdbf, hmemo⟩, hschema⟩, hepoch⟩, -⟩ := hlastEqv
  refine ⟨?_, h.followsOn.congr hdbf hmemo hschema hepoch hnextEqv, ?_⟩
  · rw [hlastId, hnextId]
    exact h.later
  · rw [hlastImage, hnextImage]
    exact h.recorded.congr hnextEqv

theorem Chronicle.congr {others : List Commit} (h : Chronicle before run)
    (halike : List.Forall₂ Commit.Alike run others) : Chronicle before others := by
  obtain ⟨hfirst, hchain, hpositive⟩ := h
  refine ⟨?_, ?_, ?_⟩
  · cases halike with
    | nil => exact hfirst
    | cons hhead hrest =>
      rintro _ ⟨⟩
      rw [hhead.2.1]
      exact (hfirst _ rfl).congr hhead.2.2
  · clear hfirst hpositive
    induction halike with
    | nil => exact .nil
    | cons hhead hrest ih =>
      cases hrest with
      | nil => exact .singleton _
      | cons hnext hmore =>
        rw [isChain_cons_cons] at hchain ⊢
        exact ⟨hchain.1.congr hhead hnext, ih hchain.2⟩
  · intro commit hcommit
    obtain ⟨original, horiginal, hid, -⟩ := exists_of_forall₂ halike hcommit
    rw [hid]
    exact hpositive original horiginal

/-- The snapshots that a rebuilding leaves are recorded one against the other, whatever the
snapshots were that it rebuilds. -/
theorem chain_of_compact (hlast : Recorded before last.snapshot last.image)
    (hascending : Ascending (last.entry :: entries))
    (h : compactSnapshotsFrom (some last.snapshot) entries = .ok rebuilt) :
    ∃ others : List Commit, others.map Commit.entry = rebuilt ∧ (last :: others).IsChain NextTo := by
  induction entries generalizing last before rebuilt with
  | nil =>
    cases h
    exact ⟨[], rfl, .singleton _⟩
  | cons current rest ih =>
    obtain ⟨txn, snapshot⟩ := current
    simp only [compactSnapshotsFrom, bind_eq_ok, Except.ok.injEq] at h
    obtain ⟨built, hbuilt, more, hmore, rfl⟩ := h
    obtain ⟨hfollowsOn, -⟩ := changesForCommit_followsOn hbuilt
    obtain ⟨image, himage⟩ := changesForCommit_recorded hbuilt (.some hlast.shows)
      (by rintro _ ⟨⟩; exact ⟨hlast.positive, hlast.small⟩)
    obtain ⟨hbehind, hrest⟩ := pairwise_cons.mp hascending
    have hlater : last.transactionId < txn :=
      hbehind (txn, snapshot) mem_cons_self
    have hascendingNext : Ascending
        ((⟨txn, built, image⟩ : Commit).entry :: rest) :=
      pairwise_cons.mpr (pairwise_cons.mp hrest)
    obtain ⟨others, rfl, hothers⟩ := ih himage hascendingNext hmore
    exact ⟨⟨txn, built, image⟩ :: others, rfl,
      isChain_cons_cons.mpr ⟨⟨hlater, hfollowsOn, himage⟩, hothers⟩⟩

/-- A snapshot and the one that a rebuilding puts in its place. -/
def Replaces (source rebuilt : Nat × Snapshot) : Prop :=
  rebuilt.1 = source.1 ∧ SameFiles rebuilt.2 source.2

theorem replaces_of_compact (h : compactSnapshotsFrom previous entries = .ok rebuilt)
    (hsmall : ∀ last ∈ previous, last.rowEpoch < u64Size) :
    List.Forall₂ Replaces entries rebuilt := by
  induction entries generalizing previous rebuilt with
  | nil =>
    cases h
    exact .nil
  | cons current rest ih =>
    obtain ⟨txn, snapshot⟩ := current
    simp only [compactSnapshotsFrom, bind_eq_ok, Except.ok.injEq] at h
    obtain ⟨built, hbuilt, more, hmore, rfl⟩ := h
    obtain ⟨-, hdbf, hmemo, hschema, -, hbound, -⟩ := changesForCommit_eq_ok hbuilt hsmall
    exact .cons ⟨rfl, hdbf, hmemo, hschema⟩ (ih hmore (by rintro _ ⟨⟩; exact hbound))

theorem chronicle_of_compact (hascending : Ascending entries)
    (hpositive : ∀ entry ∈ entries, entry.1 ≠ 0) (h : compactSnapshots entries = .ok rebuilt) :
    ∃ others : List Commit, others.map Commit.entry = rebuilt ∧ Chronicle none others := by
  have hreplaces := replaces_of_compact h (by rintro _ ⟨⟩)
  have hnonzero : ∀ others : List Commit, others.map Commit.entry = rebuilt →
      ∀ commit ∈ others, commit.transactionId ≠ 0 := by
    rintro others rfl commit hcommit
    obtain ⟨entry, hentry, hid, -⟩ := exists_of_forall₂ hreplaces (mem_map_of_mem hcommit)
    have hsource := hpositive entry hentry
    rwa [← hid] at hsource
  cases entries with
  | nil =>
    cases h
    exact ⟨[], rfl, by simp, .nil, by simp⟩
  | cons current rest =>
    obtain ⟨txn, snapshot⟩ := current
    simp only [compactSnapshots, compactSnapshotsFrom, bind_eq_ok, Except.ok.injEq] at h
    obtain ⟨built, hbuilt, more, hmore, rfl⟩ := h
    obtain ⟨image, himage⟩ := changesForCommit_recorded hbuilt .none (by rintro _ ⟨⟩)
    have hascendingFirst : Ascending
        ((⟨txn, built, image⟩ : Commit).entry :: rest) :=
      pairwise_cons.mpr (pairwise_cons.mp hascending)
    obtain ⟨others, rfl, hothers⟩ := chain_of_compact himage hascendingFirst hmore
    refine ⟨⟨txn, built, image⟩ :: others, rfl, ?_, hothers, hnonzero _ rfl⟩
    rintro _ ⟨⟩
    exact himage

end Chronicle

end TxBase.Dbf
