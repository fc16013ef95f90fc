import TxBase.Dbf.Collected

/-! `gc_with_row_retention` of `src/dbf/mvcc.rs`: the history that a collection leaves, and
the histories that commits and collections build. -/
namespace TxBase.Dbf
open Lib Json List
open Outcome (lift_eq_ok)
open OrderedMap (Ascending)
variable {records : List MvccRecord} {changes : OrderedMap Nat (List RowChange)}
  {log after : LogFile}
  {keepLast : Nat} {keepRows : Option Nat} {snapshots kept : OrderedMap Nat Snapshot}

section Words

variable {entry : Nat × List RowChange}

theorem mem_detachedOf :
    entry ∈ detachedOf records ↔ MvccRecord.rowHistory entry.1 entry.2 ∈ records := by
  obtain ⟨txn, changes⟩ := entry
  rw [detachedOf, mem_filterMap]
  constructor
  · rintro ⟨record, hrecord, heq⟩
    cases record with
    | rowHistory id own =>
      cases heq
      exact hrecord
    | prepare id snapshot => cases heq
    | commit id => cases heq
  · intro hrecord
    exact ⟨_, hrecord, rfl⟩

/-- A change of a row, as the records hold it. -/
def RowChange.Valid (change : RowChange) : Prop :=
  change.Fits ∧ change.epoch ≠ 0 ∧ change.recordNumber ≠ 0

theorem words_of_read [Serde] (hread : readMvccRecords log = .ok records)
    (hsnapshots : committedSnapshots records = .ok snapshots) :
    ∀ entry ∈ detachedOf records ++ changesOf snapshots,
      entry.1 ≠ 0 ∧ entry.1 < u64Size ∧ ∀ change ∈ entry.2, change.Valid := by
  intro entry hentry
  rcases mem_append.mp hentry with hentry | hentry
  · obtain ⟨payloads, -, hrecords⟩ := bind_eq_ok.mp hread
    obtain ⟨payload, -, hpayload⟩ := mem_of_mapM_eq_ok hrecords (mem_detachedOf.mp hentry)
    obtain ⟨hpositive, hsmall, -, hchanges⟩ := decodeRecord_words hpayload
    exact ⟨hpositive, hsmall, hchanges⟩
  · obtain ⟨source, hsource, rfl⟩ := mem_map.mp hentry
    obtain ⟨payload, hpayload⟩ :=
      prepare_of_read (bind_eq_ok.mpr ⟨records, hread, hsnapshots⟩) source hsource
    obtain ⟨hpositive, hsmall, -, hchanges⟩ := decodeRecord_words hpayload
    exact ⟨hpositive, hsmall, hchanges⟩

theorem mem_detachedFor {retained : List (Nat × Snapshot)} (horderly : Orderly changes)
    (h : entry ∈ detachedFor keepRows retained changes) :
    (∃ first ∈ retained.head?, entry.1 < first.1) ∧ entry.2 ≠ [] ∧
      ∀ change ∈ entry.2, (entry.1, change) ∈ flatChanges changes := by
  unfold detachedFor at h
  split at h
  · rename_i keep firstRetained snapshot hfirst
    have hown := (mem_detached.mp h).1
    have hflat : ∀ change ∈ entry.2, (entry.1, change) ∈ flatChanges changes ∧
        entry.1 < firstRetained := by
      intro change hchange
      have hmem := (mem_flatChanges_detached horderly).mp
        (mem_flatChanges.mpr ⟨entry.2, h, hchange⟩)
      exact ⟨hmem.1, hmem.2.1⟩
    obtain ⟨change, hchange⟩ := exists_mem_of_ne_nil _ hown
    exact ⟨⟨_, hfirst, (hflat change hchange).2⟩, hown, fun other hother => (hflat other hother).1⟩
  · cases h

theorem detachedFor_orderly (keepRows : Option Nat) (retained : List (Nat × Snapshot))
    (horderly : Orderly changes) :
    Orderly (detachedFor keepRows retained changes) := by
  unfold detachedFor
  split
  · exact detached_orderly horderly _ _
  · exact ⟨.nil, fun entry hentry => by cases hentry⟩

end Words

section Collection
theorem committedSnapshots_collected (older : OrderedMap Nat (List RowChange))
    (h : Ascending kept) :
    committedSnapshots (older.map (fun entry => .rowHistory entry.1 entry.2) ++
      commitRecords kept) = .ok kept := by
  induction kept using List.reverseRecOn with
  | nil =>
    have hnoted : (older.map fun entry => MvccRecord.rowHistory entry.1 entry.2).foldlM
        History.note ⟨[], []⟩ = .ok ⟨[], []⟩ := by
      induction older with
      | nil => rfl
      | cons entry rest ih => exact ih
    refine committedSnapshots_eq_ok.mpr ⟨⟨[], []⟩, ?_, rfl⟩
    simpa [commitRecords] using hnoted
  | append_singleton front entry ih =>
    obtain ⟨hfront, -, hlast⟩ := pairwise_append.mp h
    have hnew : ∀ other ∈ front, other.1 < entry.1 := fun other hother =>
      hlast other hother entry mem_cons_self
    have hrecords : commitRecords (front ++ [entry]) =
        commitRecords front ++ [.prepare entry.1 entry.2] ++ [.commit entry.1] := by
      simp [commitRecords]
    rw [hrecords, ← append_assoc, ← append_assoc]
    refine committedSnapshots_commit (committedSnapshots_prepare (ih hfront) hnew) hnew ?_
    rw [preparedSnapshot_append]
    exact if_pos rfl

def retainedOf (keepLast : Nat) (snapshots : OrderedMap Nat Snapshot) : OrderedMap Nat Snapshot :=
  (snapshots.reverse.take keepLast).reverse

theorem retainedOf_suffix (keepLast : Nat) (snapshots : OrderedMap Nat Snapshot) :
    ∃ front, snapshots = front ++ retainedOf keepLast snapshots := by
  refine ⟨(snapshots.reverse.drop keepLast).reverse, ?_⟩
  rw [retainedOf, ← reverse_append, take_append_drop, reverse_reverse]

theorem detachedOf_collected (older : OrderedMap Nat (List RowChange))
    (kept : OrderedMap Nat Snapshot) :
    detachedOf (older.map (fun entry => .rowHistory entry.1 entry.2) ++ commitRecords kept) =
      older := by
  have holder : detachedOf (older.map fun entry => .rowHistory entry.1 entry.2) = older := by
    induction older with
    | nil => rfl
    | cons entry rest ih => exact congrArg (entry :: ·) ih
  have hkept : detachedOf (commitRecords kept) = [] := by
    induction kept with
    | nil => rfl
    | cons entry rest ih => exact ih
  rw [detachedOf_append, holder, hkept, append_nil]

theorem ascending_of_forall₂ {α β : Type} {written : OrderedMap Nat α} {read : OrderedMap Nat β}
    (h : List.Forall₂ (fun left right => right.1 = left.1) written read)
    (hascending : Ascending written) : Ascending read := by
  have hids : read.map Prod.fst = written.map Prod.fst := by
    induction h with
    | nil => rfl
    | cons hid _ ih =>
      rw [map_cons, map_cons, hid, ih (pairwise_cons.mp hascending).2]
  have hpairwise : (written.map Prod.fst).Pairwise (· < ·) := pairwise_map.mpr hascending
  rw [← hids] at hpairwise
  exact pairwise_map.mp hpairwise

variable [Runtime] [Filters] [Serde]

/-- What a collection reads, rebuilds and writes. -/
structure Collects (keepLast : Nat) (keepRows : Option Nat) (log after : LogFile)
    (records : List MvccRecord) (snapshots : OrderedMap Nat Snapshot)
    (changes : OrderedMap Nat (List RowChange)) (rebuilt : List (Nat × Snapshot)) : Prop where
  positive : keepLast ≠ 0 ∧ keepRows ≠ some 0
  read : readMvccRecords log = .ok records
  committed : committedSnapshots records = .ok snapshots
  recorded : committedRowChanges records = .ok changes
  compacted : compactSnapshots (retainedOf keepLast snapshots) = .ok rebuilt
  written : ∃ older images, rowHistoryRecords (detachedFor keepRows rebuilt changes) = .ok older ∧
    snapshotRecords rebuilt = .ok images ∧ after.payloads = .ok (older ++ images)

theorem collects_of_gc {ids : List Nat}
    (h : gcWithRowRetention keepLast keepRows log = .ok (ids, after)) :
    ∃ records snapshots changes rebuilt,
      Collects keepLast keepRows log after records snapshots changes rebuilt ∧
        ids = rebuilt.map Prod.fst := by
  simp only [gcWithRowRetention, bind_eq_ok, lift_eq_ok, reject_eq_ok] at h
  obtain ⟨-, hlast, -, hrows, h⟩ := h
  split at h
  · rename_i habsent
    cases h
    subst habsent
    have hnone : retainedOf keepLast [] = [] := by simp [retainedOf]
    refine ⟨[], [], [], [], ⟨⟨hlast, hrows⟩, rfl, rfl, rfl, ?_, [], [], ?_, rfl, rfl⟩, rfl⟩
    · rw [hnone]
      rfl
    · cases keepRows <;> rfl
  · simp only [bind_eq_ok, lift_eq_ok, Except.ok.injEq, Prod.mk.injEq] at h
    obtain ⟨records, hread, snapshots, hsnapshots, changes, hchanges, rebuilt, hrebuilt, older,
      holder, images, himages, rfl, rfl⟩ := h
    exact ⟨records, snapshots, changes, rebuilt, ⟨⟨hlast, hrows⟩, hread, hsnapshots,
      hchanges, hrebuilt, older, images, holder, himages, rfl⟩, rfl⟩

section After
variable {rebuilt : List (Nat × Snapshot)} {entry : Nat × Snapshot}
  {older : OrderedMap Nat (List RowChange)}

theorem Recorded.current {previous : Option (Epochs.Image RowState)} {snapshot : Snapshot}
    {image : Epochs.Image RowState} (h : Recorded previous snapshot image) : Current snapshot :=
  ⟨h.rowChanges.1, h.rowEpoch ▸ h.positive, h.distinct⟩

theorem Chronicle.recorded {before : Option (Epochs.Image RowState)} {run : List Commit}
    (h : Chronicle before run) {commit : Commit} (hcommit : commit ∈ run) :
    ∃ previous, Recorded previous commit.snapshot commit.image := by
  obtain ⟨front, back, rfl⟩ := append_of_mem hcommit
  exact ⟨_, h.behind.first commit rfl⟩

variable (h : Collects keepLast keepRows log after records snapshots changes rebuilt)
include h

theorem Collects.retained_mem (hentry : entry ∈ retainedOf keepLast snapshots) :
    entry ∈ snapshots ∧ entry.1 ≠ 0 ∧ entry.1 < u64Size := by
  obtain ⟨front, hfront⟩ := retainedOf_suffix keepLast snapshots
  have hmem : entry ∈ snapshots := hfront ▸ mem_append_right _ hentry
  obtain ⟨hpositive, hsmall, -⟩ := words_of_read h.read h.committed (entry.1, entry.2.changes)
    (mem_append_right _ (mem_map.mpr ⟨entry, hmem, rfl⟩))
  exact ⟨hmem, hpositive, hsmall⟩

theorem Collects.replaces : List.Forall₂ Replaces (retainedOf keepLast snapshots) rebuilt :=
  replaces_of_compact h.compacted (by rintro _ ⟨⟩)

theorem Collects.rebuilt_id (hentry : entry ∈ rebuilt) :
    ∃ source ∈ retainedOf keepLast snapshots, source.1 = entry.1 := by
  obtain ⟨source, hsource, hid, -⟩ := exists_of_forall₂ h.replaces hentry
  exact ⟨source, hsource, hid.symm⟩

theorem Collects.writable :
    ∀ entry ∈ rebuilt, Writable ((retainedOf keepLast snapshots).map Prod.snd) entry.2 :=
  writable_of_compact h.compacted (by rintro _ ⟨⟩) (fun entry hentry => mem_map_of_mem hentry)
    (by rintro _ ⟨⟩)

theorem Collects.alike
    {others : List Commit} (hothers : others.map Commit.entry = rebuilt)
    (hrun : Chronicle none others)
    (hkept : List.Forall₂ ReadsSnapshot rebuilt kept)
    (hkeeps : KeepsRows (retainedOf keepLast snapshots)) :
    ∃ reads : List Commit, reads.map Commit.entry = kept ∧
      List.Forall₂ Commit.Alike others reads := by
  have hvalues : ∀ commit ∈ others, ∀ change ∈ commit.snapshot.changes,
      Serde.Keeps change.values := by
    intro commit hcommit change hchange
    have hmem : commit.entry ∈ rebuilt := hothers ▸ mem_map_of_mem hcommit
    obtain ⟨source, hsource, table, record, htable, hrecord, hvalues⟩ :=
      (h.writable _ hmem).values change hchange
    obtain ⟨entry, hentry, rfl⟩ := mem_map.mp hsource
    rw [hvalues]
    exact hkeeps entry hentry table htable record hrecord
  have hcurrent : ∀ commit ∈ others, Current commit.snapshot := fun commit hcommit =>
    (hrun.recorded hcommit).elim fun _ hrecorded => hrecorded.current
  clear h hrun
  subst hothers
  induction others generalizing kept with
  | nil =>
    cases hkept
    exact ⟨[], rfl, .nil⟩
  | cons commit rest ih =>
    cases hkept with
    | @cons _ entry _ more hread hmore =>
      obtain ⟨reads, rfl, halike⟩ := ih
        (forall_mem_cons.mp hvalues).2
        (forall_mem_cons.mp hcurrent).2 hmore
      have hown := hcurrent commit mem_cons_self
      have heqv := hread.2.eqv (hvalues commit mem_cons_self) hown.rowChanges hown.positive
      refine ⟨⟨entry.1, entry.2, commit.image⟩ :: reads, rfl, .cons ⟨hread.1, rfl, heqv⟩ halike⟩

theorem Collects.keepsRows (hkept : List.Forall₂ ReadsSnapshot rebuilt kept)
    (hkeeps : KeepsRows kept) :
    KeepsRows (retainedOf keepLast snapshots) := by
  intro entry hentry table htable record hrecord
  obtain ⟨other, hother, -, hfiles⟩ := exists_of_forall₂ h.replaces.flip hentry
  obtain ⟨read, hread, -, hreads⟩ := exists_of_forall₂ hkept.flip hother
  obtain ⟨own, -, hown⟩ := hreads
  refine hkeeps read hread table ?_ record hrecord
  rw [hown]
  exact hfiles.fromSnapshot.trans htable

variable (hsound : Sound records snapshots)
include hsound

theorem Collects.changes_eq : changes = detachedOf records ++ changesOf snapshots := by
  cases h.recorded.symm.trans (hsound.committedRowChanges h.committed)
  rfl

theorem Collects.changes_orderly : Orderly changes := h.changes_eq hsound ▸ hsound.orderly

theorem Collects.changes_words :
    ∀ entry ∈ changes, entry.1 ≠ 0 ∧ entry.1 < u64Size ∧ ∀ change ∈ entry.2, change.Valid :=
  h.changes_eq hsound ▸ words_of_read h.read h.committed

theorem Collects.read_after (hserde : Serde.RefusesEmpty) {more : List MvccRecord} :
    readMvccRecords after = .ok more ↔
      ∃ (older : OrderedMap Nat (List RowChange)) (kept : OrderedMap Nat Snapshot),
        List.Forall₂ ReadsRows (detachedFor keepRows rebuilt changes) older ∧
        List.Forall₂ ReadsSnapshot rebuilt kept ∧
        more = older.map (fun entry => .rowHistory entry.1 entry.2) ++ commitRecords kept := by
  obtain ⟨olderPayloads, images, holder, himages, hafter⟩ := h.written
  have horderly := h.changes_orderly hsound
  have hwords := h.changes_words hsound
  have hflat : ∀ {txn : Nat} {change : RowChange},
      (txn, change) ∈ flatChanges changes → txn < u64Size ∧ change.Fits := by
    intro txn change hmem
    obtain ⟨own, hown, hchange⟩ := mem_flatChanges.mp hmem
    obtain ⟨-, hsmall, hvalid⟩ := hwords _ hown
    exact ⟨hsmall, (hvalid change hchange).1⟩
  have hdetached : ∀ entry ∈ detachedFor keepRows rebuilt changes, entry.1 < u64Size := by
    intro entry hentry
    obtain ⟨-, hown, hmem⟩ := mem_detachedFor horderly hentry
    obtain ⟨change, hchange⟩ := exists_mem_of_ne_nil _ hown
    exact (hflat (hmem change hchange)).1
  have hrebuilt : ∀ entry ∈ rebuilt, entry.1 < u64Size := by
    intro entry hentry
    obtain ⟨source, hsource, heq⟩ := h.rebuilt_id hentry
    exact heq ▸ (h.retained_mem hsource).2.2
  have hwritable := h.writable
  rw [readMvccRecords, hafter]
  show (olderPayloads ++ images).mapM decodeRecord = .ok more ↔ _
  simp only [mapM_append, bind_eq_ok, rowHistoryRecords_read holder hdetached
    (fun entry hentry change hchange =>
      (hflat ((mem_detachedFor horderly hentry).2.2 change hchange)).2),
    snapshotRecords_read hserde himages hrebuilt hwritable, pure, Except.pure, Except.ok.injEq]
  constructor
  · rintro ⟨_, ⟨older, hreads, rfl⟩, _, ⟨kept, hkept, rfl⟩, rfl⟩
    exact ⟨older, kept, hreads, hkept, rfl⟩
  · rintro ⟨older, kept, hreads, hkept, rfl⟩
    exact ⟨_, ⟨older, hreads, rfl⟩, _, ⟨kept, hkept, rfl⟩, rfl⟩

theorem Collects.chronicle :
    ∃ others : List Commit, others.map Commit.entry = rebuilt ∧ Chronicle none others := by
  have hascending : Ascending (retainedOf keepLast snapshots) := by
    obtain ⟨front, hfront⟩ := retainedOf_suffix keepLast snapshots
    have hall := pairwise_map.mp (pairwise_append.mp hsound.orderly.ascending).2.1
    rw [hfront] at hall
    exact (pairwise_append.mp hall).2.1
  exact chronicle_of_compact hascending (fun entry hentry => (h.retained_mem hentry).2.1) h.compacted

theorem Collects.orderly
    (holder : List.Forall₂ ReadsRows (detachedFor keepRows rebuilt changes) older)
    (hkept : List.Forall₂ ReadsSnapshot rebuilt kept) (hcurrent : ∀ entry ∈ kept, Current entry.2) :
    Ascending kept ∧ Orderly (older ++ changesOf kept) := by
  have horderly := h.changes_orderly hsound
  obtain ⟨others, hothers, hrun⟩ := h.chronicle hsound
  have hrebuilt : Ascending rebuilt := hothers ▸ hrun.ascending
  have hascending : Ascending kept :=
    ascending_of_forall₂ (hkept.imp fun _ _ hread => hread.1) hrebuilt
  have hdetached := detachedFor_orderly keepRows rebuilt horderly
  refine ⟨hascending, ?_, ?_⟩
  · rw [Ascending, pairwise_append]
    refine ⟨ascending_of_forall₂ (holder.imp fun _ _ hread => hread.1) hdetached.ascending,
      pairwise_map.mpr hascending, ?_⟩
    intro entry hentry other hother
    obtain ⟨source, hsource, hid, -⟩ := exists_of_forall₂ holder hentry
    obtain ⟨read, hread, rfl⟩ := mem_map.mp hother
    obtain ⟨snapshot, hsnapshot, hsnapshotId, -⟩ := exists_of_forall₂ hkept hread
    obtain ⟨first, hfirst, hlt⟩ := (mem_detachedFor horderly hsource).1
    have hle : first.1 ≤ snapshot.1 := hrebuilt.head_le hfirst hsnapshot
    show entry.1 < read.1
    omega
  · intro entry hentry
    rcases mem_append.mp hentry with hentry | hentry
    · obtain ⟨source, hsource, -, hreads⟩ := exists_of_forall₂ holder hentry
      rw [reads_ids hreads]
      exact hdetached.distinct source hsource
    · obtain ⟨read, hread, rfl⟩ := mem_map.mp hentry
      exact (hcurrent read hread).distinct

theorem Collects.sound (holder : List.Forall₂ ReadsRows (detachedFor keepRows rebuilt changes) older)
    (hkept : List.Forall₂ ReadsSnapshot rebuilt kept) :
    Sound (older.map (fun entry => .rowHistory entry.1 entry.2) ++ commitRecords kept) kept := by
  obtain ⟨others, hothers, hrun⟩ := h.chronicle hsound
  have hcurrent : ∀ entry ∈ kept, Current entry.2 := by
    intro entry hentry
    obtain ⟨source, hsource, -, hreads⟩ := exists_of_forall₂ hkept hentry
    rw [← hothers] at hsource
    obtain ⟨commit, hcommit, rfl⟩ := mem_map.mp hsource
    obtain ⟨previous, hrecorded⟩ := hrun.recorded hcommit
    exact hrecorded.current.reads hreads
  refine ⟨?_, ?_, hcurrent, ?_⟩
  · rw [detachedOf_collected]
    exact (h.orderly hsound holder hkept hcurrent).2
  · rintro rfl
    rw [detachedOf_collected]
    cases hkept
    have hnone : detachedFor keepRows [] changes = [] := by cases keepRows <;> rfl
    rw [hnone] at holder
    cases holder
    rfl
  · intro hkeeps
    obtain ⟨reads, rfl, halike⟩ := h.alike hothers hrun hkept (h.keepsRows hkept hkeeps)
    exact ⟨_, (hrun.congr halike).linked⟩

end After

/-- The histories that prepares, commits and collections build. -/
inductive Grown : LogFile → Prop
  | start {log : LogFile} (h : log.payloads = .ok []) : Grown log
  | prepare {log next : LogFile} {transactionId : Nat} {dbf : Bytes} {memo : Option MemoSnapshot}
      {schema : Option Bytes} {forceNewEpoch : Bool} (h : Grown log)
      (hlater : Later transactionId log)
      (hstep : prepareLog transactionId dbf memo schema forceNewEpoch log = .ok next) : Grown next
  | commit {log next : LogFile} {transactionId : Nat} {dbf : Bytes} {memo : Option MemoSnapshot}
      {schema : Option Bytes} {forceNewEpoch : Bool} (h : Grown log)
      (hlater : Later transactionId log)
      (hstep : commitLog transactionId dbf memo schema forceNewEpoch log = .ok next) : Grown next
  | collect {log next : LogFile} {keepLast : Nat} {keepRows : Option Nat} {ids : List Nat}
      (h : Grown log) (hstep : gcWithRowRetention keepLast keepRows log = .ok (ids, next)) :
      Grown next

theorem sound_of_grown (hserde : Serde.RefusesEmpty) (h : Grown log)
    (hread : readMvccRecords log = .ok records)
    (hsnapshots : committedSnapshots records = .ok snapshots) : Sound records snapshots := by
  induction h generalizing records snapshots with
  | start hempty =>
    rw [readMvccRecords, hempty] at hread
    cases hread
    cases hsnapshots
    exact ⟨⟨.nil, fun entry hentry => by cases hentry⟩, fun _ => rfl,
      fun entry hentry => (not_mem_nil hentry).elim, fun _ => ⟨[], .nil⟩⟩
  | prepare h hlater hstep ih =>
    obtain ⟨before, built, snapshot, hbefore, hcommitted, hprepares⟩ :=
      prepareLog_step hserde hlater hstep hread hsnapshots
    exact (ih hbefore hcommitted).prepare hprepares
  | commit h hlater hstep ih =>
    obtain ⟨before, more, committed, built, snapshot, hbefore, hcommitted, hprepares, rfl, rfl,
      hpositive, hnew⟩ := commitLog_step hserde hlater hstep hread hsnapshots
    have hsound := ih hbefore hcommitted
    have hepochs := rowEpoch_of_read (bind_eq_ok.mpr ⟨before, hbefore, hcommitted⟩)
    exact (hsound.prepare hprepares).commit hnew (hprepares.current hsound.current hepochs)
      (hprepares.linked hpositive hnew hbefore hcommitted hsound.linked)
  | collect h hstep ih =>
    obtain ⟨before, committed, changes, rebuilt, hcollects, -⟩ := collects_of_gc hstep
    have hsound := ih hcollects.read hcollects.committed
    obtain ⟨older, kept, holder, hkept, rfl⟩ := (hcollects.read_after hsound hserde).mp hread
    have hcollected := hcollects.sound hsound holder hkept
    have hascending : Ascending kept :=
      (hcollects.orderly hsound holder hkept hcollected.current).1
    cases hsnapshots.symm.trans (committedSnapshots_collected older hascending)
    exact hcollected

end Collection

end TxBase.Dbf
