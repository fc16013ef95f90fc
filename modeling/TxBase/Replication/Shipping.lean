import TxBase.Replication.Effects
import TxBase.Replication.Paging

/-! The entries that proposals put into a log are admitted whatever their length.  A log that is
reached by proposals is shipped exactly if each of its entries fits a page. -/
namespace TxBase.Replication
open Lib Json Dbf Catalog List
open String (ofList toList_ofList)
open ReplicationLog (ReadsBack ships_iff)
variable {catalog : Catalog} {start log result : ReplicationLog} {first disk last : CatalogDisk}
  {entry : ReplicationEntry} {operation : OperationIr} {operations : List OperationIr}

section Proposals
variable [Runtime] [Filters] [Serde] [Indexing] [SchemaExport] [SchemaJson] [EventSerde]

/-- The logs and directories that successful proposals reach. -/
inductive Proposed (catalog : Catalog) (start : ReplicationLog) (first : CatalogDisk) :
    ReplicationLog → CatalogDisk → Prop
  | start : Proposed catalog start first start first
  | propose {log result : ReplicationLog} {disk last : CatalogDisk} {entry : ReplicationEntry}
      (h : Proposed catalog start first log disk) (proposal : Proposal)
      (hrun : runOn (proposal.run log catalog) disk = (.ok (entry, result), last)) :
      Proposed catalog start first result last

section
variable (h : Proposed catalog start first log disk)
include h

theorem Proposed.propose_operations
    (hrun : runOn (log.propose catalog operations) disk = (.ok (entry, result), last)) :
    Proposed catalog start first result last :=
  .propose h (.ofOperations operations none none) hrun

theorem Proposed.valid (hvalid : start.Valid) : log.Valid := by
  induction h with
  | start => exact hvalid
  | propose _ proposal hrun _ =>
    obtain ⟨middle, -, rfl, happlied⟩ := Proposal.run_eq_ok hrun
    exact happlied.valid

theorem Proposed.sized (hsized : start.Sized) : log.Sized := by
  induction h with
  | start => exact hsized
  | propose _ proposal hrun ih =>
    obtain ⟨middle, -, rfl, -⟩ := Proposal.run_eq_ok hrun
    exact ⟨ih.term, ih.baseIndex, ih.baseTransactionId⟩

end

end Proposals

section Routes

/-- The route of a record of the table `T`, by the digits of its number. -/
def recordPath (digits : List Char) : String := "/T/records/" ++ ofList digits

variable {digits : List Char}

theorem transactionOperationPath_recordPath (h : '/' ∉ digits) (hsome : digits ≠ []) :
    transactionOperationPath (recordPath digits) = some ("T", "/records/" ++ ofList digits) := by
  unfold transactionOperationPath recordPath
  rw [String.toList_append, toList_ofList (l := digits)]
  have hpath : "/T/records/".toList ++ digits =
      '/' :: 'T' :: '/' :: 'r' :: 'e' :: 'c' :: 'o' :: 'r' :: 'd' :: 's' :: '/' :: digits := rfl
  rw [hpath]
  simpa [splitChars, splitChars_of_notMem h] using hsome

theorem operationRecordId_digits :
    operationRecordId ("/records/" ++ ofList digits) = (do
      let id ← required (parseUnsigned u64Size (ofList digits)) "operation record id is invalid"
      reject (id = 0) "operation record id must be positive"
      .ok id) := by
  have hlist : ("/records/" ++ ofList digits).toList = recordsPath ++ digits := by
    rw [String.toList_append, toList_ofList (l := digits)]
    rfl
  have hroute : recordsPath.isPrefixOf (recordsPath ++ digits) = true :=
    isPrefixOf_iff_prefix.mpr (prefix_append _ _)
  unfold operationRecordId
  rw [hlist, hroute, drop_left]
  rfl

theorem applySteps_recordPath [Runtime] [Filters] (catalog : Catalog) (before : Tables)
    {others : List Char}
    (h : '/' ∉ digits) (hsome : digits ≠ []) (h' : '/' ∉ others) (hsome' : others ≠ [])
    (hparse : parseUnsigned u64Size (ofList digits) =
      parseUnsigned u64Size (ofList others)) :
    catalog.applySteps before [.mutation ⟨.delete, recordPath digits, none⟩] =
      catalog.applySteps before [.mutation ⟨.delete, recordPath others, none⟩] := by
  have hcall : ∀ (table : DbfTable) (deferred : List String),
      table.applyOperationWithDeferredConstraints ⟨.delete, "/records/" ++ ofList digits,
        none⟩ deferred =
      table.applyOperationWithDeferredConstraints ⟨.delete, "/records/" ++ ofList others, none⟩
        deferred := by
    intro table deferred
    unfold DbfTable.applyOperationWithDeferredConstraints operationCall
    simp only [operationRecordId_digits, hparse]
  have hstep : ∀ running, catalog.applyStep running (.mutation ⟨.delete, recordPath digits, none⟩) =
      catalog.applyStep running (.mutation ⟨.delete, recordPath others, none⟩) := by
    intro running
    unfold Catalog.applyStep Catalog.applyOperationToTables
    simp only [transactionOperationPath_recordPath h hsome,
      transactionOperationPath_recordPath h' hsome',
      Outcome.orFail, bind, Except.bind, hcall]
  unfold Catalog.applySteps
  simp only [foldlM_cons, hstep]

end Routes

section Replacing
variable [Runtime] [Filters] [Serde] [Indexing] [SchemaJson] [EventSerde] {other : OperationIr}

theorem commitStepsInternal_congr {steps others : List TransactionStep}
    (hsteps : ∀ before, catalog.applySteps before steps = catalog.applySteps before others)
    (hempty : steps.isEmpty = others.isEmpty)
    (precondition : Option CommitPrecondition) (sidecar : Option SidecarChange) :
    catalog.commitStepsInternal steps precondition sidecar =
      catalog.commitStepsInternal others precondition sidecar := by
  unfold Catalog.commitStepsInternal
  simp only [hempty, hsteps]

omit [Runtime] [Filters] [Serde] [Indexing] [SchemaJson] [EventSerde] in
theorem validate_replacing (hmethod : other.method = operation.method)
    (h : entry.validate = .ok ()) (hoperations : entry.operations = [operation])
    (hversion : entry.version = replicationEntryVersion) :
    ({ entry with operations := [other] } : ReplicationEntry).validate = .ok () := by
  obtain ⟨version, term, index, txn, schemaTag, operations, steps⟩ := entry
  obtain ⟨method, path, body⟩ := other
  cases hmethod
  cases hoperations
  cases hversion
  exact h

omit [Runtime] [Filters] [Serde] [Indexing] [SchemaJson] [EventSerde] in
theorem create_eq_ok {term index txn : Nat} {schemaTag : String} :
    ReplicationEntry.create term index txn schemaTag operations = .ok entry ↔
      entry = ⟨replicationEntryVersion, term, index, txn, schemaTag, operations, []⟩ ∧
        entry.validate = .ok () := by
  unfold ReplicationEntry.create
  rw [bind_eq_ok]
  constructor
  · rintro ⟨⟨⟩, hvalid, hentry⟩
    cases hentry
    exact ⟨rfl, hvalid⟩
  · rintro ⟨rfl, hvalid⟩
    exact ⟨(), hvalid, rfl⟩

omit [Runtime] [Filters] [Serde] [Indexing] [SchemaJson] [EventSerde] in
theorem valid_push_replacing (h : (log.push entry).Valid) (hmethod : other.method = operation.method)
    (hoperations : entry.operations = [operation])
    (hversion : entry.version = replicationEntryVersion) :
    (log.push { entry with operations := [other] }).Valid := by
  refine ⟨h.version, h.term, ?_⟩
  intro position found hfound
  rcases getElem?_concat_eq_some hfound with hfound | ⟨rfl, rfl⟩
  · refine h.placed position found ?_
    exact (List.getElem?_append_left (List.getElem?_eq_some_iff.mp hfound).1).trans hfound
  · have hplaced := h.placed log.entries.length entry (by simp [ReplicationLog.push])
    exact ⟨validate_replacing hmethod hplaced.valid hoperations hversion, hplaced.term_eq,
      hplaced.index_eq,
      hplaced.transactionId_eq, hplaced.index_lt, hplaced.transactionId_lt⟩

variable [SchemaExport]

theorem applyNew_replacing (hmethod : other.method = operation.method)
    (hsteps : ∀ before, catalog.applySteps before [.mutation other] =
      catalog.applySteps before [.mutation operation])
    (hversion : entry.version = replicationEntryVersion)
    (hoperations : entry.operations = [operation])
    {ifMatch ifNoneMatch : Option String} {outcome : ApplyOutcome}
    (h : runOn (log.applyNewWithPreconditions catalog entry (some (.catalog ifMatch ifNoneMatch)))
      disk =
      (.ok (outcome, result), last)) :
    ∃ outcome last, runOn (log.applyNewWithPreconditions catalog { entry with operations := [other] }
      (some (.catalog ifMatch ifNoneMatch))) disk =
      (.ok (outcome, log.push { entry with operations := [other] }), last) := by
  obtain ⟨hresult, happlied⟩ := ReplicationLog.applyNewWithPreconditions_eq_ok h
  have hentry : entry.validate = .ok () :=
    (happlied.valid.placed log.entries.length entry (by simp [ReplicationLog.push])).valid
  have hpushed := valid_push_replacing happlied.valid hmethod hoperations hversion
  have hwritten := ReplicationLog.toSidecarBytes_eq_ok.mpr ⟨hpushed, rfl⟩
  have hstepsEntry : entry.transactionSteps = [.mutation operation] := by
    rw [ReplicationEntry.transactionSteps, if_pos hversion, hoperations]
    rfl
  have hstepsOther : ({ entry with operations := [other] } : ReplicationEntry).transactionSteps =
      [.mutation other] := if_pos hversion
  unfold runOn ReplicationLog.applyNewWithPreconditions at h ⊢
  simp only [Procedure.run_bind_eq_ok, runOn_check, runOn_onCatalog, Procedure.run_done_eq_ok] at h ⊢
  obtain ⟨index, first, hindex, _, second, hgap, txn, third, htransaction, _, fourth, hgap',
    current, fifth,
    hcurrent, _, sixth, hposition, tag, seventh, htag, _, eighth, hsame, actual, ninth, hactual,
    expected, tenth,
    hexpected, committed, last, hcommit, _, _, ⟨hid, _⟩, _⟩ := h
  unfold ReplicationLog.commitEntry Catalog.commitStepsWithPreconditionsAndSidecar at hcommit ⊢
  simp only [Procedure.run_bind_eq_ok, runOn_check, runOn_onCommit] at hcommit ⊢
  obtain ⟨bytes, eleventh, hbytes, hcommit⟩ := hcommit
  obtain ⟨⟨id, written⟩, twelfth, hcommit, hdone⟩ := Procedure.run_bind_eq_ok.mp hcommit
  cases hdone
  obtain ⟨written', final, hcommit'⟩ := commitStepsInternal_replacing
    (ReplicationLog.magic ++ ReplicationLog.sidecarVersion ::
      (log.push { entry with operations := [other] }).text)
    (ReplicationEntry.exists_mutation hentry) hcommit
  rw [hstepsEntry, ← commitStepsInternal_congr hsteps rfl, ← hstepsOther] at hcommit'
  exact ⟨_, final, index, first, hindex, _, second, hgap, txn, third, htransaction, _, fourth,
    hgap', current,
    fifth, hcurrent, _, sixth, hposition, tag, seventh, htag, _, eighth, hsame, actual, ninth,
    hactual, expected,
    tenth, hexpected, id, final, ⟨_, eleventh, ⟨hwritten, hbytes.2⟩,
      Procedure.run_bind_eq_ok.mpr ⟨_, final, hcommit', rfl⟩⟩, _, final, ⟨hid, rfl⟩, rfl, rfl⟩

theorem propose_replacing (hmethod : other.method = operation.method)
    (hsteps : ∀ before, catalog.applySteps before [.mutation other] =
      catalog.applySteps before [.mutation operation])
    (h : runOn (log.propose catalog [operation]) disk = (.ok (entry, result), last)) :
    ∃ last, runOn (log.propose catalog [other]) disk =
      (.ok ({ entry with operations := [other] }, log.push { entry with operations := [other] }),
        last) := by
  unfold runOn ReplicationLog.propose ReplicationLog.proposeWithCatalogPreconditions
    ReplicationLog.proposeEntry at h ⊢
  simp only [Procedure.run_bind_eq_ok, runOn_check, runOn_onCatalog, Procedure.run_done_eq_ok,
    create_eq_ok] at h ⊢
  obtain ⟨current, first, hcurrent, _, second, hposition, tag, third, htag, index,
    fourth, hindex, txn,
    fifth, htransaction, made, sixth, ⟨⟨hmade, hvalid⟩, hsixth⟩, applied, seventh, happly,
    hdone, _⟩ := h
  cases hdone
  have hoperations : entry.operations = [operation] := by rw [hmade]
  have hversion : entry.version = replicationEntryVersion := by rw [hmade]
  obtain ⟨outcome, last, hrun⟩ := applyNew_replacing hmethod hsteps hversion hoperations happly
  have hmadeOther : { entry with operations := [other] } =
      (⟨replicationEntryVersion, log.term, index, txn, tag.2, [other], []⟩ : ReplicationEntry) := by
    rw [hmade]
  exact ⟨last, current, first, hcurrent, _, second, hposition, tag, third, htag, index,
    fourth, hindex, txn,
    fifth, htransaction, _, sixth,
    ⟨⟨hmadeOther, validate_replacing hmethod hvalid hoperations hversion⟩, hsixth⟩, _, last,
    hrun, rfl, rfl⟩

end Replacing

section Long
variable [Runtime]

theorem path_length_le_text {batch : ReplicationEntryBatch} (hentry : entry ∈ batch.entries)
    (hoperation : operation ∈ entry.operations) : operation.path.length ≤ batch.text.length := by
  have hpath : (quoted operation.path).length ≤ (operationText operation).length :=
    @length_le_structText _ _ "path" (by simp)
  have hoperations : (operationText operation).length ≤ (entryText entry).length := by
    refine (length_le_arrayText (mem_map_of_mem (f := operationText) hoperation)).trans ?_
    have hsome : entry.operations.isEmpty = false := by
      cases hempty : entry.operations with
      | nil => rw [hempty] at hoperation; cases hoperation
      | cons => rfl
    exact @length_le_structText _ _ "operations" (by simp [hsome])
  have hentries : (entryText entry).length ≤ batch.text.length := by
    refine (length_le_arrayText (mem_map_of_mem (f := entryText) hentry)).trans ?_
    exact @length_le_structText _ _ "entries" (by simp)
  exact (length_le_quoted _).trans (hpath.trans (hoperations.trans hentries))

theorem not_fits_of_long {afterIndex : Nat} (hoperation : operation ∈ entry.operations)
    (hlong : maxReplicationEntryBatchBytes < operation.path.length) :
    ¬ ReplicationEntryBatch.Fits log afterIndex [entry] := fun hfits =>
  absurd ((path_length_le_text (mem_singleton_self entry) hoperation).trans hfits) (not_le.mpr hlong)

theorem not_ships_of_long [BatchSerde] (hvalid : log.Valid) (hsized : log.Sized)
    (hentry : log.entries.head? = some entry) (hoperation : operation ∈ entry.operations)
    (hlong : maxReplicationEntryBatchBytes < operation.path.length) : ¬ log.Ships := by
  intro hships
  obtain ⟨batches, hpages, -⟩ :=
    hships log.baseIndex 1 le_rfl (Nat.le_add_right ..) le_rfl (by decide)
  have hbatch : ∃ batch, log.entryBatch log.baseIndex 1 = .ok batch := by
    cases hpages with
    | last hbatch _ => exact ⟨_, hbatch⟩
    | more hbatch _ _ => exact ⟨_, hbatch⟩
  obtain ⟨batch, hbatch⟩ := hbatch
  have hhead : (log.after log.baseIndex).head? = some entry := by
    rw [ReplicationLog.after, Nat.sub_self, drop_zero]
    exact hentry
  exact not_fits_of_long hoperation hlong
    (ReplicationLog.fits_of_entryBatch hvalid hsized le_rfl hhead hbatch)

end Long

section Fixed
attribute [local instance] Runtime.bare Filters.bare Serde.refusing Indexing.none
  SchemaExport.none SchemaJson.none
  EventSerde.blank

def freshLog : ReplicationLog := ⟨replicationLogVersion, 1, 0, 0, [], []⟩

theorem freshLog_valid : freshLog.Valid := ⟨rfl, by decide, nofun⟩

theorem freshLog_sized : freshLog.Sized := ⟨by decide, by decide, by decide⟩

def oneRecordDisk : CatalogDisk := singleTableDisk (singleFieldImage 0x03 0x43 1 0 [[0x20, 0x61]])

def deletionEntry (digits : List Char) : ReplicationEntry :=
  ⟨replicationEntryVersion, 1, 1, 1, "\"txbase-catalog-8393f558dfe8bf91\"",
    [⟨.delete, recordPath digits, none⟩], []⟩

theorem propose_deletion :
    ∃ last, runOn (freshLog.propose singleTable [⟨.delete, recordPath ['1'], none⟩]) oneRecordDisk =
      (.ok (deletionEntry ['1'], freshLog.push (deletionEntry ['1'])), last) := by
  have hrun : (runOn (freshLog.propose singleTable [⟨.delete, recordPath ['1'], none⟩])
      oneRecordDisk).1.toOption = some (deletionEntry ['1'],
        freshLog.push (deletionEntry ['1'])) := by
    decide +kernel
  exact ⟨_, Prod.ext (eq_ok_of_toOption hrun) rfl⟩

def paddedOne (zeros : Nat) : List Char := List.replicate zeros '0' ++ ['1']

theorem lt_length_recordPath (zeros : Nat) : zeros < (recordPath (paddedOne zeros)).length := by
  have hdigits : zeros < (paddedOne zeros).length := by
    rw [paddedOne, length_append, length_replicate]
    exact Nat.lt_succ_self _
  rw [recordPath, String.length_append, String.length_ofList (l := paddedOne zeros)]
  exact Nat.lt_add_left _ hdigits

theorem parseUnsigned_paddedOne (zeros : Nat) :
    parseUnsigned u64Size (ofList (paddedOne zeros)) =
      parseUnsigned u64Size (ofList ['1']) := by
  have hparse : parseDigits (paddedOne zeros) = parseDigits ['1'] :=
    parseDigits_zeros zeros (by simp)
  have hplain : ∀ chars : List Char, chars.head? ≠ some '+' →
      parseUnsigned u64Size (ofList chars) = (parseDigits chars).filter (· < u64Size) := by
    intro chars hhead
    unfold parseUnsigned
    rw [toList_ofList]
    split
    · exact absurd rfl hhead
    · rfl
  rw [hplain, hplain, hparse]
  · decide
  · cases zeros <;> simp [paddedOne, replicate_succ]

theorem propose_paddedDeletion (zeros : Nat) :
    ∃ last, runOn (freshLog.propose singleTable [⟨.delete, recordPath (paddedOne zeros), none⟩])
      oneRecordDisk =
      (.ok (deletionEntry (paddedOne zeros), freshLog.push (deletionEntry (paddedOne zeros))),
        last) := by
  obtain ⟨last, hrun⟩ := propose_deletion
  have hsteps : ∀ before,
      singleTable.applySteps before [.mutation ⟨.delete, recordPath (paddedOne zeros), none⟩] =
        singleTable.applySteps before [.mutation ⟨.delete, recordPath ['1'], none⟩] := fun before =>
    applySteps_recordPath singleTable before (by simp [paddedOne]) (by simp [paddedOne]) (by decide)
      (by decide) (parseUnsigned_paddedOne zeros)
  exact propose_replacing (by rfl) hsteps hrun

end Fixed

section Main
variable [Runtime] [Filters] [Serde] [Indexing] [SchemaExport] [SchemaJson] [EventSerde]

/-- Every entry of a log that proposals reach can be shipped exactly if each of them alone fits a
page and is read back. -/
theorem proposed_log_ships_iff [BatchSerde] (hvalid : start.Valid) (hsized : start.Sized)
    (h : Proposed catalog start first log disk) (hserde : log.ReadsPages) :
    log.Ships ↔ ∀ position entry, log.entries[position]? = some entry →
      ReplicationEntryBatch.Fits log (log.baseIndex + position) [entry] ∧
        log.ReadsBack (log.baseIndex + position) [entry] :=
  ships_iff (h.valid hvalid) (h.sized hsized) hserde

end Main

section Fixed
attribute [local instance] Runtime.bare Filters.bare Serde.refusing Indexing.none
  SchemaExport.none SchemaJson.none
  EventSerde.blank

/-- The log of one deletion is shipped. -/
theorem deletion_is_shipped :
    let log := freshLog.push (deletionEntry ['1'])
    let _ := BatchSerde.listed [.ofEntries log 0 [], .ofEntries log 0 [deletionEntry ['1']],
      .ofEntries log 1 []]
    (∃ disk, Proposed singleTable freshLog oneRecordDisk log disk) ∧ log.Ships := by
  intro log _
  obtain ⟨disk, hrun⟩ := propose_deletion
  have hproposed := Proposed.start.propose_operations hrun
  have hreads : log.ReadsBack 0 [deletionEntry ['1']] := by
    unfold ReadsBack
    decide +kernel
  refine ⟨⟨disk, hproposed⟩, (proposed_log_ships_iff freshLog_valid freshLog_sized hproposed
    ?_).mpr ?_⟩
  · intro afterIndex entries _ hlast hentries
    have hindex : afterIndex = 0 ∨ afterIndex = 1 := Nat.le_one_iff_eq_zero_or_eq_one.mp hlast
    obtain rfl | rfl := hindex
    · rcases prefix_cons_iff.mp (show entries <+: [deletionEntry ['1']] from
        hentries) with rfl | ⟨rest, rfl, hrest⟩
      · exact iff_of_true (by unfold ReadsBack; decide +kernel) nofun
      · rw [prefix_nil.mp hrest]
        refine iff_of_true hreads fun position entry hentry => ?_
        cases position with
        | zero => cases hentry; exact hreads
        | succ position => cases hentry
    · rw [prefix_nil.mp (show entries <+: [] from hentries)]
      exact iff_of_true (by unfold ReadsBack; decide +kernel) nofun
  · intro position entry hentry
    cases position with
    | zero =>
      cases hentry
      exact ⟨show _ ≤ _ by decide +kernel, hreads⟩
    | succ position => cases hentry

/-- A deletion whose route has more than a million zeros is committed, and no page holds it. -/
theorem long_route_is_committed_and_not_shipped :
    ∃ log disk, Proposed singleTable freshLog oneRecordDisk log disk ∧
      ∀ _ : BatchSerde, ¬ log.Ships := by
  obtain ⟨last, hrun⟩ := propose_paddedDeletion maxReplicationEntryBatchBytes
  have hproposed : Proposed singleTable freshLog oneRecordDisk
      (freshLog.push (deletionEntry (paddedOne maxReplicationEntryBatchBytes))) last :=
    Proposed.start.propose_operations hrun
  refine ⟨_, last, hproposed, ?_⟩
  intro serde
  refine not_ships_of_long (hproposed.valid freshLog_valid) (hproposed.sized freshLog_sized) rfl
    (mem_singleton_self _) (lt_length_recordPath _)

end Fixed

end TxBase.Replication
