import TxBase.Dbf.Saved
import TxBase.Dbf.Slots

/-! What a call on a table leaves alone: everything when it fails, and everything but the fields
it changes when it rewrites a record. -/
namespace TxBase.Dbf
open Lib Json
open Durable (finishes_bind)
open Outcome (lift_eq_ok)

section Reachable
variable [Runtime] [Filters] [Serde] [Indexing] [SchemaExport]

/-- The tables a program can hold: parsed, loaded from a path, left by a call on one of these,
whatever the call returned, or by a save that does not bind it to another encoding. -/
inductive Reachable : DbfTable → Prop
  | bytes {bytes : Bytes} {encoding : Option String} {table : DbfTable}
      (h : fromBytesWithEncoding bytes encoding = .ok table) : Reachable table
  | path {path : String} {encoding : Option String} {disk last : Disk} {table : DbfTable}
      (h : (DbfTable.fromPathWithEncoding path encoding).Finishes disk last table) : Reachable table
  | call {table : DbfTable} (h : Reachable table) (call : Call) : Reachable (call.run table).1
  | save {table after : DbfTable} (h : Reachable table) {path : String}
    {operation : Option OperationIr}
      {disk last : Disk} (hsave : (saveWithWalInner table path operation).Finishes disk last after)
      (hencoding : after.encodingOverride = table.encodingOverride) : Reachable after

omit [Indexing] [SchemaExport] in
theorem bindSchemaIfPresent_coherent {table bound : DbfTable} {disk : Disk} (h : Coherent table)
    (hbound : table.bindSchemaIfPresent disk = .ok bound)
    (hencoding : bound.encodingOverride = table.encodingOverride) : Coherent bound := by
  unfold DbfTable.bindSchemaIfPresent at hbound
  split at hbound
  · cases hbound
    exact h
  · obtain ⟨found, -, hbound⟩ := bind_eq_ok.mp hbound
    cases found with
    | none =>
      cases hbound
      exact h
    | some metadata =>
      simp only [bind_eq_ok] at hbound
      obtain ⟨_, -, memo, -, read, hread, _, -, hbound⟩ := hbound
      cases hbound
      obtain ⟨records, hmarks, rfl⟩ := withMemo_eq_ok hread
      dsimp only at hencoding ⊢
      rw [hencoding]
      exact (h.of_marks hmarks).withFields

theorem Reachable.coherent {table : DbfTable} (h : Reachable table) : Coherent table := by
  induction h with
  | bytes h => exact coherent_fromBytes h
  | path h =>
    simp only [DbfTable.fromPathWithEncoding, finishes_bind, Durable.finishes_ask,
      Durable.finishes_pure] at h
    obtain ⟨_, _, -, _, _, -, _, _, -, _, _, ⟨-, hload⟩, _, _, -, -, rfl⟩ := h
    exact (loadPath_eq_ok hload).coherent
  | call _ call ih => exact Leaves.coherent ⟨call, rfl⟩ ih
  | save _ hsave hencoding ih =>
    simp only [saveWithWalInner, saveRecovered, finishes_bind, Durable.finishes_ask,
      Except.ok.injEq] at hsave
    obtain ⟨_, _, -, _, plan, ⟨-, hplan⟩, _, _, -, _, _, -, -, rfl⟩ := hsave
    obtain ⟨bound, hbound, -, -, happly⟩ := (planned hplan).prepared
    have hkept := (applyMemoUpdates_encoding happly).symm.trans hencoding
    exact (applyMemoUpdates_eq_ok (bindSchemaIfPresent_coherent ih hbound hkept).withFields
      happly).1.withFields

/-- The ways to change a table. -/
inductive Mutation where
  | byCall (call : Call)
  | byOperation (operation : OperationIr) (deferred : List String)

def Mutation.run (mutation : Mutation) (table : DbfTable) : DbfTable × Res Unit :=
  match mutation with
  | .byCall call => call.run table
  | .byOperation operation deferred => table.applyOperationWithDeferredConstraints operation deferred

theorem failed_mutation_keeps_table {table : DbfTable} (h : Reachable table) (mutation : Mutation)
    {error : DbfError} (hfailed : (mutation.run table).2 = Outcome.fail error) :
    (mutation.run table).1 = table := by
  cases mutation with
  | byCall call => exact Call.run_error h.coherent hfailed
  | byOperation operation deferred =>
    simp only [Mutation.run, DbfTable.applyOperationWithDeferredConstraints] at hfailed ⊢
    cases hcall : operationCall operation deferred with
    | error error => rfl
    | ok call =>
      rw [hcall] at hfailed
      exact Call.run_error h.coherent hfailed

end Reachable

theorem failed_mutation_keeps_table_insert :
    letI := Runtime.bare
    letI := Filters.bare
    letI := Serde.refusing
    letI := Indexing.none
    letI := SchemaExport.none
    let table := singleFieldTable 0x03 0x43 2 0 [] []
    let mutation := Mutation.byCall (.insert [("B", .string "x")] [])
    (mutation.run table).2 = Outcome.fail (.invalid "unknown field B") ∧
      (mutation.run table).1 = table := by
  let := Runtime.bare
  let := Filters.bare
  let := Serde.refusing
  let := Indexing.none
  let := SchemaExport.none
  have hparsed : fromBytesWithEncoding (singleFieldImage 0x03 0x43 2 0 []) none =
      .ok (singleFieldTable 0x03 0x43 2 0 [] []) := by decide +kernel
  have hfailed : ((Mutation.byCall (.insert [("B", .string "x")] [])).run
    (singleFieldTable 0x03 0x43 2 0 [] [])).2 =
      Outcome.fail (.invalid "unknown field B") := by decide +kernel
  exact ⟨hfailed, failed_mutation_keeps_table (.bytes hparsed) _ hfailed⟩

section Frame

/-- The in-memory values of a field differ in two versions of a record. -/
def Differs (old new : Map) (field : FieldDescriptor) : Prop :=
  sameValue (new.get? field.name) (old.get? field.name) = false

/-- The flag at `bit` is one of a field. -/
def Owns (entry : FieldDescriptor × Option NullFlagBits) (bit : Nat) : Prop :=
  entry.1.isSystem = false ∧ (nullableBit entry.2 = some bit ∨ varlengthBit entry.2 = some bit)

/-- An image in which the record at `index` was rewritten from `old` to `new`: the slots of the
other records, the header and the deletion mark are untouched, and in the slot only the fields
that differ and their flags, which are in the first system field, may have changed. -/
structure RecordFramed (table : DbfTable) (bytes : Bytes) (index : Nat) (old new : Map) : Prop where
  length : bytes.length = table.bytes.length
  outside : ∀ i, i < slotOffset table.header index ∨
    slotOffset table.header index + table.header.recordLength ≤ i → bytes[i]? = table.bytes[i]?
  marker : bytes[slotOffset table.header index]? = table.bytes[slotOffset table.header index]?
  fields : ∀ field ∈ table.fields, systemField table.fields ≠ some field →
    field.isSystem = true ∨ ¬ Differs old new field →
    slice (recordSlice bytes table.header index) field.offset field.stop =
      slice (recordSlice table.bytes table.header index) field.offset field.stop
  flags : ∀ field, systemField table.fields = some field →
    (slice (recordSlice bytes table.header index) field.offset field.stop).length =
        (slice (recordSlice table.bytes table.header index) field.offset field.stop).length ∧
      ∀ bit, (∀ entry ∈ table.entries, Owns entry bit → ¬ Differs old new entry.1) →
        flagIsSet (slice (recordSlice bytes table.header index) field.offset field.stop) bit =
          flagIsSet (slice (recordSlice table.bytes table.header index) field.offset field.stop) bit

theorem isWritten_iff {old new : Map} {field : FieldDescriptor} :
    isWritten old new field = true ↔ field.isSystem = false ∧ Differs old new field := by
  simp [isWritten, Differs]

variable {table : DbfTable} {values : Map} {index : Nat}

variable [Runtime]

theorem rewrittenBytes_framed (h : Coherent table) {record : DbfRecord}
    (hrecord : table.records[index]? = some record) {storageValues : Map} {bytes : Bytes}
    (hbytes : table.rewrittenBytes index values storageValues = .ok bytes) :
    RecordFramed table bytes index record.values values := by
  obtain ⟨hlength, hfixed⟩ := DbfTable.rewrittenBytes_eq_ok h.layout hbytes
  obtain ⟨written, changedFields, hroom, hfields, hchanged, hflags⟩ :=
    rewrittenBytes_passes h hrecord hbytes
  have hkept := fun field (hmem : field ∈ table.fields) => hfields.kept h.layout.parsed.1 hmem
  have hbefore : ∀ i, i < slotOffset table.header index ∨
      slotOffset table.header index + table.header.recordLength ≤ i →
        written[i]? = table.bytes[i]? := by
    intro i hi
    apply hfields.outside
    intro field hmem _
    have hrange := h.layout.field_range hmem
    omega
  have hmark : bytes[slotOffset table.header index]? = table.bytes[slotOffset table.header index]? :=
    hfixed _ (.inr ⟨index, rfl⟩)
  have hunchanged : ∀ field, field.isSystem = true ∨ ¬ Differs record.values values field →
      isWritten record.values values field = false := by
    intro field hkept
    rw [Bool.eq_false_iff]
    intro hyes
    obtain ⟨hplain, hdiffers⟩ := isWritten_iff.mp hyes
    rcases hkept with hrole | hsame
    · rw [hrole] at hplain
      cases hplain
    · exact hsame hdiffers
  rcases updateNullFlags_eq_ok hflags with ⟨rfl, -⟩ | ⟨system, flags, hsystem, hset, hcopy⟩
  · refine ⟨hlength, hbefore, hmark, ?_, ?_⟩
    · intro field hmem _ hsame
      simp only [slice_recordSlice (h.layout.field_range hmem).2,
        hkept field hmem (hunchanged field hsame)]
    · intro field hsystem
      obtain ⟨hmem, hrole⟩ := systemField_mem hsystem
      simp [slice_recordSlice (h.layout.field_range hmem).2,
        hkept field hmem (isWritten_system hrole)]
  · obtain ⟨hmemSystem, hrole⟩ := systemField_mem hsystem
    have hagree := Outcome.copyFromSlice_agree hcopy
    -- A field other than the flags is where the loop over the fields left it.
    have hapart := fun field (hmem : field ∈ table.fields) hne =>
      h.slice_apart hmem hmemSystem hne hagree
    refine ⟨hlength, ?_, hmark, ?_, ?_⟩
    · intro i hi
      have hrange := h.layout.field_range hmemSystem
      rw [hagree i (by omega), hbefore i hi]
    · intro field hmem hother hsame
      have hne : field ≠ system := by
        rintro rfl
        exact hother hsystem
      simp only [slice_recordSlice (h.layout.field_range hmem).2, hapart field hmem hne,
        hkept field hmem (hunchanged field hsame)]
    · intro field hfield
      cases hsystem.symm.trans hfield
      simp only [slice_recordSlice (h.layout.field_range hmemSystem).2]
      rw [Outcome.copyFromSlice_slice hcopy, ← hkept system hmemSystem (isWritten_system hrole)]
      refine ⟨setFlags_length hset, fun bit hothers => setFlags_others hset ?_⟩
      intro entry hentry hplain hselected
      have hin := (List.of_mem_zip hentry).1
      have hdiffers := (isWritten_iff.mp ((hchanged entry.1 hin).mp (of_decide_eq_true hselected))).2
      exact ⟨fun hbit => hothers entry hentry ⟨hplain, .inl hbit⟩ hdiffers,
        fun hbit => hothers entry hentry ⟨hplain, .inr hbit⟩ hdiffers⟩

variable [Filters]

variable [Serde] [Indexing] [SchemaExport]

theorem update_frames_record {table after : DbfTable} (h : Reachable table)
    {number : Nat} {call : Call}
    (hcall : Rewrites number call) (hrun : call.run table = (after, .ok ())) :
    after.header = table.header ∧ after.fields = table.fields ∧
      ∃ old new, table.records[number - 1]? = some old ∧ after.records[number - 1]? = some new ∧
        RecordFramed table after.bytes (number - 1) old.values new.values := by
  obtain ⟨index, record, _, _, _, _, update, rfl, hrecord, -, hupdate, happly⟩ := hcall.plan hrun
  obtain ⟨bytes, hbytes, rfl⟩ := DbfTable.applyUpdate_eq_ok happly
  obtain ⟨_, -, -, -, rfl⟩ := prepareUpdate_eq_ok hupdate
  rw [Nat.add_sub_cancel]
  refine ⟨rfl, rfl, record, { record with values := update.values }, hrecord, ?_,
    rewrittenBytes_framed h.coherent hrecord hbytes⟩
  rw [List.getElem?_modify_eq, hrecord]
  rfl

end Frame

attribute [local instance] Runtime.bare Filters.bare Serde.refusing Indexing.none SchemaExport.none

theorem update_frames_record_patch :
    let table := singleFieldTable 0x03 0x43 2 0 [[0x20, 0x61, 0x62], [0x20, 0x63, 0x64]]
      [⟨1, false, [("A", .string "ab")]⟩, ⟨2, false, [("A", .string "cd")]⟩]
    let after := ((Call.patch 1 [("A", .string "x")] []).run table).1
    (Call.patch 1 [("A", .string "x")] []).run table = (after, .ok ()) ∧
      RecordFramed table after.bytes 0 [("A", .string "ab")] [("A", .string "x")] := by
  let table := singleFieldTable 0x03 0x43 2 0 [[0x20, 0x61, 0x62], [0x20, 0x63, 0x64]]
    [⟨1, false, [("A", .string "ab")]⟩, ⟨2, false, [("A", .string "cd")]⟩]
  have hparsed : fromBytesWithEncoding
      (singleFieldImage 0x03 0x43 2 0 [[0x20, 0x61, 0x62], [0x20, 0x63, 0x64]]) none =
        .ok table := by
    decide +kernel
  have hrun : (Call.patch 1 [("A", .string "x")] []).run table =
      (((Call.patch 1 [("A", .string "x")] []).run table).1, .ok ()) := by decide +kernel
  have hnew : ((Call.patch 1 [("A", .string "x")] []).run table).1.records[0]? =
      some ⟨1, false, [("A", .string "x")]⟩ := by decide +kernel
  obtain ⟨-, -, old, new, hold, hnew', hframed⟩ :=
    update_frames_record (.bytes hparsed) (.inr ⟨_, _, rfl⟩) hrun
  cases hold
  cases hnew.symm.trans hnew'
  exact ⟨hrun, hframed⟩

end TxBase.Dbf
