import Mathlib.Data.List.Nodup
import TxBase.Dbf.Coherence
import TxBase.Dbf.Load

/-! Calls on an accepted table do not panic.  The mutations index their maps by field
name; that is safe as long as the maps hold every field that is not a system field, and
as long as no system field plays a role in which its name is looked up. -/
namespace TxBase.Dbf
open Lib Json List
open Outcome (Safe Yields safe_copyFromSlice safe_ok)
variable {fields : List FieldDescriptor} {values : Map} {table : DbfTable}
  {field : FieldDescriptor} {index : Nat}
  {storage : Map × MemoUpdates} {memo : MemoFile} {bytes : Bytes} {records : List DbfRecord}

theorem forall_mem_modify {α : Type} {P : α → Prop} {items : List α} {f : α → α}
    (h : ∀ item ∈ items, P item)
    (hf : ∀ item ∈ items, P (f item)) : ∀ item ∈ items.modify index f, P item := by
  intro item hmem
  obtain ⟨i, hi⟩ := getElem?_of_mem hmem
  rw [getElem?_modify] at hi
  obtain ⟨old, hold, rfl⟩ := Option.map_eq_some_iff.mp hi
  split
  · exact hf old (mem_of_getElem? hold)
  · exact h old (mem_of_getElem? hold)

/-- The values of a record: one for each field that is not a system field. -/
def Keyed (fields : List FieldDescriptor) (values : Map) : Prop :=
  ∀ field ∈ fields, (values.get? field.name).isSome ↔ field.isSystem = false

/-- Stored values: at least one for each field that is not a system field. -/
def Covers (fields : List FieldDescriptor) (values : Map) : Prop :=
  ∀ field ∈ fields, field.isSystem = false → (values.get? field.name).isSome

theorem Keyed.covers (h : Keyed fields values) : Covers fields values :=
  fun field hmem hsystem => (h field hmem).mpr hsystem

theorem Covers.insert (h : Covers fields values) (name : String) (value : Value) :
    Covers fields (values.insert name value) := by
  intro field hmem hsystem
  rw [OrderedMap.get?_insert]
  split
  · rfl
  · exact h field hmem hsystem

theorem Keyed.insert (hnodup : (fields.map FieldDescriptor.name).Nodup) (h : Keyed fields values)
    (hmem : field ∈ fields) (hsystem : field.isSystem = false) (value : Value) :
    Keyed fields (values.insert field.name value) := by
  intro other hother
  rw [OrderedMap.get?_insert]
  split
  · rename_i hname
    have hsame := inj_on_of_nodup_map hnodup hother hmem hname
    simp [hsame, hsystem]
  · exact h other hother

theorem keyed_ofList (hnodup : (fields.map FieldDescriptor.name).Nodup)
    {entries : List (String × Value)}
    (hkeys : entries.map Prod.fst =
      (fields.filter fun field => !field.isSystem).map FieldDescriptor.name) :
    Keyed fields (OrderedMap.ofList entries) := by
  have hsublist : ((fields.filter fun field => !field.isSystem).map
      FieldDescriptor.name).Nodup := (filter_sublist.map _).nodup hnodup
  intro field hmem
  rw [OrderedMap.get?_ofList entries _ (hkeys ▸ hsublist), ← Option.not_isNone,
    Bool.not_eq_true', Option.isNone_eq_false_iff, Option.isSome_iff_ne_none, ne_eq,
    OrderedMap.get?_eq_none_iff, hkeys, not_not, mem_map]
  constructor
  · rintro ⟨other, hother, hname⟩
    obtain ⟨hin, hsystem⟩ := mem_filter.mp hother
    rw [inj_on_of_nodup_map hnodup hin hmem hname] at hsystem
    simpa using hsystem
  · intro hsystem
    exact ⟨field, mem_filter.mpr ⟨hmem, by simp [hsystem]⟩, rfl⟩

theorem normalizeValues_keyed (hnodup : (table.fields.map FieldDescriptor.name).Nodup) {normal : Map}
    (h : table.normalizeValues values = .ok normal) : Keyed table.fields normal := by
  unfold DbfTable.normalizeValues at h
  split at h
  · cases h
  · cases h
    apply keyed_ofList hnodup
    rw [map_map]
    rfl

theorem nullFlagLayoutFrom_length (nextBit : Nat) (fields : List FieldDescriptor) :
    (nullFlagLayoutFrom nextBit fields).length = fields.length := by
  induction fields generalizing nextBit with
  | nil => rfl
  | cons field rest ih =>
    rw [nullFlagLayoutFrom]
    split
    · rw [length_cons, ih, length_cons]
    · rw [length_cons, ih, length_cons]

theorem decodeValues_keyed [Runtime] (hnodup : (fields.map FieldDescriptor.name).Nodup)
    (header : DbfHeader) (encoding : Option String) (record : Bytes) :
    Keyed fields (decodeValues header fields encoding record) := by
  have hlength : (nullFlagLayout fields).length = fields.length := nullFlagLayoutFrom_length 0 fields
  have hfst : (fields.zip (nullFlagLayout fields)).map Prod.fst = fields :=
    map_fst_zip (by omega)
  apply keyed_ofList hnodup
  calc List.map Prod.fst _
      = ((fields.zip (nullFlagLayout fields)).filter fun entry => !entry.1.isSystem).map
          (FieldDescriptor.name ∘ Prod.fst) := by rw [map_map]; rfl
    _ = (((fields.zip (nullFlagLayout fields)).map Prod.fst).filter
          fun field => !field.isSystem).map FieldDescriptor.name := by
        rw [filter_map, map_map]
        rfl
    _ = _ := by rw [hfst]

abbrev Quiet {α : Type} (outcome : Res α) : Prop := Yields outcome fun _ => True

theorem quiet_patchBytes {source : Bytes} {start stop : Nat} {message : String}
    (h : source.length = stop - start) :
    Quiet (patchBytes bytes start stop source message) := by
  unfold patchBytes
  split
  · rename_i hbounds
    exact ⟨safe_copyFromSlice hbounds.1 hbounds.2 h, fun _ _ => trivial⟩
  · exact .fail _

theorem quiet_writeRecordCount (bytes : Bytes) (count : Nat) :
    Quiet (writeRecordCount bytes count) :=
  quiet_patchBytes (toLeBytes_length _ _)

theorem quiet_writeCounters {header : DbfHeader} {updates : List CounterUpdate}
    (hfits : ∀ update ∈ updates, update.Fits header) (bytes : Bytes) :
    Quiet (writeCounters bytes updates) := by
  refine .foldlM ?_ trivial
  intro state update hmem _
  apply quiet_patchBytes
  rw [(hfits update hmem).2, Nat.add_sub_cancel_left]

/-- No field is looked up under a name that the maps do not hold: a system field is
not an auto-increment field, and not a memo field of a table with a memo file. -/
def Unmixed (table : DbfTable) : Prop :=
  ∀ field ∈ table.fields, field.isSystem = true →
    field.isAutoIncrement table.header.version = false ∧
      (table.memo.isSome → isSidecarField field = false)

/-- What the calls rely on. -/
structure Ready [Runtime] (table : DbfTable) : Prop where
  coherent : Coherent table
  schema : table.schema = none
  unmixed : Unmixed table
  keyed : ∀ record ∈ table.records, Keyed table.fields record.values
  covers : ∀ stored ∈ table.storedValues, Covers table.fields stored

namespace Ready
variable [Runtime]

section
variable (h : Ready table)
include h

theorem nodup : (table.fields.map FieldDescriptor.name).Nodup :=
  h.coherent.layout.parsed.2

theorem auto_notSystem (hmem : field ∈ table.fields)
    (hauto : field.isAutoIncrement table.header.version = true) : field.isSystem = false := by
  by_contra hsystem
  have hroles := h.unmixed field hmem (by simpa using hsystem)
  rw [hroles.1] at hauto
  cases hauto

theorem sidecar_notSystem (hmem : field ∈ table.sidecarFields) (hmemo : table.memo.isSome) :
    field.isSystem = false := by
  obtain ⟨hfield, hsidecar⟩ := mem_filter.mp hmem
  by_contra hsystem
  have hroles := h.unmixed field hfield (by simpa using hsystem)
  rw [hroles.2 hmemo] at hsidecar
  cases hsidecar

theorem record (hindex : index < table.records.length) :
    ∃ record, table.records[index]? = some record ∧ Keyed table.fields record.values :=
  ⟨table.records[index], getElem?_eq_getElem hindex,
    h.keyed _ (getElem_mem hindex)⟩

theorem validateCandidate [Filters] (values : Map) (excluded : Option Nat)
    (deferred : List String) : Quiet (table.validateCandidate values excluded deferred) := by
  unfold DbfTable.validateCandidate
  rw [h.schema]
  exact .ok trivial

end

omit [Runtime] in
theorem quiet_foxproCounter {headerLength fieldIndex : Nat} (hfits : headerLength ≤ bytes.length) :
    Quiet (foxproCounter bytes headerLength fieldIndex field) := by
  unfold foxproCounter
  refine .bindLift fun _ _ => .bindLift fun _ _ => .bindLift fun _ _ =>
    .bindLift fun _ hinside => .bindLift fun _ _ => .bind (.orPanic ?_)
      fun _ _ => .bindLift fun _ _ => .bindLift fun _ _ => .ok trivial
  rw [reject_eq_ok] at hinside
  rw [getElem?_eq_getElem (by omega)]
  rfl

theorem nextAutoIncrement (h : Ready table) (fieldIndex : Nat) (field : FieldDescriptor) :
    Quiet (table.nextAutoIncrement fieldIndex field) := by
  unfold DbfTable.nextAutoIncrement
  split
  · exact (Yields.lift _).mono fun _ _ => trivial
  · split
    · exact .ok trivial
    · exact quiet_foxproCounter h.coherent.layout.header_fits

theorem issueValue (h : Ready table) (fieldIndex : Nat) (hmem : field ∈ table.fields)
    (hauto : field.isAutoIncrement table.header.version = true)
    (hkeyed : Keyed table.fields values) :
    Yields (table.issueValue fieldIndex field values) fun issued =>
      Keyed table.fields issued.1 := by
  have hsystem := h.auto_notSystem hmem hauto
  unfold DbfTable.issueValue
  refine .bind (.orPanic ((hkeyed field hmem).mpr hsystem)) fun _ _ =>
    .bindLift fun _ _ => .bind (h.nextAutoIncrement fieldIndex field) fun next _ => ?_
  cases next with
  | none => exact .ok hkeyed
  | some auto =>
    exact .bindLift fun _ _ => .ok (hkeyed.insert h.nodup hmem hsystem _)

theorem issueValues (h : Ready table) (fieldIndex : Nat)
    (hfields : ∀ field ∈ fields, field ∈ table.fields)
    (hkeyed : Keyed table.fields values) :
    Yields (table.issueValues fieldIndex values fields) fun issued =>
      Keyed table.fields issued.1 := by
  induction fields generalizing fieldIndex values with
  | nil => exact .ok hkeyed
  | cons field rest ih =>
    have hrest : ∀ other ∈ rest, other ∈ table.fields :=
      (forall_mem_cons.mp hfields).2
    rw [DbfTable.issueValues]
    split
    · rename_i hauto
      exact .bind (h.issueValue fieldIndex (hfields field mem_cons_self) hauto hkeyed)
        fun first hfirst => .bind (ih (fieldIndex + 1) hrest hfirst)
          fun _ hlast => .ok hlast
    · exact ih (fieldIndex + 1) hrest hkeyed

theorem quiet_encodeFields (storageValues : Map) (nullFlags : Option Bytes)
    (fields : List FieldDescriptor) : Quiet (table.encodeFields storageValues nullFlags fields) := by
  induction fields with
  | nil => exact .ok trivial
  | cons field rest ih =>
    refine .bind (P := fun _ => True) ?_ fun _ _ => .bind ih fun _ _ =>
      .ok trivial
    unfold DbfTable.encodeRecordField
    split
    · split
      · exact .fail _
      · split
        · exact .fail _
        · exact .ok trivial
    · exact (Fills.encodeField field _ _ _).mono fun _ _ => trivial

theorem quiet_encodeRecord (storageValues : Map) : Quiet (table.encodeRecord storageValues) := by
  refine .bindLift fun _ _ => .bind (quiet_encodeFields _ _ _) fun _ _ => ?_
  dsimp only
  split
  · exact .fail _
  · exact .ok trivial

omit [Runtime] in
theorem quiet_insertedBytes {counters : List CounterUpdate}
    (hfits : ∀ update ∈ counters, update.Fits table.header) (encoded : Bytes) (number : Nat) :
    Quiet (table.insertedBytes encoded number counters) := by
  unfold DbfTable.insertedBytes
  exact .bindLift fun _ _ => .bindLift fun _ _ => .bindLift fun _ _ =>
    .bind (quiet_writeRecordCount _ _) fun _ _ => quiet_writeCounters hfits _

theorem insertStorage_covers {result : Map × MemoUpdates} (hcovers : Covers table.fields storage.1)
    (hresult : table.insertStorage index values fields storage = .ok result) :
    Covers table.fields result.1 := by
  induction fields generalizing storage with
  | nil =>
    cases hresult
    exact hcovers
  | cons field rest ih =>
    rw [DbfTable.insertStorage] at hresult
    split at hresult
    · obtain ⟨update, -, hresult⟩ := bind_eq_ok.mp hresult
      exact ih (hcovers.insert _ _) hresult
    · obtain ⟨stored, -, hresult⟩ := bind_eq_ok.mp hresult
      exact ih (hcovers.insert _ _) hresult

theorem prepareInsert [Filters] (h : Ready table) (values : Map) (deferred : List String) :
    Yields (table.prepareInsert values deferred) fun row =>
      Keyed table.fields row.values ∧ Covers table.fields row.storageValues := by
  unfold DbfTable.prepareInsert
  refine .bindLift fun normal hnormal => ?_
  have hissued := h.issueValues 0 (fun _ hmem => hmem) (normalizeValues_keyed h.nodup hnormal)
  refine .bind (P := fun issued => Keyed table.fields issued.1 ∧
    ∀ update ∈ issued.2, update.Fits table.header)
    ⟨hissued.safe, fun issued heq => ⟨hissued.result issued heq, DbfTable.issueValues_fits heq⟩⟩
    fun issued hspec => ?_
  exact .bind (h.validateCandidate _ _ _) fun _ _ => .bindLift fun _ _ =>
    .bindLift fun _ _ => .bindLift fun storage hstorage =>
    .bind (quiet_encodeRecord _) fun _ _ =>
    .bind (quiet_insertedBytes hspec.2 _ _) fun _ _ =>
      .ok ⟨hspec.1, insertStorage_covers hspec.1.covers hstorage⟩

theorem preserveField (h : Ready table) (hindex : index < table.records.length)
    (changedFields : List String)
    (hkeyed : Keyed table.fields values) (hmem : field ∈ table.fields)
    (hauto : field.isAutoIncrement table.header.version = true) :
    Yields (table.preserveField index changedFields values field) (Keyed table.fields) := by
  obtain ⟨record, hrecord, hvalues⟩ := h.record hindex
  have hsystem := h.auto_notSystem hmem hauto
  unfold DbfTable.preserveField
  rw [hrecord]
  refine .bind (P := fun other => other = record) (.ok rfl) ?_
  rintro _ rfl
  refine .bind (.orPanic ((hvalues field hmem).mpr hsystem)) fun _ _ =>
    .bind (P := fun _ => True) ?_ fun _ _ =>
      .ok (hkeyed.insert h.nodup hmem hsystem _)
  unfold DbfTable.checkReadOnly
  split
  · exact Yields.bind (Yields.orPanic ((hkeyed field hmem).mpr hsystem)) fun _ _ =>
      (Yields.lift _).mono fun _ _ => trivial
  · exact Yields.ok trivial

theorem preserveAutoIncrementFields (h : Ready table) (hindex : index < table.records.length)
    (changedFields : List String) (hkeyed : Keyed table.fields values) :
    Yields (table.preserveAutoIncrementFields index values changedFields) (Keyed table.fields) := by
  refine .foldlM ?_ hkeyed
  intro state field hmem hstate
  obtain ⟨hfield, hauto⟩ := mem_filter.mp hmem
  exact h.preserveField hindex changedFields hstate hfield hauto

/-- A field that is looked at is not a system field: neither the old nor the new values
hold the name of one, so it counts as unchanged. -/
theorem keepsField (h : Ready table) (hindex : index < table.records.length)
    (hkeyed : Keyed table.fields values)
    (named : Option (List String)) (hmem : field ∈ table.fields) :
    Yields (table.keepsField index values named field) fun kept =>
      kept = false → field.isSystem = false := by
  obtain ⟨record, hrecord, hvalues⟩ := h.record hindex
  unfold DbfTable.keepsField
  rw [hrecord]
  split
  · exact Yields.ok (by simp)
  · refine .bind (P := fun other => other = record) (.ok rfl) ?_
    rintro _ rfl
    refine .ok fun hchanged => ?_
    by_contra hsystem
    have habsent : ∀ {map : Map}, Keyed table.fields map → map.get? field.name = none := by
      intro map hmap
      rw [← Option.not_isSome_iff_eq_none, hmap field hmem]
      exact hsystem
    rw [habsent hkeyed, habsent hvalues] at hchanged
    cases hchanged

theorem keptStorage (h : Ready table) (hindex : index < table.records.length)
    (hcovers : Covers table.fields storage.1) (hmem : field ∈ table.sidecarFields) :
    Yields (table.keptStorage index storage field) fun next => Covers table.fields next.1 := by
  unfold DbfTable.keptStorage
  split
  · exact .ok hcovers
  · rename_i memo hmemo
    have hsystem := h.sidecar_notSystem hmem (by rw [hmemo]; rfl)
    have hstored : index < table.storedValues.length := by
      rw [h.coherent.stored]
      exact hindex
    rw [getElem?_eq_getElem hstored]
    refine .bind (P := fun other => other = table.storedValues[index]) (.ok rfl) ?_
    rintro _ rfl
    exact .bind (.orPanic (h.covers _ (getElem_mem hstored) field
      (mem_of_mem_filter hmem) hsystem)) fun _ _ => .ok (hcovers.insert _ _)

theorem changedStorage (hkeyed : Keyed table.fields values) (hcovers : Covers table.fields storage.1)
    (hmem : field ∈ table.fields) (hsystem : field.isSystem = false) :
    Yields (table.changedStorage index values storage field) fun next =>
      Covers table.fields next.1 := by
  unfold DbfTable.changedStorage
  refine .bind (.orPanic ((hkeyed field hmem).mpr hsystem)) fun _ _ => ?_
  split <;> exact .bindLift fun _ _ => .ok (hcovers.insert _ _)

theorem prepareExistingStorage (h : Ready table) (hindex : index < table.records.length)
    (hkeyed : Keyed table.fields values) (named : Option (List String)) :
    Yields (table.prepareExistingStorage index values named) fun storage =>
      Covers table.fields storage.1 := by
  unfold DbfTable.prepareExistingStorage
  refine .foldlM (P := fun state : Map × MemoUpdates => Covers table.fields state.1) ?_
    hkeyed.covers
  intro state field hmem hstate
  have hfield := mem_of_mem_filter hmem
  refine .bind (h.keepsField hindex hkeyed named hfield) fun kept hkept => ?_
  split
  · exact h.keptStorage hindex hstate hmem
  · exact changedStorage hkeyed hstate hfield (hkept (by simpa using ‹¬ kept = true›))

/-- An update that was prepared: where it goes, and that its values are complete. -/
structure Prepared (table : DbfTable) (update : DbfTable.Update) : Prop where
  index : update.index < table.records.length
  keyed : Keyed table.fields update.values
  covers : Covers table.fields update.storage.1

theorem prepareUpdate [Filters] (h : Ready table) (hindex : index < table.records.length)
    (values : Map)
    (changedFields : List String) (named : Option (List String)) (deferred : List String) :
    Yields (table.prepareUpdate index values changedFields named deferred) (Prepared table) := by
  unfold DbfTable.prepareUpdate
  refine .bindLift fun normal hnormal => ?_
  exact .bind (h.preserveAutoIncrementFields hindex changedFields
    (normalizeValues_keyed h.nodup hnormal)) fun preserved hkeyed =>
    .bind (h.validateCandidate _ _ _) fun _ _ =>
    .bind (h.prepareExistingStorage hindex hkeyed named) fun storage hcovers =>
      .ok ⟨hindex, hkeyed, hcovers⟩

theorem rewrittenBytes (h : Ready table) (hindex : index < table.records.length)
    (values storageValues : Map) :
    Quiet (table.rewrittenBytes index values storageValues) := by
  obtain ⟨record, hrecord, -⟩ := h.record hindex
  unfold DbfTable.rewrittenBytes
  rw [hrecord]
  refine .bindLift fun offset _ => .bind (P := fun _ => True) (.ok trivial)
    fun _ _ => Yields.bind (P := fun _ => True) (Yields.foldlM ?_ trivial) fun _ _ =>
      (Yields.lift _).mono fun _ _ => trivial
  intro state field hmem _
  unfold DbfTable.rewriteField
  split
  · exact .ok trivial
  · refine .bind (Fills.encodeField field _ _ _) fun encoded hlength =>
      .bindLift fun _ _ => .bindLift fun _ _ =>
      .bind (quiet_patchBytes ?_) fun _ _ => .ok trivial
    rw [hlength]
    unfold FieldDescriptor.stop
    omega

section Pack

theorem keptRecords (h : Ready table) (position number : Nat)
    (hrecords : ∀ i record, records[i]? = some record → table.records[position + i]? = some record) :
    Yields (table.keptRecords position number records) fun kept =>
      (∀ record ∈ kept.2.1, Keyed table.fields record.values) ∧
        ∀ stored ∈ kept.2.2, Covers table.fields stored := by
  induction records generalizing position number with
  | nil => exact .ok ⟨nofun, nofun⟩
  | cons record rest ih =>
    have hrest : ∀ i other, rest[i]? = some other →
        table.records[position + 1 + i]? = some other := by
      intro i other hother
      have hnext := hrecords (i + 1) other hother
      rwa [Nat.add_assoc, Nat.add_comm 1 i]
    rw [DbfTable.keptRecords]
    split
    · exact ih _ _ hrest
    · have hhere : table.records[position]? = some record := hrecords 0 record rfl
      have hposition := (List.getElem?_eq_some_iff.mp hhere).1
      have hmul := Nat.mul_le_mul_right table.header.recordLength (Nat.succ_le_of_lt hposition)
      have hend := h.coherent.recordEnd_le
      have hstored : position < table.storedValues.length := by
        rw [h.coherent.stored]
        exact hposition
      rw [Nat.succ_mul] at hmul
      unfold Outcome.index
      dsimp only
      rw [if_pos ⟨by omega, by omega⟩, getElem?_eq_getElem hstored]
      refine .bind (P := fun _ => True) (.ok trivial) fun _ _ =>
        .bind (P := fun other => other = table.storedValues[position]) (.ok rfl) ?_
      rintro _ rfl
      refine .bind (ih _ _ hrest) fun others hothers => .ok ⟨?_, ?_⟩
      · intro other hmem
        rcases mem_cons.mp hmem with rfl | hmem
        · exact h.keyed record (mem_of_getElem? hhere)
        · exact hothers.1 other hmem
      · exact forall_mem_cons.mpr ⟨h.covers _ (getElem_mem hstored), hothers.2⟩

omit [Runtime] in
theorem encodeMemoPointer_fills (field : FieldDescriptor) (block : Nat) :
    Fills field.width (encodeMemoPointer field block) := by
  unfold encodeMemoPointer
  split
  · rename_i hwidth
    exact Yields.ok (by rw [toLeBytes_length, hwidth])
  · dsimp only
    split
    · exact .fail _
    · exact Fills.fillRight _ (by omega)

variable {state : DbfTable.Compaction} {source : MemoFile}

theorem compactField (hcovers : ∀ stored ∈ state.storedValues, Covers table.fields stored)
    (field : FieldDescriptor) :
    Yields (table.compactField source index state field) fun next =>
      ∀ stored ∈ next.storedValues, Covers table.fields stored := by
  refine .bindLift fun _ _ => .bindLift fun _ _ => .bindLift fun _ _ =>
    .bindLift fun _ _ => .bindLift fun pointer _ => ?_
  cases pointer with
  | none => exact .ok hcovers
  | some block =>
    refine .bindLift fun content _ => ?_
    cases content with
    | none => exact .ok hcovers
    | some data =>
      refine .bindLift fun moved _ => .bind (encodeMemoPointer_fills field _)
        fun encoded hlength => .bind (quiet_patchBytes ?_) fun _ _ =>
        .bind (.orFail _ _) fun stored hstored => .ok ?_
      · rw [hlength]
        unfold FieldDescriptor.stop
        omega
      · intro other hmem
        rcases mem_or_eq_of_mem_set hmem with hmem | rfl
        · exact hcovers other hmem
        · exact (hcovers stored (mem_of_getElem? hstored)).insert _ _

theorem compactRecords (hcovers : ∀ stored ∈ state.storedValues, Covers table.fields stored)
    (records : List DbfRecord) :
    Yields (table.compactRecords source index state records) fun next =>
      ∀ stored ∈ next.storedValues, Covers table.fields stored := by
  induction records generalizing index state with
  | nil => exact .ok hcovers
  | cons record rest ih =>
    rw [DbfTable.compactRecords]
    refine .bind ?_ fun next hnext => ih hnext
    unfold DbfTable.compactRecord
    split
    · exact .ok hcovers
    · exact .foldlM (fun _ field _ hstate => compactField hstate field) hcovers

omit [Runtime] in
theorem MemoFile.fromBytes_long {format : MemoFormat}
    (h : MemoFile.fromBytes bytes format = .ok memo) :
    8 ≤ memo.bytes.length := by
  unfold MemoFile.fromBytes at h
  cases format with
  | foxPro =>
    dsimp only at h
    split at h
    · cases h
    · split at h
      · cases h
      · cases h
        dsimp only
        omega
  | dbase3 =>
    dsimp only at h
    split at h
    · cases h
    · cases h
      unfold dbtBlockSize at *
      dsimp only
      omega
  | dbase4 =>
    dsimp only at h
    split at h
    · cases h
    · split at h
      · cases h
      · cases h
        unfold dbtBlockSize at *
        dsimp only
        omega

omit [Runtime] in
theorem quiet_emptyMemo (source : MemoFile) : Quiet (DbfTable.emptyMemo source) := by
  unfold DbfTable.emptyMemo
  refine .bindLift fun _ _ => .bindLift fun compacted hcompacted =>
    .bind (P := fun _ => True) ⟨?_, fun _ _ => trivial⟩ fun _ _ => .ok trivial
  have hlong := MemoFile.fromBytes_long hcompacted
  apply safe_copyFromSlice (Nat.zero_le _) (by omega)
  split <;> simp [toBeBytes]

theorem preparePack (h : Ready table) :
    Yields table.preparePack fun packed =>
      (∀ record ∈ packed.records, Keyed table.fields record.values) ∧
        ∀ stored ∈ packed.storedValues, Covers table.fields stored := by
  unfold DbfTable.preparePack Outcome.index
  rw [if_pos ⟨Nat.zero_le _, h.coherent.layout.header_fits⟩]
  refine .bindLift fun _ _ => .bindLift fun _ _ => .bindLift fun _ _ =>
    .bind (P := fun _ => True) (.ok trivial) fun _ _ =>
    .bind (h.keptRecords 0 1 fun i record hrecord => by rwa [Nat.zero_add])
      fun kept hkept => .bindLift fun _ _ =>
    .bind (quiet_writeRecordCount _ _) fun bytes _ =>
    .bind (P := fun compacted => ∀ stored ∈ compacted.2.1, Covers table.fields stored) ?_
      fun compacted hcompacted => .ok ⟨hkept.1, hcompacted⟩
  unfold DbfTable.compactMemoSidecar
  split
  · exact .ok hkept.2
  · exact .bind (quiet_emptyMemo _) fun _ _ =>
      .bind (compactRecords hkept.2 _) fun state hstate => .ok hstate

end Pack

section Calls
variable {call : Call}

omit [Runtime] in
theorem activeIndex {number : Nat} (hactive : table.activeIndex number = .ok index) :
    index < table.records.length := by
  obtain ⟨-, record, hrecord, -⟩ := DbfTable.activeIndex_eq_ok hactive
  exact (List.getElem?_eq_some_iff.mp hrecord).1

/-- What is left after a call: no panic, and a table on which the next call is safe. -/
structure Handled (after : DbfTable × Res Unit) : Prop where
  safe : Safe after.2
  ready : Ready after.1

section
variable (h : Ready table)
include h

theorem handled_error {α : Type} {P : α → Prop} {stop : Stop DbfError}
    (hstop : Yields (.error stop : Res α) P) : Handled (table, .error stop) :=
  ⟨fun hpanic => hstop.safe (by cases hpanic; rfl), h⟩

variable [Filters]

theorem of_succeeds {after : DbfTable} (hsucceeds : Succeeds table after)
    (hkeyed : ∀ record ∈ after.records, Keyed table.fields record.values)
    (hcovers : ∀ stored ∈ after.storedValues, Covers table.fields stored) : Ready after := by
  have hsame := hsucceeds.sameLayout
  refine ⟨hsucceeds.coherent h.coherent, hsame.schema.trans h.schema, ?_, ?_, ?_⟩
  · unfold Unmixed
    have hversion : after.header.version = table.header.version := by rw [← hsame.header]
    rw [hsame.fields, hversion, hsame.memo]
    exact h.unmixed
  · rw [hsame.fields]
    exact hkeyed
  · rw [hsame.fields]
    exact hcovers

theorem insert (values : Map) (deferred : List String) :
    Handled ((Call.insert values deferred).run table) := by
  have hprepared := h.prepareInsert values deferred
  cases hrow : table.prepareInsert values deferred with
  | error stop =>
    have hrun : (Call.insert values deferred).run table = (table, .error stop) := by
      simp [Call.run, DbfTable.insertRecordWithDeferredConstraints, hrow, Except.map]
    rw [hrow] at hprepared
    rw [hrun]
    exact h.handled_error hprepared
  | ok row =>
    obtain ⟨hkeyed, hcovers⟩ := hprepared.result row hrow
    have hrun : (Call.insert values deferred).run table =
        ((table.insertRecordWithDeferredConstraints values deferred).1, .ok ()) := by
      simp [Call.run, DbfTable.insertRecordWithDeferredConstraints, hrow, Except.map]
    rw [hrun]
    refine ⟨safe_ok _, h.of_succeeds ⟨_, hrun⟩ ?_ ?_⟩
    · unfold DbfTable.insertRecordWithDeferredConstraints
      rw [hrow]
      exact forall_mem_append.mpr ⟨h.keyed, forall_mem_singleton.mpr hkeyed⟩
    · unfold DbfTable.insertRecordWithDeferredConstraints
      rw [hrow]
      exact forall_mem_append.mpr ⟨h.covers, forall_mem_singleton.mpr hcovers⟩

theorem applyUpdate (update : Res DbfTable.Update)
    (hrun : call.run table = table.applyUpdate update) (hupdate : Yields update (Prepared table)) :
    Handled (call.run table) := by
  cases update with
  | error stop =>
    rw [hrun]
    exact h.handled_error hupdate
  | ok update =>
    obtain ⟨hindex, hkeyed, hcovers⟩ := hupdate.result update rfl
    have hbytes := h.rewrittenBytes hindex update.values update.storage.1
    have hstored : update.index < table.storedValues.length := by
      rw [h.coherent.stored]
      exact hindex
    unfold DbfTable.applyUpdate DbfTable.writeUpdate DbfTable.writeExistingRecord at hrun
    dsimp only at hrun
    cases hwritten : table.rewrittenBytes update.index update.values update.storage.1 with
    | error stop =>
      rw [hwritten] at hbytes
      rw [hrun, hwritten]
      exact h.handled_error hbytes
    | ok bytes =>
      rw [hwritten] at hrun
      dsimp only at hrun
      rw [if_pos hstored] at hrun
      dsimp only at hrun
      rw [hrun]
      refine ⟨safe_ok _, h.of_succeeds ⟨call, hrun⟩ ?_ ?_⟩
      · exact forall_mem_modify h.keyed fun _ _ => hkeyed
      · intro stored hmem
        rcases mem_or_eq_of_mem_set hmem with hmem | rfl
        · exact h.covers stored hmem
        · exact hcovers

theorem replace (number : Nat) (values : Map) (deferred : List String) :
    Handled ((Call.replace number values deferred).run table) := by
  apply h.applyUpdate (table.prepareReplace number values deferred) rfl
  exact .bindLift fun index hactive =>
    h.prepareUpdate (activeIndex hactive) values values.keys none deferred

theorem patch (number : Nat) (values : Map) (deferred : List String) :
    Handled ((Call.patch number values deferred).run table) := by
  apply h.applyUpdate (table.preparePatch number values deferred) rfl
  refine .bindLift fun index hactive => .bind (.orPanic ?_) fun _ _ =>
    .bindLift fun expanded _ =>
      h.prepareUpdate (activeIndex hactive) expanded.1 expanded.2 (some expanded.2) deferred
  rw [getElem?_eq_getElem (activeIndex hactive)]
  rfl

theorem mark (prepared : Res (Nat × Nat)) (deleted : Bool)
    (hrun : call.run table = match prepared with
      | .error stop => (table, .error stop)
      | .ok (index, offset) => (table.markRecord index offset deleted, .ok ()))
    (hprepared : Quiet prepared) : Handled (call.run table) := by
  cases prepared with
  | error stop =>
    rw [hrun]
    exact h.handled_error hprepared
  | ok place =>
    rw [hrun]
    exact ⟨safe_ok _, h.of_succeeds ⟨call, hrun⟩ (forall_mem_modify h.keyed h.keyed) h.covers⟩

theorem delete (number : Nat) : Handled ((Call.delete number).run table) := by
  apply h.mark (table.prepareDelete number) true rfl
  exact .bindLift fun _ _ => .bindLift fun _ _ => .bindLift fun _ _ =>
    .ok trivial

theorem «recall» (number : Nat) (deferred : List String) :
    Handled ((Call.recall number deferred).run table) := by
  apply h.mark (table.prepareRecall number deferred) false rfl
  refine .bindLift fun _ _ => .bind (.orFail _ _) fun _ _ =>
    .bindLift fun _ _ => .bind (h.validateCandidate _ _ _) fun _ _ =>
    .bindLift fun offset hoffset => .bind (.orPanic ?_) fun _ _ =>
      .ok trivial
  have hroom := (DbfTable.recordOffset_eq_ok hoffset).2
  have hpos := h.coherent.layout.recordLength_pos
  rw [getElem?_eq_getElem (by omega)]
  rfl

theorem pack : Handled (Call.pack.run table) := by
  have hprepared := h.preparePack
  cases hpacked : table.preparePack with
  | error stop =>
    have hrun : Call.pack.run table = (table, .error stop) := by
      simp [Call.run, DbfTable.pack, hpacked]
    rw [hpacked] at hprepared
    rw [hrun]
    exact h.handled_error hprepared
  | ok packed =>
    obtain ⟨hkeyed, hcovers⟩ := hprepared.result packed hpacked
    have hrun : Call.pack.run table = (table.pack.1, .ok ()) := by
      simp [Call.run, DbfTable.pack, hpacked]
    rw [hrun]
    refine ⟨safe_ok _, h.of_succeeds ⟨_, hrun⟩ ?_ ?_⟩
    · unfold DbfTable.pack
      rw [hpacked]
      exact hkeyed
    · unfold DbfTable.pack
      rw [hpacked]
      exact hcovers

theorem step (call : Call) : Handled (call.run table) := by
  cases call with
  | insert values deferred => exact h.insert values deferred
  | replace number values deferred => exact h.replace number values deferred
  | patch number values deferred => exact h.patch number values deferred
  | delete number => exact h.delete number
  | «recall» number deferred => exact h.recall number deferred
  | pack => exact h.pack

end

end Calls

end Ready

section Load
variable [Runtime]

/-- A table as it is loaded: parsed from an image and, if there is a memo file, with
the memos of its active records. -/
inductive Loaded : DbfTable → Prop
  | plain {bytes : Bytes} {encodingOverride : Option String} {table : DbfTable}
      (h : fromBytesWithEncoding bytes encodingOverride = .ok table) : Loaded table
  | withMemo {bytes memoBytes : Bytes} {encodingOverride : Option String} {format : MemoFormat}
      {memo : MemoFile} {table resolved : DbfTable}
      (h : fromBytesWithEncoding bytes encodingOverride = .ok table)
      (hmemo : MemoFile.fromBytes memoBytes format = .ok memo)
      (hresolved : table.resolveMemos memo = .ok resolved) :
      Loaded { resolved with memo := some memo }

theorem ready_fromBytes {encoding : Option String}
    (h : fromBytesWithEncoding bytes encoding = .ok table) (hunmixed : Unmixed table) :
    Ready table := by
  have hcoherent := coherent_fromBytes h
  unfold fromBytesWithEncoding at h
  obtain ⟨⟨header, fields⟩, hlayout, h⟩ := bind_eq_ok.mp h
  obtain ⟨records, hrecords, h⟩ := bind_eq_ok.mp h
  cases h
  have hkeyed : ∀ record ∈ records, Keyed fields record.values := by
    intro record hmem
    obtain ⟨i, hi⟩ := getElem?_of_mem hmem
    have hparsed := (parseRecordsFrom_eq_ok.mp hrecords).2 i record hi
    have hmark := hcoherent.marked i record hi
    rw [Nat.zero_add, parseRecord_eq_ok hcoherent.layout.recordLength_pos
      (List.getElem?_eq_some_iff.mp hmark).1] at hparsed
    obtain ⟨deleted, -, rfl⟩ := hparsed
    exact decodeValues_keyed hcoherent.layout.parsed.2 _ _ _
  refine ⟨hcoherent, rfl, hunmixed, hkeyed, ?_⟩
  intro stored hmem
  obtain ⟨record, hrecord, rfl⟩ := mem_map.mp hmem
  exact (hkeyed record hrecord).covers

/-- Resolving memos changes nothing of a record but its values, and keeps their names. -/
structure Resolved (fields : List FieldDescriptor) (old new : DbfRecord) : Prop where
  number : new.number = old.number
  deleted : new.deleted = old.deleted
  keyed : Keyed fields old.values → Keyed fields new.values

theorem resolveRecord_eq_ok (hnodup : (table.fields.map FieldDescriptor.name).Nodup)
    (hsidecar : ∀ field ∈ table.sidecarFields, field.isSystem = false) {old new : DbfRecord}
    (h : table.resolveRecord memo index old = .ok new) : Resolved table.fields old new := by
  unfold DbfTable.resolveRecord at h
  split at h
  · cases h
    exact ⟨rfl, rfl, id⟩
  · obtain ⟨offset, -, h⟩ := bind_eq_ok.mp h
    obtain ⟨values, hvalues, h⟩ := bind_eq_ok.mp h
    cases h
    refine ⟨rfl, rfl, fun hkeyed => foldlM_invariant ?_ hkeyed hvalues⟩
    intro state field next hmem hstate hnext
    unfold DbfTable.resolveField at hnext
    split at hnext
    · cases hnext
      exact hstate
    · obtain ⟨content, -, hnext⟩ := bind_eq_ok.mp hnext
      cases content with
      | none =>
        cases hnext
        exact hstate
      | some data =>
        cases hnext
        exact hstate.insert hnodup (mem_of_mem_filter hmem) (hsidecar field hmem) _

theorem resolveRecordsFrom_eq_ok (hnodup : (table.fields.map FieldDescriptor.name).Nodup)
    (hsidecar : ∀ field ∈ table.sidecarFields, field.isSystem = false) {resolved : List DbfRecord}
    (h : table.resolveRecordsFrom memo index records = .ok resolved) :
    resolved.length = records.length ∧ ∀ (i : Nat) (new : DbfRecord), resolved[i]? = some new →
      ∃ old, records[i]? = some old ∧ Resolved table.fields old new := by
  induction records generalizing index resolved with
  | nil =>
    cases h
    exact ⟨rfl, nofun⟩
  | cons record rest ih =>
    obtain ⟨first, hfirst, h⟩ := bind_eq_ok.mp h
    obtain ⟨others, hothers, h⟩ := bind_eq_ok.mp h
    cases h
    obtain ⟨hlength, hrest⟩ := ih hothers
    refine ⟨by rw [length_cons, hlength, length_cons], ?_⟩
    intro i new hnew
    cases i with
    | zero =>
      cases hnew
      exact ⟨record, rfl, resolveRecord_eq_ok hnodup hsidecar hfirst⟩
    | succ i => exact hrest i new hnew

theorem Loaded.ready (h : Loaded table) (hunmixed : Unmixed table) : Ready table := by
  cases h with
  | plain h => exact ready_fromBytes h hunmixed
  | @withMemo _ _ _ _ memo table resolved h hmemo hresolved =>
    obtain ⟨records, hrecords, hresolved⟩ := bind_eq_ok.mp hresolved
    cases hresolved
    have hplain : Unmixed table := by
      intro field hmem hsystem
      refine ⟨(hunmixed field hmem hsystem).1, fun hsome => ?_⟩
      exact (hunmixed field hmem hsystem).2 rfl
    have hready := ready_fromBytes h hplain
    have hsidecar : ∀ field ∈ table.sidecarFields, field.isSystem = false := by
      intro field hmem
      obtain ⟨hfield, hrole⟩ := mem_filter.mp hmem
      by_contra hsystem
      rw [(hunmixed field hfield (by simpa using hsystem)).2 rfl] at hrole
      cases hrole
    obtain ⟨hlength, hall⟩ := resolveRecordsFrom_eq_ok hready.nodup hsidecar hrecords
    refine ⟨⟨hready.coherent.layout, ?_, ?_, ?_, ?_⟩, hready.schema, hunmixed, ?_, hready.covers⟩
    · dsimp only
      rw [hlength]
      exact hready.coherent.counted
    · dsimp only
      rw [hlength]
      exact hready.coherent.stored
    · intro i record hrecord
      obtain ⟨old, hold, hspec⟩ := hall i record hrecord
      rw [hspec.number]
      exact hready.coherent.numbered i old hold
    · intro i record hrecord
      obtain ⟨old, hold, hspec⟩ := hall i record hrecord
      dsimp only
      rw [hspec.deleted]
      exact hready.coherent.marked i old hold
    · intro record hmem
      obtain ⟨i, hi⟩ := getElem?_of_mem hmem
      obtain ⟨old, hold, hspec⟩ := hall i record hi
      exact hspec.keyed (hready.keyed old (mem_of_getElem? hold))

/-- Any call, whether it returned `Ok` or an error. -/
def Leaves [Filters] (before after : DbfTable) : Prop :=
  ∃ call : Call, (call.run before).1 = after

theorem calls_never_panic [Filters] {table reached : DbfTable} (hloaded : Loaded table)
    (hunmixed : Unmixed table) (hrun : Relation.ReflTransGen Leaves table reached) (call : Call) :
    Safe (call.run reached).2 := by
  have hready : Ready reached := by
    induction hrun with
    | refl => exact hloaded.ready hunmixed
    | tail _ hlast ih =>
      obtain ⟨previous, rfl⟩ := hlast
      exact (ih.step previous).ready
  exact (hready.step call).safe

end Load

attribute [local instance] Runtime.bare Filters.bare

/-- An integer field that is both a system field and an auto-increment field: an insert
that names no field looks up a value that is not there. -/
theorem insert_panics :
    let table := singleFieldTable 0x31 0x49 4 0x0d [] []
    fromBytes (singleFieldImage 0x31 0x49 4 0x0d []) = .ok table ∧
      (Call.insert [] []).run table = (table, Outcome.panicked) := by
  decide +kernel

theorem calls_never_panic_insert :
    let table := singleFieldTable 0x31 0x49 4 0x0c [] []
    Loaded table ∧ Unmixed table ∧ Safe ((Call.insert [] []).run table).2 := by
  have hparsed : fromBytesWithEncoding (singleFieldImage 0x31 0x49 4 0x0c []) none =
      .ok (singleFieldTable 0x31 0x49 4 0x0c [] []) := by decide +kernel
  have hunmixed : Unmixed (singleFieldTable 0x31 0x49 4 0x0c [] []) := by
    intro field hmem hsystem
    rw [mem_singleton.mp hmem] at hsystem
    exact absurd hsystem (by decide +kernel)
  exact ⟨.plain hparsed, hunmixed, calls_never_panic (.plain hparsed) hunmixed .refl _⟩

end TxBase.Dbf
