import TxBase.Dbf.Faithful
import TxBase.Dbf.RecordFrame

/-! Whether a nullable field reads back as null.  An insert writes the null flags of the values
it stores, and stores an empty reference for a memo field whatever its value is; an update writes
the flags of the values themselves. -/
namespace TxBase.Dbf
open Lib Json List
open Outcome (lift_eq_ok)
variable {table : DbfTable} {index : Nat} {values : Map} {field : FieldDescriptor}
  {named : Option (List String)}
  {changedFields : List String} {name : String} {encoding : Option String} {bytes : Bytes}
  {fields : List FieldDescriptor} {value : Value}

section Storage
theorem sidecar_inj (hnodup : (table.fields.map FieldDescriptor.name).Nodup)
    {other : FieldDescriptor}
    (hmem : field ∈ table.sidecarFields) (hother : other ∈ table.sidecarFields)
    (hname : field.name = other.name) :
    field = other :=
  inj_on_of_nodup_map hnodup (mem_of_mem_filter hmem) (mem_of_mem_filter hother) hname

theorem valueOrNull_insert_self (values : Map) (name : String) (value : Value) :
    valueOrNull (values.insert name value) name = value :=
  valueOrNull_of_get (OrderedMap.get?_insert_self _ _ _)

variable [Runtime]

theorem storageValueWithoutSidecar_eq_ok {stored : Value}
    (h : storageValueWithoutSidecar value field = .ok stored) :
    stored = emptyMemoValue field := by
  unfold storageValueWithoutSidecar at h
  dsimp only at h
  split at h
  all_goals
    obtain ⟨data, -, h⟩ := bind_eq_ok.mp h
    obtain ⟨empty, -, h⟩ := bind_eq_ok.mp h
    split at h
    · cases h
      rfl
    · cases h

variable {storage : Map × MemoUpdates}

theorem insertStorage_sidecar (hnodup : (table.fields.map FieldDescriptor.name).Nodup)
    (hfields : ∀ field ∈ fields, field ∈ table.sidecarFields) {result : Map × MemoUpdates}
    (h : table.insertStorage index values fields storage = .ok result)
    (hsidecar : field ∈ table.sidecarFields)
    (hstored : field ∈ fields ∨ valueOrNull storage.1 field.name = emptyMemoValue field) :
    valueOrNull result.1 field.name = emptyMemoValue field := by
  induction fields generalizing storage with
  | nil =>
    cases h
    exact hstored.resolve_left (not_mem_nil)
  | cons head rest ih =>
    have hrest : ∀ other ∈ rest, other ∈ table.sidecarFields :=
      (forall_mem_cons.mp hfields).2
    -- what this step stores, for this field or for another one
    have hstep : field ∈ rest ∨
        valueOrNull (storage.1.insert head.name (emptyMemoValue head)) field.name =
          emptyMemoValue field := by
      by_cases hname : field.name = head.name
      · rw [sidecar_inj hnodup hsidecar (hfields head mem_cons_self) hname]
        exact .inr (valueOrNull_insert_self _ _ _)
      · rw [valueOrNull_insert_ne _ hname]
        rcases hstored with hin | hvalue
        · exact .inl ((mem_cons.mp hin).resolve_left fun heq => hname (by rw [heq]))
        · exact .inr hvalue
    rw [DbfTable.insertStorage] at h
    split at h
    · obtain ⟨update, -, h⟩ := bind_eq_ok.mp h
      exact ih hrest h hstep
    · obtain ⟨stored, hempty, h⟩ := bind_eq_ok.mp h
      rw [storageValueWithoutSidecar_eq_ok hempty] at h
      exact ih hrest h hstep

theorem existingStorageField_changed {next : Map × MemoUpdates}
    (h : table.existingStorageField index values named storage field = .ok next)
    (hchanged : table.keepsField index values named field = .ok false) :
    next.1 = storage.1.insert field.name (emptyMemoValue field) := by
  unfold DbfTable.existingStorageField at h
  rw [hchanged] at h
  change table.changedStorage index values storage field = .ok next at h
  unfold DbfTable.changedStorage at h
  obtain ⟨value, -, h⟩ := bind_eq_ok.mp h
  split at h
  · obtain ⟨stored, hempty, h⟩ := bind_eq_ok.mp h
    cases h
    rw [storageValueWithoutSidecar_eq_ok (lift_eq_ok.mp hempty)]
  · obtain ⟨update, -, h⟩ := bind_eq_ok.mp h
    cases h
    rfl

theorem prepareExistingStorage_changed (hnodup : (table.fields.map FieldDescriptor.name).Nodup)
    (h : table.prepareExistingStorage index values named = .ok storage)
    (hsidecar : field ∈ table.sidecarFields)
    (hchanged : table.keepsField index values named field = .ok false) :
    valueOrNull storage.1 field.name = emptyMemoValue field := by
  have hfold : ∀ (fields : List FieldDescriptor) (start result : Map × MemoUpdates),
      (∀ other ∈ fields, other ∈ table.sidecarFields) →
      fields.foldlM (table.existingStorageField index values named) start = .ok result →
      field ∈ fields ∨ valueOrNull start.1 field.name = emptyMemoValue field →
      valueOrNull result.1 field.name = emptyMemoValue field := by
    intro fields
    induction fields with
    | nil =>
      intro start result _ hrun hstored
      cases hrun
      exact hstored.resolve_left not_mem_nil
    | cons head rest ih =>
      intro start result hfields hrun hstored
      rw [foldlM_cons] at hrun
      obtain ⟨middle, hmiddle, hrun⟩ := bind_eq_ok.mp hrun
      apply ih middle result (forall_mem_cons.mp hfields).2 hrun
      by_cases hname : field.name = head.name
      · obtain rfl := sidecar_inj hnodup hsidecar (hfields head mem_cons_self) hname
        rw [existingStorageField_changed hmiddle hchanged]
        exact .inr (valueOrNull_insert_self _ _ _)
      · have hkept : valueOrNull middle.1 field.name = valueOrNull start.1 field.name := by
          rcases existingStorageField_insert hmiddle with heq | ⟨value, heq⟩
          · rw [heq]
          · rw [heq, valueOrNull_insert_ne _ hname]
        rw [hkept]
        exact hstored.imp_left fun hin =>
          (mem_cons.mp hin).resolve_left fun heq => hname (by rw [heq])
  exact hfold _ _ _ (fun _ hin => hin) h (.inl hsidecar)

end Storage

section Expand
theorem claimFields_eq_ok {fields result : List String}
    (h : claimFields changedFields fields = .ok result) :
    result = changedFields ++ fields := by
  induction fields generalizing changedFields with
  | nil =>
    cases h
    exact (append_nil _).symm
  | cons field rest ih =>
    rw [claimFields] at h
    split at h
    · cases h
    · rw [ih h, append_assoc]
      rfl

variable [Runtime]

theorem applyOperator_get {next fields : Map} {operator : String}
    (h : applyOperator values operator fields = .ok next) (hname : name ∉ fields.keys) :
    next.get? name = values.get? name := by
  unfold applyOperator at h
  split at h
  · cases h
    exact OrderedMap.get?_extend_of_notMem values hname
  split at h
  · cases h
    have hfold : ∀ (keys : List String) (start : Map), name ∉ keys →
        (keys.foldl (fun values field => values.insert field .null) start).get? name =
          start.get? name := by
      intro keys
      induction keys with
      | nil => exact fun _ _ => rfl
      | cons key rest ih =>
        intro start hnot
        rw [mem_cons, not_or] at hnot
        exact (ih _ hnot.2).trans (OrderedMap.get?_insert_ne _ _ hnot.1)
    exact hfold _ _ hname
  · refine foldlM_invariant (P := fun state : Map => state.get? name = values.get? name) ?_ rfl h
    intro state entry after hmem hstate hafter
    obtain ⟨value, -, hafter⟩ := bind_eq_ok.mp hafter
    cases hafter
    have hne : name ≠ entry.1 := fun heq => hname (heq ▸ mem_map_of_mem hmem)
    rw [OrderedMap.get?_insert_ne _ _ hne, hstate]

theorem expandUpdate_get {current update : Map}
    (h : expandUpdate current update = .ok (values, changedFields))
    (hname : name ∉ changedFields) : values.get? name = current.get? name := by
  unfold expandUpdate at h
  split at h
  · cases h
    exact OrderedMap.get?_extend_of_notMem current hname
  split at h
  · cases h
  · have hkept := foldlM_invariant
      (P := fun state : Map × List String => ∀ name, name ∉ state.2 →
        state.1.get? name = current.get? name)
      (fun state entry next _ hstate hnext => ?_) (fun _ _ => rfl) h
    · exact hkept name hname
    · simp only [expandOperator, bind_eq_ok] at hnext
      obtain ⟨-, -, fields, -, claimed, hclaimed, after, hafter, hnext⟩ := hnext
      cases hnext
      intro other hother
      rw [claimFields_eq_ok hclaimed, mem_append, not_or] at hother
      rw [applyOperator_get hafter hother.2, hstate other hother.1]

end Expand

section Decode
variable {header : DbfHeader} {stored : Bytes}

theorem int_ne_null {value : Int} (h : -2 ^ 63 ≤ value ∧ value < 2 ^ 64) :
    Value.int value ≠ .null := by
  unfold Value.int Number.ofInt?
  rw [dif_pos h]
  exact fun heq => by cases heq

theorem block_ne_null (h : bytes.length = 4) : Value.int (fromLeBytes bytes) ≠ .null := by
  have hlt := fromLeBytes_lt bytes
  rw [h] at hlt
  exact int_ne_null ⟨by omega, by omega⟩

variable [Runtime]

theorem decodeStored_eq_null (hfoxpro : isFoxproTable header.version = true)
    {isNull hasLength : Bool} :
    decodeStored header encoding field isNull hasLength stored = .null ↔
      isNull = true ∨ decodeStored header encoding field false hasLength stored = .null := by
  cases isNull with
  | false => simp
  | true => simp [decodeStored, hfoxpro]

theorem emptyMemo_rereads (hfoxpro : isFoxproTable header.version = true)
    (hsidecar : isSidecarField field = true)
    (hstored : encodeFieldWithEncoding field
      (emptyMemoValue field) header.languageDriver encoding = .ok stored) :
    decodeStored header encoding field false field.isVariable stored ≠ .null := by
  have hformat : memoFormatForVersion header.version = some .foxPro := by
    have hrange : 0x30 ≤ header.version.toNat ∧ header.version.toNat ≤ 0x32 := by
      simpa [isFoxproTable, UInt8.le_iff_toNat_le] using hfoxpro
    unfold memoFormatForVersion
    obtain h | h | h : header.version.toNat = 0x30 ∨ header.version.toNat = 0x31 ∨
      header.version.toNat = 0x32 := by
      omega
    all_goals
      rw [h]
      rfl
  simp only [isSidecarField, decide_eq_true_eq] at hsidecar
  have hkind : field.isVariable = false ∧ field.kind ≠ .c := by
    unfold FieldDescriptor.isVariable
    rcases hsidecar with h | h | h | h | ⟨h, -⟩ <;> simp [h]
  have hdecode : decodeStored header encoding field false field.isVariable stored =
      decodeFieldWithEncoding field.fieldType stored header.languageDriver
        (some .foxPro) encoding := by
    simp [decodeStored, hkind.1, hkind.2, hformat]
  rw [hdecode]
  have href : (if stored.length = 4 then Value.int (fromLeBytes stored) else .string
    (plainText stored)) ≠ .null := by
    split
    · rename_i hlength
      exact block_ne_null hlength
    · exact fun heq => by cases heq
  unfold decodeFieldWithEncoding
  rcases hsidecar with h | h | h | h | ⟨h, hwidth⟩
  iterate 4
    rw [show FieldKind.ofByte field.fieldType = _ from h]
    exact href
  · rw [show FieldKind.ofByte field.fieldType = .b from h]
    unfold encodeFieldWithEncoding at hstored
    rw [h] at hstored
    simp only [hwidth, if_false] at hstored
    have hother : ¬ ((some MemoFormat.foxPro).isSome = true ∧ some MemoFormat.foxPro ≠ some .foxPro ∧
        stored.length ≠ 4) := by simp
    dsimp only
    rw [if_neg hother]
    by_cases hfour : field.width = 4
    · rw [if_pos hfour] at hstored
      obtain ⟨number, -, hstored⟩ := bind_eq_ok.mp hstored
      cases hstored
      rw [if_neg (by simp), if_pos (by simp)]
      exact block_ne_null (by simp)
    · rw [if_neg hfour] at hstored
      have hblank : stored = List.replicate field.width 0x20 := by
        unfold encodePaddedText emptyMemoValue at hstored
        rw [if_neg hfour] at hstored
        obtain ⟨text, htext, hstored⟩ := bind_eq_ok.mp hstored
        cases lift_eq_ok.mp htext
        split at hstored
        · cases hstored
        · obtain ⟨-, -, -, hcopied⟩ := Outcome.copyFromSlice_eq_ok hstored
          rw [hcopied, show utf8 "" = [] by decide +kernel]
          simp
      rw [hblank]
      split
      · rename_i hlong
        rw [length_replicate] at hlong
        unfold decodeDouble
        rw [take_replicate, Nat.min_eq_left hlong,
          show Number.fromF64 (F64.ofLeBytes (List.replicate 8 0x20)) =
            some (.float ⟨F64.ofLeBytes (List.replicate 8 0x20),
              by decide +kernel⟩) by decide +kernel]
        exact fun heq => by cases heq
      · rw [if_neg (by rwa [length_replicate])]
        exact fun heq => by cases heq

end Decode

section RoundTrip
theorem emptyMemoValue_ne_null (field : FieldDescriptor) : emptyMemoValue field ≠ .null := by
  unfold emptyMemoValue
  split
  · exact int_ne_null (by decide)
  · exact fun heq => by cases heq

theorem forall_entries {P : FieldDescriptor × Option NullFlagBits → Prop}
    {Q : FieldDescriptor → Prop}
    (h : ∀ entry ∈ table.entries, (P entry ↔ Q entry.1)) :
    (∀ entry ∈ table.entries, P entry) ↔ ∀ field ∈ table.fields, Q field := by
  constructor
  · intro hentries field hmem
    obtain ⟨entry, hentry, rfl⟩ := exists_entry hmem
    exact (h entry hentry).mp (hentries entry hentry)
  · exact fun hfields entry hentry => (h entry hentry).mpr (hfields entry.1 (of_mem_zip hentry).1)

variable {row : DbfTable.InsertedRow} {deferred : List String} {update : DbfTable.Update}
  {record : DbfRecord}

/-- A memo field whose value differs from the one before is changed, whatever the update names. -/
theorem keepsField_changed (hrecord : table.records[index]? = some record)
    (hnamed : ∀ fields, named = some fields → field.name ∉ fields →
      sameValue (values.get? field.name) (record.values.get? field.name) = true)
    (hdiffers : sameValue (values.get? field.name) (record.values.get? field.name) = false) :
    table.keepsField index values named field = .ok false := by
  have hfind : named.any (fun fields => decide (field.name ∉ fields)) = false := by
    cases named with
    | none => rfl
    | some fields =>
      by_contra hnot
      have hsame := hnamed fields rfl (by simpa using hnot)
      rw [hdiffers] at hsame
      cases hsame
  unfold DbfTable.keepsField
  rw [hfind, hrecord]
  exact congrArg Except.ok hdiffers

theorem sameValue_refl (value : Option Value) : sameValue value value = true := by
  cases value with
  | none => rfl
  | some value => exact Value.eqv_refl value

theorem null_iff_of_sameValue {left right : Option Value} (h : sameValue left right = true) :
    left = some .null ↔ right = some .null := by
  cases left <;> cases right <;> simp only [sameValue, Bool.false_eq_true, Option.some.injEq] at h ⊢
  constructor
  · rintro rfl
    exact Value.null_eqv_iff.mp h
  · rintro rfl
    exact Value.null_eqv_iff.mp (Value.eqv_symm h)

variable [Runtime] {after : DbfTable}

/-- The nullable fields of the record at `index` are null in memory exactly when they are null
after the image was parsed again. -/
def NullsKept (table : DbfTable) (index : Nat) : Prop :=
  ∃ reparsed stored memory, fromBytesWithEncoding table.bytes table.encodingOverride = .ok reparsed ∧
    reparsed.records[index]? = some stored ∧ table.records[index]? = some memory ∧
    ∀ field ∈ table.fields, field.isSystem = false → field.isNullable = true →
      (stored.values.get? field.name = some .null ↔ memory.values.get? field.name = some .null)

theorem nullsKept_iff (h : Coherent table) {memory : DbfRecord}
    (hmemory : table.records[index]? = some memory) :
    NullsKept table index ↔ ∀ entry ∈ table.entries, entry.1.isSystem = false →
      entry.1.isNullable = true →
      (table.onDisk index entry = .null ↔ memory.values.get? entry.1.name = some .null) := by
  obtain ⟨reparsed, hreparsed, -, -, hrecords⟩ := h.reparse
  have hstored : reparsed.records[index]? =
      some ⟨memory.number, memory.deleted,
        decodeValues table.header table.fields table.encodingOverride
        (recordSlice table.bytes table.header index)⟩ := by
    rw [hrecords, DbfTable.storedRecords, getElem?_mapIdx, hmemory]
    rfl
  have hvalue : ∀ entry ∈ table.entries, entry.1.isSystem = false →
      ((decodeValues table.header table.fields table.encodingOverride
        (recordSlice table.bytes table.header index)).get? entry.1.name = some .null ↔
          table.onDisk index entry = .null) := by
    intro entry hentry hsystem
    rw [decodeValues_get h.layout.parsed.2 _ hentry hsystem, Option.some.injEq]
    rfl
  constructor
  · rintro ⟨other, stored, record, hother, hrecord, hmem, hkept⟩ entry hentry hsystem hnullable
    cases hreparsed.symm.trans hother
    cases hstored.symm.trans hrecord
    cases hmemory.symm.trans hmem
    rw [← hvalue entry hentry hsystem]
    exact hkept entry.1 (of_mem_zip hentry).1 hsystem hnullable
  · intro hkept
    refine ⟨reparsed, _, memory, hreparsed, hstored, hmemory, ?_⟩
    intro field hmem hsystem hnullable
    obtain ⟨entry, hentry, rfl⟩ := exists_entry hmem
    exact (hvalue entry hentry hsystem).trans (hkept entry hentry hsystem hnullable)

/-- A value that is not null, but that its field gives back as null. -/
def DbfTable.Loses (table : DbfTable) (field : FieldDescriptor) (value : Value) : Prop :=
  value ≠ .null ∧ ∃ stored, encodeFieldWithEncoding field value table.header.languageDriver
      table.encodingOverride = .ok stored ∧
    decodeStored table.header table.encodingOverride field false field.isVariable stored = .null

/-- An update to `values` keeps the nulls of a record: a field that it changes is a memo field or
gives its value back, any other one agreed with the image before. -/
def DbfTable.UpdateKeepsNulls (table : DbfTable) (number : Nat) (values : Map) : Prop :=
  ∀ record, table.records[number - 1]? = some record →
    ∀ entry ∈ table.entries, entry.1.isSystem = false →
    entry.1.isNullable = true →
    if entry.1.isAutoIncrement table.header.version ∨
        sameValue (some (valueOrNull values entry.1.name)) (record.values.get? entry.1.name) then
      (table.onDisk (number - 1) entry = .null ↔ record.values.get? entry.1.name = some .null)
    else isSidecarField entry.1 ∨ ¬ table.Loses entry.1 (valueOrNull values entry.1.name)

/-- When a call keeps the nulls of the record it writes: an insert gives no null to a memo field
and no other field loses its value. -/
def Call.KeepsNulls (table : DbfTable) : Call → Prop
  | .insert values _ => ∀ field ∈ table.fields, field.isSystem = false → field.isNullable = true →
      table.issues field = false →
      if isSidecarField field then valueOrNull (table.withDefaults values) field.name ≠ .null
      else ¬ table.Loses field (valueOrNull (table.withDefaults values) field.name)
  | .replace number values _ => table.UpdateKeepsNulls number values
  | .patch number given _ => ∀ record, table.records[number - 1]? = some record →
      ∀ values changedFields, expandUpdate record.values given = .ok (values, changedFields) →
        table.UpdateKeepsNulls number values
  | .delete _ | .recall _ _ | .pack => True

theorem decodes_null_iff (hfoxpro : isFoxproTable table.header.version = true)
    (hnullable : field.isNullable = true)
    (flagged : Value) (bytes : Bytes) :
    decodeStored table.header table.encodingOverride field
      (field.isNullable && flagged.isNull) field.isVariable
        bytes = .null ↔
      flagged = .null ∨
        decodeStored table.header table.encodingOverride field false field.isVariable bytes = .null := by
  rw [decodeStored_eq_null hfoxpro, hnullable, Bool.true_and]
  cases flagged <;> simp [Value.isNull]

theorem not_loses_iff
    (hbytes : encodeFieldWithEncoding field value table.header.languageDriver
      table.encodingOverride = .ok bytes) :
    ¬ table.Loses field value ↔
      ((value = .null ∨
          decodeStored table.header table.encodingOverride field false field.isVariable bytes =
            .null) ↔
        value = .null) := by
  unfold DbfTable.Loses
  rw [hbytes]
  simp only [Except.ok.injEq, exists_eq_left']
  tauto

variable {row : DbfTable.InsertedRow} {deferred : List String} {update : DbfTable.Update}
  {record : DbfRecord}
  {call : Call}

theorem Call.Asks.unnamed (h : call.Asks record values changedFields named) {fields : List String}
    (hnamed : named = some fields) (hname : name ∉ fields) :
    values.get? name = record.values.get? name := by
  cases call with
  | replace number given deferred => cases h.2.2.symm.trans hnamed
  | patch number given deferred =>
    cases h.2.symm.trans hnamed
    exact expandUpdate_get h.1 hname
  | insert _ _ | delete _ | «recall» _ _ | pack => exact h.elim

variable [Filters]

section
variable (h : Coherent table)
include h

theorem insert_sidecar (hrow : table.prepareInsert values deferred = .ok row)
    (hmem : field ∈ table.fields)
    (hsidecar : isSidecarField field = true) :
    valueOrNull row.storageValues field.name = emptyMemoValue field := by
  simp only [DbfTable.prepareInsert, bind_eq_ok, lift_eq_ok] at hrow
  obtain ⟨normal, -, issued, -, -, -, -, -, -, -, ⟨storage, pending⟩, hstorage, encoded, -, bytes,
    -, hrow⟩ := hrow
  cases hrow
  have hin : field ∈ table.sidecarFields := mem_filter.mpr ⟨hmem, hsidecar⟩
  exact insertStorage_sidecar h.layout.parsed.2 (fun _ hother => hother) hstorage hin (.inl hin)

theorem insert_nullsKept_iff (hfoxpro : isFoxproTable table.header.version = true)
    (hrow : table.prepareInsert values deferred = .ok row) :
    NullsKept (table.insertRecordWithDeferredConstraints values deferred).1 table.records.length ↔
      (Call.insert values deferred).KeepsNulls table := by
  have hafter := h.insert hrow
  have hmemory : (table.insertRecordWithDeferredConstraints values deferred).1.records[
      table.records.length]? =
      some ⟨row.number, false, row.values⟩ := by
    unfold DbfTable.insertRecordWithDeferredConstraints
    rw [hrow]
    exact getElem?_concat_length
  have hentries : (table.insertRecordWithDeferredConstraints values deferred).1.entries =
      table.entries :=
    ((Call.insert values deferred).run_sameLayout table).entries
  rw [nullsKept_iff hafter hmemory, hentries]
  refine forall_entries fun entry hentry => forall_congr' fun hsystem =>
    forall_congr' fun hnullable => ?_
  have hmem := (of_mem_zip hentry).1
  obtain ⟨⟨value, hvalue, hissued, hgiven⟩, hplain⟩ := insert_values h hrow hmem hsystem
  obtain ⟨bytes, hbytes, hdisk⟩ := (insert_onDisk h hrow).2 entry hentry hsystem
  have hstorage : valueOrNull row.storageValues entry.1.name =
      if isSidecarField entry.1 then emptyMemoValue entry.1
        else valueOrNull row.values entry.1.name := by
    split
    · exact insert_sidecar h hrow hmem ‹_›
    · exact hplain (Bool.eq_false_iff.mpr ‹_›)
  rw [hdisk, decodes_null_iff hfoxpro hnullable, hvalue, Option.some.injEq]
  rw [hstorage, valueOrNull_of_get hvalue] at hbytes ⊢
  cases hissues : table.issues entry.1 with
  | true =>
    -- a counter gives an integer, and an integer field gives it back
    obtain ⟨integer, rfl, hrange⟩ := hissued hissues
    unfold DbfTable.issues at hissues
    rw [Bool.and_eq_true] at hissues
    have hkind := isAutoIncrement_kind hissues.1
    have hplain : isSidecarField entry.1 = false := by
      unfold isSidecarField
      rcases hkind with hkind | hkind <;> simp [hkind]
    simp only [hplain, Bool.false_eq_true, if_false] at hbytes ⊢
    have hnull := int_ne_null (show -2 ^ 63 ≤ integer ∧ integer < 2 ^ 64 by omega)
    have hreads := representable_integer hkind ⟨integer, rfl, hrange⟩ bytes hbytes
    refine ⟨fun _ hfalse => (by cases hfalse), fun _ => ⟨?_, .inl⟩⟩
    rintro (hnull' | hnull')
    · exact hnull'
    · rw [show (Value.int integer).isNull = false by
          cases hvalue : Value.int integer <;> simp_all [Value.isNull],
        Bool.and_false, hnull', Value.null_eqv_iff] at hreads
      exact absurd hreads hnull
  | false =>
    rw [← hgiven hissues]
    simp only [forall_const]
    split
    · rename_i hsidecar
      rw [if_pos hsidecar] at hbytes
      have hreads := emptyMemo_rereads hfoxpro hsidecar hbytes
      simp [emptyMemoValue_ne_null, hreads]
    · rename_i hsidecar
      rw [if_neg hsidecar] at hbytes
      exact (not_loses_iff hbytes).symm

theorem update_nullsKept_iff
    (hfoxpro : isFoxproTable table.header.version = true)
    (hrecord : table.records[index]? = some record)
    (hasks : call.Asks record values changedFields named)
    (hplan : table.prepareUpdate index values changedFields named deferred = .ok update)
    (happly : table.applyUpdate (.ok update) = (after, .ok ())) :
    NullsKept after index ↔ table.UpdateKeepsNulls (index + 1) values := by
  have hnodup := h.layout.parsed.2
  have hafter := h.applyUpdate happly
  obtain ⟨_, -, -, hstorage, rfl⟩ := prepareUpdate_eq_ok hplan
  obtain ⟨bytes, hbytes, rfl⟩ := DbfTable.applyUpdate_eq_ok happly
  have hslot := rewrittenBytes_slot h hrecord hbytes
  have hmemory : (table.records.modify update.index fun record =>
    { record with values := update.values })[
      update.index]? = some { record with values := update.values } := by
    rw [getElem?_modify_eq, hrecord]
    rfl
  rw [nullsKept_iff hafter hmemory]
  unfold DbfTable.UpdateKeepsNulls
  rw [Nat.add_sub_cancel, hrecord]
  simp only [Option.some.injEq, forall_eq']
  refine forall₂_congr fun entry hentry => forall₂_congr fun hsystem hnullable => ?_
  have hmem := (of_mem_zip hentry).1
  have hvalue := update_values h hrecord hplan hmem hsystem
  split
  · rename_i hkept
    -- the slot still reads as it did, and so does the memory
    have hsame : sameValue (update.values.get? entry.1.name)
        (record.values.get? entry.1.name) = true := by
      rw [hvalue]
      split
      · exact sameValue_refl _
      · rename_i hauto
        exact hkept.resolve_left hauto
    have hwritten : isWritten record.values update.values entry.1 = false := by
      simp [isWritten, hsame]
    exact iff_congr (Eq.congr_left (hslot.kept entry hentry hsystem hwritten))
      (null_iff_of_sameValue hsame)
  · rename_i hchanged
    rw [not_or] at hchanged
    rw [if_neg hchanged.1] at hvalue
    have hdiffers : sameValue (update.values.get? entry.1.name)
        (record.values.get? entry.1.name) = false := by
      rw [hvalue]
      exact Bool.eq_false_iff.mpr hchanged.2
    have hwritten : isWritten record.values update.values entry.1 = true := by
      unfold isWritten
      rw [hsystem, hdiffers]
      rfl
    obtain ⟨hstored, hflags⟩ := hslot.written entry hentry hwritten
    rw [valueOrNull_of_get hvalue] at hflags
    -- the flags are those of the value, for a memo field too
    have hdisk := decodes_null_iff hfoxpro hnullable (valueOrNull values entry.1.name)
      (slice (recordSlice bytes table.header update.index) entry.1.offset entry.1.stop)
    rw [← hflags.nullable, ← hflags.varlength, ← decodeValue_eq] at hdisk
    refine (iff_congr hdisk (by rw [hvalue, Option.some.injEq])).trans ?_
    by_cases hsidecar : isSidecarField entry.1 = true
    · by_cases hnull : valueOrNull values entry.1.name = .null
      · simp [hsidecar, hnull]
      have hin : entry.1 ∈ table.sidecarFields := mem_filter.mpr ⟨hmem, hsidecar⟩
      rw [prepareExistingStorage_changed hnodup hstorage hin
        (keepsField_changed hrecord ?_ hdiffers)] at hstored
      · have hreads := emptyMemo_rereads hfoxpro hsidecar hstored
        simp [hsidecar, hflags.varlength, hreads]
      · intro fields hnamed hname
        have hunnamed := hasks.unnamed hnamed hname
        cases hcurrent : record.values.get? entry.1.name with
        | none => exact absurd (by rw [valueOrNull, hunnamed, hcurrent]; rfl) hnull
        | some current =>
          rw [hvalue, valueOrNull, hunnamed, hcurrent]
          exact Value.eqv_refl current
    · rw [prepareExistingStorage_plain hnodup hstorage hmem
        (isPlain_iff.mpr ⟨hsystem, by simpa using hsidecar⟩),
        valueOrNull_of_get hvalue] at hstored
      rw [or_iff_right hsidecar, not_loses_iff hstored, hflags.varlength]

end

/-- The record that an insert, a replacement or a patch writes. -/
def Call.writtenIndex? (table : DbfTable) : Call → Option Nat
  | .insert _ _ => some table.records.length
  | .replace number _ _ | .patch number _ _ => some (number - 1)
  | .delete _ | .recall _ _ | .pack => none

variable [Serde] [Indexing] [SchemaExport]

theorem nulls_reread_iff (h : Reachable table)
    (hfoxpro : isFoxproTable table.header.version = true) {call : Call}
    {index : Nat} (hindex : call.writtenIndex? table = some index)
    (hrun : call.run table = (after, .ok ())) :
    NullsKept after index ↔ call.KeepsNulls table := by
  have hupdate : ∀ {number : Nat}, Rewrites number call → ∃ record values changedFields named,
      table.records[number - 1]? = some record ∧ call.Asks record values changedFields named ∧
        (NullsKept after (number - 1) ↔ table.UpdateKeepsNulls number values) := by
    intro number hrewrites
    obtain ⟨index, record, values, changedFields, named, _, update, rfl, hrecord, hasks,
        hplan, happly⟩ :=
      hrewrites.plan hrun
    exact ⟨record, values, changedFields, named, hrecord, hasks,
      update_nullsKept_iff h.coherent hfoxpro hrecord hasks hplan happly⟩
  cases call with
  | insert values deferred =>
    cases hindex
    cases hrow : table.prepareInsert values deferred with
    | error stop => simp [Call.run, DbfTable.insertRecordWithDeferredConstraints, hrow,
      Except.map] at hrun
    | ok row =>
      have hafter : (table.insertRecordWithDeferredConstraints values deferred).1 = after :=
        congrArg Prod.fst hrun
      rw [← hafter]
      exact insert_nullsKept_iff h.coherent hfoxpro hrow
  | replace number values deferred =>
    cases hindex
    obtain ⟨record, _, _, _, -, ⟨rfl, -, -⟩, hkept⟩ := hupdate (.inl ⟨_, _, rfl⟩)
    exact hkept
  | patch number given deferred =>
    cases hindex
    obtain ⟨record, values, changedFields, _, hrecord, ⟨hexpand, -⟩, hkept⟩ :=
      hupdate (.inr ⟨_, _, rfl⟩)
    rw [hkept]
    constructor
    · intro hkeeps other hother values' changedFields' hexpand'
      cases hrecord.symm.trans hother
      cases hexpand.symm.trans hexpand'
      exact hkeeps
    · exact fun hkeeps => hkeeps record hrecord values changedFields hexpand
  | delete number | «recall» number deferred | pack => cases hindex

end RoundTrip

/-- A Visual FoxPro image with a nullable field called "A" and its null flags. -/
def nullableImage (fieldType length : UInt8) (slots : List Bytes) : Bytes :=
  [0x30, 0, 0, 0] ++ toLeBytes 4 slots.length ++ toLeBytes 2 97 ++ toLeBytes 2 (length.toNat + 2) ++
    List.replicate 20 0 ++
    ([0x41] ++ List.replicate 10 0 ++ [fieldType, 0, 0, 0, 0, length, 0, 0x02] ++
      List.replicate 13 0) ++
    (utf8 "_NullFlags" ++ [0, 0x30, 0, 0, 0, 0, 1, 0, 0x05] ++ List.replicate 13 0) ++
      [fieldTerminator] ++
    slots.flatten ++ [eofMarker]

def nullableTable (fieldType length : UInt8) (slots : List Bytes) (records : List DbfRecord) :
    DbfTable where
  header := ⟨0x30, [0, 0, 0], slots.length, 97, length.toNat + 2, 0⟩
  fields := [⟨"A", fieldType, length, 0, 0x02, 1⟩,
    ⟨"_NullFlags", 0x30, 1, 0, 0x05, 1 + length.toNat⟩]
  records := records
  storedValues := records.map DbfRecord.values
  bytes := nullableImage fieldType length slots
  memo := none
  schema := none
  encodingOverride := none
  memoUpdates := []
  transactionId := none
  source := none
  historicalSnapshot := false
  layoutChanged := false

attribute [local instance] Runtime.bare Filters.bare Serde.refusing Indexing.none SchemaExport.none

/-- An insert of a null memo leaves its flag clear, since what it stores is a block number. -/
theorem insert_null_memo_rereads_block :
    let table := nullableTable 0x4d 4 [] []
    let after := ((Call.insert [("A", .null)] []).run table).1
    fromBytes (nullableImage 0x4d 4 []) = .ok table ∧
      (Call.insert [("A", .null)] []).run table = (after, .ok ()) ∧
      after.records = [⟨1, false, [("A", .null)]⟩] ∧
      (fromBytes after.bytes).map DbfTable.records = .ok [⟨1, false, [("A", .int 0)]⟩] ∧
      ¬ NullsKept after 0 := by
  intro table after
  have hrecords : after.records = [⟨1, false, [("A", .null)]⟩] := by decide +kernel
  have hreparsed : (fromBytes after.bytes).map DbfTable.records =
      .ok [⟨1, false, [("A", .int 0)]⟩] := by
    decide +kernel
  refine ⟨by decide +kernel, by decide +kernel, hrecords, hreparsed, ?_⟩
  rintro ⟨reparsed, stored, memory, hparse, hstored, hmemory, hkept⟩
  have hparse : fromBytes after.bytes = .ok reparsed := hparse
  rw [hparse] at hreparsed
  have hread : reparsed.records = [⟨1, false, [("A", .int 0)]⟩] := Except.ok.inj hreparsed
  rw [hread] at hstored
  change after.records[0]? = some memory at hmemory
  rw [hrecords] at hmemory
  cases hstored
  cases hmemory
  have hiff := hkept ⟨"A", 0x4d, 4, 0, 0x02, 1⟩ (mem_cons_self) (by decide +kernel)
    (by decide +kernel)
  exact absurd (hiff.mpr (by decide +kernel)) (by decide +kernel)

theorem nulls_reread_replace :
    let table := nullableTable 0x43 2 [[0x20, 0x61, 0x62, 0]] [⟨1, false, [("A", .string "ab")]⟩]
    let after := ((Call.replace 1 [("A", .null)] []).run table).1
    fromBytes (nullableImage 0x43 2 [[0x20, 0x61, 0x62, 0]]) = .ok table ∧
      (Call.replace 1 [("A", .null)] []).run table = (after, .ok ()) ∧ NullsKept after 0 := by
  intro table
  have hparsed : fromBytesWithEncoding (nullableImage 0x43 2 [[0x20, 0x61, 0x62, 0]]) none =
      .ok table := by
    decide +kernel
  have hrun : (Call.replace 1 [("A", .null)] []).run table =
      (((Call.replace 1 [("A", .null)] []).run table).1, .ok ()) := by decide +kernel
  refine ⟨hparsed, hrun, (nulls_reread_iff (.bytes hparsed) rfl rfl hrun).mpr ?_⟩
  intro record hrecord entry hentry hsystem hnullable
  cases hrecord
  have hfield : entry.1 = ⟨"A", 0x43, 2, 0, 0x02, 1⟩ := by
    obtain h | h := mem_pair.mp (of_mem_zip hentry).1
    · exact h
    · rw [h] at hsystem
      exact absurd hsystem (by decide +kernel)
  rw [hfield, if_neg (by decide +kernel)]
  exact .inr fun hloses => hloses.1 rfl

end TxBase.Dbf
