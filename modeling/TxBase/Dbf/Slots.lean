import Mathlib.Data.List.Nodup
import TxBase.Dbf.Coherence
import TxBase.Dbf.NullFlags

/-! What the slot of a record decodes to after it was written.  A field decodes to
what its decoder makes of the bytes that its encoder wrote, with the flags that were
written beside them. -/
namespace TxBase.Dbf
open Lib Json List
open Outcome (lift_eq_ok copyFromSlice_agree copyFromSlice_slice copyFromSlice_length)
open Option (map_some)
variable {entry : FieldDescriptor × Option NullFlagBits} {fields : List FieldDescriptor}
  {values storageValues : Map} {nullFlags : Option Bytes} {table : DbfTable}
  {field : FieldDescriptor}
  {header : DbfHeader} {bytes encoded : Bytes} {offset : Nat} {before after : Bytes × List String}
  {record : DbfRecord}

section Decode
theorem SameLayout.sizes {before after : DbfTable} (h : SameLayout before after) :
    after.header.version = before.header.version ∧
      after.header.languageDriver = before.header.languageDriver ∧
      after.header.headerLength = before.header.headerLength ∧
      after.header.recordLength = before.header.recordLength := by
  rw [← h.header]
  exact ⟨rfl, rfl, rfl, rfl⟩

variable [Runtime]

/-- The value of a field from its bytes and its two flags. -/
def decodeStored (header : DbfHeader) (encodingOverride : Option String) (field : FieldDescriptor)
    (isNull hasLength : Bool) (stored : Bytes) : Value :=
  if isFoxproTable header.version ∧ isNull then .null
  else if header.version = 0x32 ∧ field.isVariable then
    if isNull then .null
    else
      let length := (stored.getLast?.map UInt8.toNat).getD 0
      let data :=
        if hasLength ∧ stored ≠ [] ∧ length ≤ stored.length - 1 then stored.take length
        else stored
      if field.isBinary then .string (hex data)
      else .string (textWithEncoding data header.languageDriver encodingOverride)
  else if field.kind = .c ∧ field.isBinary then .string (hex stored)
  else
    decodeFieldWithEncoding field.fieldType stored header.languageDriver
      (memoFormatForVersion header.version) encodingOverride

theorem decodeValue_eq (header : DbfHeader) (encoding : Option String)
    (nullFlags : Option Bytes) (record : Bytes) (field : FieldDescriptor)
    (bits : Option NullFlagBits) :
    decodeValue header encoding nullFlags record field bits =
      decodeStored header encoding field (nullBitIsSet nullFlags (nullableBit bits))
        (nullBitIsSet nullFlags (varlengthBit bits)) (slice record field.offset field.stop) := rfl

/-- The field gives back the value it was given: what the decoder makes of the encoded
bytes, with the flags that are written for the value, equals the value. -/
def Representable (header : DbfHeader) (encodingOverride : Option String)
    (field : FieldDescriptor) (value : Value) : Prop :=
  ∀ stored, encodeFieldWithEncoding field value header.languageDriver encodingOverride =
      .ok stored →
    (decodeStored header encodingOverride field (field.isNullable && value.isNull) field.isVariable
      stored).eqv value = true

/-- The fields of a table, each with the bits of its flags. -/
def DbfTable.entries (table : DbfTable) : List (FieldDescriptor × Option NullFlagBits) :=
  table.fields.zip (nullFlagLayout table.fields)

omit [Runtime] in
theorem SameLayout.entries {before after : DbfTable}
    (h : SameLayout before after) : after.entries = before.entries := by
  unfold DbfTable.entries
  rw [h.fields]

/-- What the image of a table holds in a field of the record at `index`. -/
def DbfTable.onDisk (table : DbfTable) (index : Nat)
    (entry : FieldDescriptor × Option NullFlagBits) : Value :=
  let slot := recordSlice table.bytes table.header index
  decodeValue table.header table.encodingOverride (recordNullFlags table.fields slot) slot entry.1
    entry.2

end Decode

section Layout

theorem nullFlagLayoutFrom_bits {nextBit : Nat}
    (hmem : entry ∈ fields.zip (nullFlagLayoutFrom nextBit fields))
    (hsystem : entry.1.isSystem = false) :
    (nullableBit entry.2).isSome = entry.1.isNullable ∧
      (varlengthBit entry.2).isSome = entry.1.isVariable := by
  induction fields generalizing nextBit with
  | nil => cases hmem
  | cons field rest ih =>
    by_cases hfield : field.isSystem = true
    · rw [nullFlagLayoutFrom, if_pos hfield, zip_cons_cons] at hmem
      rcases mem_cons.mp hmem with rfl | hmem
      · rw [hfield] at hsystem
        cases hsystem
      · exact ih hmem
    · obtain ⟨bits, hlayout, hvar, hnull⟩ :=
        nullFlagLayoutFrom_cons (by simpa using hfield) nextBit rest
      rw [hlayout, zip_cons_cons] at hmem
      rcases mem_cons.mp hmem with rfl | hmem
      · dsimp only
        rw [hvar, hnull]
        cases field.isNullable <;> cases field.isVariable <;> exact ⟨rfl, rfl⟩
      · exact ih hmem

/-- The flags that a reader finds for a field after `value` was written. -/
structure Flagged (nullFlags : Option Bytes) (entry : FieldDescriptor × Option NullFlagBits)
    (value : Value) : Prop where
  nullable : nullBitIsSet nullFlags (nullableBit entry.2) = (entry.1.isNullable && value.isNull)
  varlength : nullBitIsSet nullFlags (varlengthBit entry.2) = entry.1.isVariable

theorem flagged_of_none (hmem : entry ∈ fields.zip (nullFlagLayout fields))
    (hsystem : entry.1.isSystem = false)
    (hnone : entry.2 = none) (nullFlags : Option Bytes) (value : Value) :
    Flagged nullFlags entry value := by
  obtain ⟨hnull, hvar⟩ := nullFlagLayoutFrom_bits hmem hsystem
  constructor
  · rw [← hnull, hnone]
    rfl
  · rw [← hvar, hnone]
    rfl

variable {after before : Bytes} {selected : FieldDescriptor → Bool}

theorem FlagsWritten.flagged
    (h : FlagsWritten values selected before after 0 (fields.zip (nullFlagLayout fields)))
    (hmem : entry ∈ fields.zip (nullFlagLayout fields)) (hsystem : entry.1.isSystem = false)
    (hselected : selected entry.1 = true) :
    Flagged (some after) entry (valueOrNull values entry.1.name) := by
  obtain ⟨hnull, hvar⟩ := nullFlagLayoutFrom_bits hmem hsystem
  constructor
  · rw [← hnull]
    cases hbit : nullableBit entry.2 with
    | none => rfl
    | some bit =>
      have hflag := (h.nullable entry hmem hsystem bit hbit).2
      rw [if_pos hselected] at hflag
      exact hflag
  · rw [← hvar]
    cases hbit : varlengthBit entry.2 with
    | none => rfl
    | some bit =>
      have hflag := (h.varlength entry hmem hsystem bit hbit).2
      rw [if_pos hselected] at hflag
      exact hflag

theorem FlagsWritten.kept
    (h : FlagsWritten values selected before after 0 (fields.zip (nullFlagLayout fields)))
    (hmem : entry ∈ fields.zip (nullFlagLayout fields)) (hsystem : entry.1.isSystem = false)
    (hselected : selected entry.1 = false) :
    nullBitIsSet (some after) (nullableBit entry.2) =
        nullBitIsSet (some before) (nullableBit entry.2) ∧
      nullBitIsSet (some after) (varlengthBit entry.2) =
        nullBitIsSet (some before) (varlengthBit entry.2) := by
  constructor
  · cases hbit : nullableBit entry.2 with
    | none => rfl
    | some bit =>
      have hflag := (h.nullable entry hmem hsystem bit hbit).2
      rw [if_neg (by simp [hselected])] at hflag
      exact hflag
  · cases hbit : varlengthBit entry.2 with
    | none => rfl
    | some bit =>
      have hflag := (h.varlength entry hmem hsystem bit hbit).2
      rw [if_neg (by simp [hselected])] at hflag
      exact hflag

theorem encodeNullFlags_flagged (h : encodeNullFlags fields values = .ok nullFlags)
    (hmem : entry ∈ fields.zip (nullFlagLayout fields)) (hsystem : entry.1.isSystem = false) :
    Flagged nullFlags entry (valueOrNull values entry.1.name) := by
  unfold encodeNullFlags at h
  split at h
  · split at h
    · cases h
    · rename_i hnone
      cases h
      apply flagged_of_none hmem hsystem
      by_contra hsome
      apply hnone
      rw [any_eq_true]
      exact ⟨entry.2, (of_mem_zip hmem).2, Option.isSome_iff_ne_none.mpr hsome⟩
  · obtain ⟨flags, hflags, h⟩ := bind_eq_ok.mp h
    cases h
    exact (setFlags_written hflags).flagged hmem hsystem rfl

theorem encodeNullFlags_isSome (h : encodeNullFlags fields values = .ok nullFlags) :
    nullFlags.isSome = (systemField fields).isSome := by
  unfold encodeNullFlags at h
  split at h
  · rename_i hnone
    split at h
    · cases h
    · cases h
      rw [hnone]
      rfl
  · rename_i system hsystem
    obtain ⟨flags, -, h⟩ := bind_eq_ok.mp h
    cases h
    rw [hsystem]
    rfl

theorem systemField_mem {system : FieldDescriptor} (h : systemField fields = some system) :
    system ∈ fields ∧ system.isSystem = true :=
  ⟨mem_of_find?_eq_some h, find?_some h⟩

end Layout

section Insert
variable [Runtime]

theorem encodeRecordField_fills
    (h : table.encodeRecordField storageValues nullFlags field = .ok encoded) :
    encoded.length = field.width := by
  unfold DbfTable.encodeRecordField at h
  split at h
  · split at h
    · cases h
    · split at h
      · cases h
      · rename_i hlength
        cases h
        exact not_not.mp hlength
  · exact (Fills.encodeField field _ _ _).result encoded h

theorem encodeFields_slice (hplaced : Consecutive offset fields) (before : Bytes)
    (hbefore : before.length = offset)
    (h : table.encodeFields storageValues nullFlags fields = .ok bytes) (hmem : field ∈ fields) :
    table.encodeRecordField storageValues nullFlags field =
      .ok (slice (before ++ bytes) field.offset field.stop) := by
  induction fields generalizing offset bytes before with
  | nil => cases hmem
  | cons head rest ih =>
    obtain ⟨hoffset, -, hrest⟩ := hplaced
    obtain ⟨encoded, hencoded, h⟩ := bind_eq_ok.mp h
    obtain ⟨others, hothers, h⟩ := bind_eq_ok.mp h
    cases h
    have hlength := encodeRecordField_fills hencoded
    rcases mem_cons.mp hmem with rfl | hmem
    · have hmiddle := slice_append_middle before encoded others
      unfold FieldDescriptor.stop
      rw [hoffset, ← hbefore, ← hlength, hmiddle]
      exact hencoded
    · rw [← append_assoc]
      exact ih hrest _ (by rw [length_append, hbefore, hlength]) hothers hmem

theorem encodeRecord_slot
    (hlayout : Layout table.bytes table.encodingOverride table.header table.fields)
    {slot : Bytes} (h : table.encodeRecord storageValues = .ok slot)
    (hmem : entry ∈ table.fields.zip (nullFlagLayout table.fields))
    (hsystem : entry.1.isSystem = false) :
    encodeFieldWithEncoding entry.1 (valueOrNull storageValues entry.1.name)
        table.header.languageDriver table.encodingOverride =
          .ok (slice slot entry.1.offset entry.1.stop) ∧
      Flagged (recordNullFlags table.fields slot) entry
        (valueOrNull storageValues entry.1.name) := by
  have hlength := (DbfTable.encodeRecord_eq_ok h).1
  unfold DbfTable.encodeRecord at h
  obtain ⟨nullFlags, hflags, h⟩ := bind_eq_ok.mp h
  obtain ⟨encoded, hencoded, h⟩ := bind_eq_ok.mp h
  dsimp only at h
  split at h
  · cases h
  · cases h
    have hflags := lift_eq_ok.mp hflags
    have hfield : ∀ field ∈ table.fields,
        table.encodeRecordField storageValues nullFlags field =
          .ok (slice (activeRecord :: encoded) field.offset field.stop) :=
      fun field hin => encodeFields_slice hlayout.parsed.1 [activeRecord] rfl hencoded hin
    have hnull : recordNullFlags table.fields (activeRecord :: encoded) = nullFlags := by
      have hsome := encodeNullFlags_isSome hflags
      unfold recordNullFlags
      cases hfound : systemField table.fields with
      | none =>
        rw [hfound] at hsome
        cases nullFlags with
        | none => rfl
        | some flags => cases hsome
      | some system =>
        rw [hfound] at hsome
        obtain ⟨flags, rfl⟩ := Option.isSome_iff_exists.mp hsome
        obtain ⟨hin, hrole⟩ := systemField_mem hfound
        have hstored := hfield system hin
        unfold DbfTable.encodeRecordField at hstored
        rw [if_pos hrole] at hstored
        dsimp only at hstored ⊢
        split at hstored
        · cases hstored
        · rw [if_pos (by rw [hlength]; exact (hlayout.field_range hin).2)]
          cases hstored
          rfl
    refine ⟨?_, hnull ▸ encodeNullFlags_flagged hflags hmem hsystem⟩
    have hstored := hfield entry.1 (of_mem_zip hmem).1
    unfold DbfTable.encodeRecordField at hstored
    rw [if_neg (by simp [hsystem])] at hstored
    exact hstored

end Insert

section Slot
def slotOffset (header : DbfHeader) (index : Nat) : Nat :=
  header.headerLength + index * header.recordLength

variable {index : Nat}

theorem slice_recordSlice {first last : Nat} (h : last ≤ header.recordLength) :
    slice (recordSlice bytes header index) first last =
      slice bytes (slotOffset header index + first) (slotOffset header index + last) :=
  slice_slice bytes (by omega)

variable {other : Nat}

theorem recordSlice_congr {left right : Bytes}
    (h : ∀ i < header.recordLength, left[slotOffset header index + i]? =
      right[slotOffset header other + i]?) :
    recordSlice left header index = recordSlice right header other := by
  apply ext_getElem?
  intro i
  unfold recordSlice
  rw [getElem?_slice, getElem?_slice]
  by_cases hi : i < header.recordLength
  · rw [if_pos (by omega), if_pos (by omega)]
    exact h i hi
  · rw [if_neg (by omega), if_neg (by omega)]

theorem slotOffset_disjoint {i : Nat} (hne : other ≠ index) (hi : i < header.recordLength) :
    slotOffset header other + i < slotOffset header index ∨
      slotOffset header index + header.recordLength ≤ slotOffset header other + i := by
  unfold slotOffset
  rcases Nat.lt_or_gt_of_ne hne with hlt | hgt
  · have hmul := Nat.mul_le_mul_right header.recordLength (Nat.succ_le_of_lt hlt)
    rw [Nat.succ_mul] at hmul
    omega
  · have hmul := Nat.mul_le_mul_right header.recordLength (Nat.succ_le_of_lt hgt)
    rw [Nat.succ_mul] at hmul
    omega

theorem DbfTable.Inserted.slots (h : table.Inserted encoded bytes)
    (hlength : encoded.length = table.header.recordLength) :
    (∀ i < table.records.length,
      recordSlice bytes table.header i = recordSlice table.bytes table.header i) ∧
      recordSlice bytes table.header table.records.length = encoded := by
  have htake : (table.bytes.take (slotOffset table.header table.records.length)).length =
      slotOffset table.header table.records.length := by
    rw [length_take]
    exact Nat.min_eq_left h.room
  have hbytes : ∀ i, table.header.headerLength ≤ i → bytes[i]? =
      (table.bytes.take (slotOffset table.header table.records.length) ++
        (encoded ++ [eofMarker]))[i]? := by
    intro i hi
    rw [← append_assoc]
    exact h.records i hi
  constructor
  · intro index hindex
    apply recordSlice_congr
    intro i hi
    have hbefore : slotOffset table.header index + i <
        slotOffset table.header table.records.length := by
      have hmul := Nat.mul_le_mul_right table.header.recordLength (Nat.succ_le_of_lt hindex)
      rw [Nat.succ_mul] at hmul
      unfold slotOffset
      omega
    rw [hbytes _ (by unfold slotOffset; omega), getElem?_append_left (by omega),
      getElem?_take, if_pos hbefore]
  · apply ext_getElem?
    intro i
    unfold recordSlice
    rw [getElem?_slice]
    split
    · rename_i hi
      rw [hbytes _ (by omega), getElem?_append_right (by unfold slotOffset at htake ⊢; omega),
        htake, getElem?_append_left (by unfold slotOffset; omega)]
      congr 1
      unfold slotOffset
      omega
    · rw [getElem?_eq_none (by omega)]

theorem DbfTable.keptRecords_slots {position number : Nat} {records : List DbfRecord}
    {kept : List DbfRecord}
    {storedValues : List Map} (h : table.keptRecords position number records =
      .ok (bytes, kept, storedValues))
    {j : Nat} (hrecord : kept[j]? = some record) :
    ∃ i old, records[i]? = some old ∧ old.deleted = false ∧ record.values = old.values ∧
      slice bytes (j * table.header.recordLength)
        (j * table.header.recordLength + table.header.recordLength) =
          recordSlice table.bytes table.header (position + i) := by
  induction records generalizing position number bytes kept storedValues j with
  | nil =>
    cases h
    cases hrecord
  | cons head rest ih =>
    -- the rest of the records is one position further
    have hlift : ∀ {slots : Bytes} {start : Nat}, (∃ i old, rest[i]? = some old ∧
        old.deleted = false ∧ record.values = old.values ∧
          slice slots start (start + table.header.recordLength) =
            recordSlice table.bytes table.header (position + 1 + i)) →
        ∃ i old, (head :: rest)[i]? = some old ∧ old.deleted = false ∧
          record.values = old.values ∧ slice slots start (start + table.header.recordLength) =
            recordSlice table.bytes table.header (position + i) := by
      rintro slots start ⟨i, old, hold, hactive, hvalues, hslot⟩
      exact ⟨i + 1, old, hold, hactive, hvalues, by rw [hslot, Nat.add_right_comm, Nat.add_assoc]⟩
    rw [keptRecords] at h
    split at h
    · exact hlift (ih h hrecord)
    · rename_i hdeleted
      simp only [bind_eq_ok] at h
      obtain ⟨slot, hslot, stored, -, ⟨others, records, others'⟩, hothers, h⟩ := h
      cases h
      unfold Outcome.index at hslot
      split at hslot
      · rename_i hbounds
        cases hslot
        have hlength : (recordSlice table.bytes table.header position).length =
            table.header.recordLength := by
          unfold recordSlice
          rw [slice_length hbounds.2]
          omega
        cases j with
        | zero =>
          cases hrecord
          refine ⟨0, head, rfl, by simpa using hdeleted, rfl, ?_⟩
          have hfirst := slice_append_middle [] (recordSlice table.bytes table.header position)
            others
          rw [hlength] at hfirst
          rw [Nat.zero_mul]
          exact hfirst
        | succ j =>
          have hnext := ih hothers hrecord
          apply hlift
          obtain ⟨i, old, hold, hactive, hvalues, hslot⟩ := hnext
          refine ⟨i, old, hold, hactive, hvalues, Eq.trans ?_ hslot⟩
          have hright := slice_append_right (recordSlice table.bytes table.header position) others
            (j * table.header.recordLength)
            (j * table.header.recordLength + table.header.recordLength)
          rw [hlength] at hright
          rw [← Nat.add_assoc, Nat.add_comm table.header.recordLength] at hright
          rw [Nat.succ_mul]
          exact hright
      · cases hslot

end Slot

section Update
variable {old : Map} {index : Nat}

theorem slotOffset_le (header : DbfHeader) {count : Nat} (h : index < count) :
    slotOffset header index + header.recordLength ≤ slotOffset header count := by
  have hmul := Nat.mul_le_mul_right header.recordLength (Nat.succ_le_of_lt h)
  rw [Nat.succ_mul] at hmul
  unfold slotOffset
  omega

variable [Runtime]

def isWritten (old values : Map) (field : FieldDescriptor) : Bool :=
  !field.isSystem && !sameValue (values.get? field.name) (old.get? field.name)

/-- After the fields of a record were rewritten: the written ones hold their encoding,
everything else is as before. -/
structure FieldsWritten (table : DbfTable) (offset : Nat) (old values storageValues : Map)
    (fields : List FieldDescriptor) (before after : Bytes × List String) : Prop where
  length : after.1.length = before.1.length
  encoded : ∀ field ∈ fields, isWritten old values field = true →
    encodeFieldWithEncoding field (valueOrNull storageValues field.name)
      table.header.languageDriver table.encodingOverride =
        .ok (slice after.1 (offset + field.offset) (offset + field.stop))
  outside : Agree (fun i => ∀ field ∈ fields, isWritten old values field = true →
    i < offset + field.offset ∨ offset + field.stop ≤ i) after.1 before.1
  names : after.2 =
    before.2 ++ (fields.filter (isWritten old values)).map FieldDescriptor.name

theorem rewriteFields_written {start : Nat} (hplaced : Consecutive start fields)
    (h : fields.foldlM (table.rewriteField offset old values storageValues) before = .ok after) :
    FieldsWritten table offset old values storageValues fields before after := by
  induction fields generalizing start before with
  | nil =>
    cases h
    exact ⟨rfl, nofun, Agree.refl _ _, (append_nil _).symm⟩
  | cons field rest ih =>
    rw [foldlM_cons] at h
    obtain ⟨middle, hmiddle, hrest⟩ := bind_eq_ok.mp h
    have hwritten := ih hplaced.2.2 hrest
    unfold DbfTable.rewriteField at hmiddle
    split at hmiddle
    · rename_i hskip
      cases hmiddle
      have hnot : isWritten old values field = false := by
        unfold isWritten
        rcases hskip with hskip | hskip <;> simp [hskip]
      refine ⟨hwritten.length, ?_, ?_, ?_⟩
      · intro other hmem hother
        rcases mem_cons.mp hmem with rfl | hmem
        · rw [hnot] at hother
          cases hother
        · exact hwritten.encoded other hmem hother
      · exact hwritten.outside.mono fun i hi other hmem => hi other (mem_cons_of_mem _ hmem)
      · rw [hwritten.names, filter_cons_of_neg (by simp [hnot])]
    · rename_i hkeep
      have hyes : isWritten old values field = true := by
        unfold isWritten
        rw [not_or] at hkeep
        simp [hkeep.1, hkeep.2]
      simp only [bind_eq_ok] at hmiddle
      obtain ⟨encoded, hencoded, -, -, -, -, patched, hpatched, hmiddle⟩ := hmiddle
      cases hmiddle
      have hcopy := patchBytes_eq_ok hpatched
      -- the fields that follow lie behind this one
      have hbehind : ∀ i, i < offset + field.stop → ∀ other ∈ rest,
          isWritten old values other = true →
            i < offset + other.offset ∨ offset + other.stop ≤ i := by
        intro i hi other hmem _
        have hrange := hplaced.2.2.range hmem
        have hstart := hplaced.1
        unfold FieldDescriptor.stop at hi
        omega
      refine ⟨hwritten.length.trans (copyFromSlice_length hcopy), ?_, ?_, ?_⟩
      · intro other hmem hother
        rcases mem_cons.mp hmem with rfl | hmem
        · rw [hwritten.outside.slice _ _ (fun i _ hi => hbehind i hi), copyFromSlice_slice hcopy]
          exact hencoded
        · exact hwritten.encoded other hmem hother
      · intro i hi
        rw [hwritten.outside i (forall_mem_cons.mp hi).2]
        exact copyFromSlice_agree hcopy i (hi field mem_cons_self hyes)
      · rw [hwritten.names, filter_cons_of_pos hyes, map_cons, append_assoc]
        rfl

omit [Runtime] in
theorem isWritten_notSystem (h : isWritten old values field = true) : field.isSystem = false := by
  unfold isWritten at h
  simp only [Bool.and_eq_true, Bool.not_eq_true'] at h
  exact h.1

omit [Runtime] in
theorem isWritten_system (h : field.isSystem = true) : isWritten old values field = false := by
  simp [isWritten, h]

section FieldsWritten
variable {old : Map}

theorem FieldsWritten.kept
    (h : FieldsWritten table offset old values storageValues table.fields before after)
    {start : Nat} (hplaced : Consecutive start table.fields) (hmem : field ∈ table.fields)
    (hnot : isWritten old values field = false) :
    slice after.1 (offset + field.offset) (offset + field.stop) =
      slice before.1 (offset + field.offset) (offset + field.stop) := by
  apply h.outside.slice
  intro i hfirst hlast other hother hyes
  have hne : other ≠ field := by
    rintro rfl
    rw [hnot] at hyes
    cases hyes
  have hdisjoint := hplaced.disjoint hother hmem hne
  omega

theorem FieldsWritten.mem_names
    (h : FieldsWritten table offset old values storageValues table.fields before after)
    (hbefore : before.2 = []) (hnodup : (table.fields.map FieldDescriptor.name).Nodup)
    (hmem : field ∈ table.fields) :
    field.name ∈ after.2 ↔ isWritten old values field = true := by
  rw [h.names, hbefore, nil_append, mem_map]
  constructor
  · rintro ⟨other, hother, hname⟩
    obtain ⟨hin, hyes⟩ := mem_filter.mp hother
    rwa [inj_on_of_nodup_map hnodup hin hmem hname] at hyes
  · intro hyes
    exact ⟨field, mem_filter.mpr ⟨hmem, hyes⟩, rfl⟩

end FieldsWritten

theorem recordNullFlags_eq {encoding : Option String}
    (hlayout : Layout bytes encoding header fields) (image : Bytes)
    (hroom : slotOffset header index + header.recordLength ≤ image.length) :
    recordNullFlags fields (recordSlice image header index) =
      (systemField fields).map fun system =>
        slice image (slotOffset header index + system.offset)
          (slotOffset header index + system.stop) := by
  unfold recordNullFlags
  cases hsystem : systemField fields with
  | none => rfl
  | some system =>
    have hrange := hlayout.field_range (systemField_mem hsystem).1
    have hlength : (recordSlice image header index).length = header.recordLength := by
      have hslice : (slice image (slotOffset header index)
          (slotOffset header index + header.recordLength)).length = _ := slice_length hroom
      unfold slotOffset at hslice
      unfold recordSlice
      omega
    dsimp only [map_some]
    rw [if_pos (by omega), slice_recordSlice hrange.2]

/-- What a reader finds in a rewritten slot: a written field as it was encoded, with its
flags; any other field with the bytes and the flags it had. -/
structure SlotWritten (table : DbfTable) (index : Nat) (old values storageValues : Map)
    (bytes : Bytes) : Prop where
  others : ∀ other, other ≠ index →
    recordSlice bytes table.header other = recordSlice table.bytes table.header other
  written : ∀ entry ∈ table.fields.zip (nullFlagLayout table.fields),
    isWritten old values entry.1 = true →
    encodeFieldWithEncoding entry.1 (valueOrNull storageValues entry.1.name)
        table.header.languageDriver table.encodingOverride =
          .ok (slice (recordSlice bytes table.header index) entry.1.offset entry.1.stop) ∧
      Flagged (recordNullFlags table.fields (recordSlice bytes table.header index)) entry
        (valueOrNull values entry.1.name)
  kept : ∀ entry ∈ table.fields.zip (nullFlagLayout table.fields), entry.1.isSystem = false →
    isWritten old values entry.1 = false →
    decodeValue table.header table.encodingOverride
        (recordNullFlags table.fields (recordSlice bytes table.header index))
        (recordSlice bytes table.header index) entry.1 entry.2 =
      decodeValue table.header table.encodingOverride
        (recordNullFlags table.fields (recordSlice table.bytes table.header index))
        (recordSlice table.bytes table.header index) entry.1 entry.2

section
variable (h : Coherent table)
include h

/-- The two passes of an update over its record: the fields, then the null flags. -/
theorem rewrittenBytes_passes (hrecord : table.records[index]? = some record)
    (hbytes : table.rewrittenBytes index values storageValues = .ok bytes) :
    ∃ written changedFields, slotOffset table.header index + table.header.recordLength ≤
      table.bytes.length ∧
      FieldsWritten table (slotOffset table.header index) record.values values
        storageValues table.fields
        (table.bytes, []) (written, changedFields) ∧
      (∀ field ∈ table.fields, (field.name ∈ changedFields ↔
        isWritten record.values values field = true)) ∧
      updateNullFlags written (slotOffset table.header index) table.fields values changedFields =
        .ok bytes := by
  unfold DbfTable.rewrittenBytes at hbytes
  rw [hrecord] at hbytes
  simp only [bind_eq_ok, lift_eq_ok] at hbytes
  obtain ⟨offset, hoffset, old, hold, ⟨written, changedFields⟩, hfold, hflags⟩ := hbytes
  cases hold
  obtain ⟨rfl, hroom⟩ := DbfTable.recordOffset_eq_ok hoffset
  have hfields := rewriteFields_written h.layout.parsed.1 hfold
  exact ⟨written, changedFields, hroom, hfields,
    fun field hmem => hfields.mem_names rfl h.layout.parsed.2 hmem, hflags⟩

theorem Coherent.slice_apart {other : FieldDescriptor} {start : Nat} {written : Bytes}
    (hfield : field ∈ table.fields) (hother : other ∈ table.fields) (hne : field ≠ other)
    (hagree : Agree (fun i => i < start + other.offset ∨ start + other.stop ≤ i) bytes written) :
    slice bytes (start + field.offset) (start + field.stop) =
      slice written (start + field.offset) (start + field.stop) := by
  apply hagree.slice
  intro i hfirst hlast
  have hdisjoint := h.layout.parsed.1.disjoint hfield hother hne
  omega

theorem rewrittenBytes_slot (hrecord : table.records[index]? = some record)
    (hbytes : table.rewrittenBytes index values storageValues = .ok bytes) :
    SlotWritten table index record.values values storageValues bytes := by
  have hlength := (DbfTable.rewrittenBytes_eq_ok h.layout hbytes).1
  obtain ⟨written, changedFields, hroom, hfields, hchanged, hflags⟩ :=
    rewrittenBytes_passes h hrecord hbytes
  have hunwritten := fun field (hmem : field ∈ table.fields) => hfields.kept h.layout.parsed.1 hmem
  have hinside : ∀ field ∈ table.fields, ∀ i, i < slotOffset table.header index ∨
      slotOffset table.header index + table.header.recordLength ≤ i →
      i < slotOffset table.header index + field.offset ∨
        slotOffset table.header index + field.stop ≤ i := by
    intro field hmem i hi
    have hrange := h.layout.field_range hmem
    omega
  have hold := recordNullFlags_eq h.layout table.bytes hroom
  have hnew := recordNullFlags_eq h.layout bytes (by rw [hlength]; exact hroom)
  rcases updateNullFlags_eq_ok hflags with ⟨rfl, hnone⟩ | ⟨system, flags, hsystem, hset, hcopy⟩
  · refine ⟨?_, ?_, ?_⟩
    · intro other hne
      apply recordSlice_congr
      intro i hi
      apply hfields.outside
      intro field hmem _
      exact hinside field hmem _ (slotOffset_disjoint hne hi)
    · intro entry hmem hyes
      have hin := (of_mem_zip hmem).1
      have hplain := isWritten_notSystem hyes
      rw [slice_recordSlice (h.layout.field_range hin).2]
      exact ⟨hfields.encoded entry.1 hin hyes, flagged_of_none hmem hplain
        (hnone entry hmem hplain ((hchanged entry.1 hin).mpr hyes)) _ _⟩
    · intro entry hmem hplain hnot
      have hin := (of_mem_zip hmem).1
      have hsame : recordNullFlags table.fields (recordSlice bytes table.header index) =
          recordNullFlags table.fields (recordSlice table.bytes table.header index) := by
        rw [hnew, hold]
        cases hfound : systemField table.fields with
        | none => rfl
        | some system =>
          obtain ⟨hmemSystem, hrole⟩ := systemField_mem hfound
          rw [map_some, map_some,
            hunwritten system hmemSystem (isWritten_system hrole)]
      rw [decodeValue_eq, decodeValue_eq, slice_recordSlice (h.layout.field_range hin).2,
        slice_recordSlice (h.layout.field_range hin).2, hunwritten entry.1 hin hnot, hsame]
  · obtain ⟨hmemSystem, hrole⟩ := systemField_mem hsystem
    have hagree := copyFromSlice_agree hcopy
    have hpast := fun field (hmem : field ∈ table.fields) (hplain : field.isSystem = false) =>
      h.slice_apart hmem hmemSystem (fun heq => by rw [heq, hrole] at hplain; cases hplain) hagree
    have hflagsNew : recordNullFlags table.fields (recordSlice bytes table.header index) =
        some flags := by
      rw [hnew, hsystem, map_some, copyFromSlice_slice hcopy]
    have hflagsOld : recordNullFlags table.fields (recordSlice table.bytes table.header index) =
        some (slice written (slotOffset table.header index + system.offset)
          (slotOffset table.header index + system.stop)) := by
      rw [hold, hsystem, map_some, hunwritten system hmemSystem (isWritten_system hrole)]
    have hwrote := setFlags_written hset
    refine ⟨?_, ?_, ?_⟩
    · intro other hne
      apply recordSlice_congr
      intro i hi
      have hdisjoint := slotOffset_disjoint hne hi
      rw [hagree _ (hinside system hmemSystem _ hdisjoint)]
      apply hfields.outside
      intro field hmem _
      exact hinside field hmem _ hdisjoint
    · intro entry hmem hyes
      have hin := (of_mem_zip hmem).1
      have hplain := isWritten_notSystem hyes
      rw [slice_recordSlice (h.layout.field_range hin).2, hpast entry.1 hin hplain, hflagsNew]
      exact ⟨hfields.encoded entry.1 hin hyes, hwrote.flagged hmem hplain
        (decide_eq_true ((hchanged entry.1 hin).mpr hyes))⟩
    · intro entry hmem hplain hnot
      have hin := (of_mem_zip hmem).1
      have hkept := hwrote.kept hmem hplain (decide_eq_false fun hname => by
        rw [(hchanged entry.1 hin).mp hname] at hnot
        cases hnot)
      rw [decodeValue_eq, decodeValue_eq, slice_recordSlice (h.layout.field_range hin).2,
        slice_recordSlice (h.layout.field_range hin).2, hpast entry.1 hin hplain,
        hunwritten entry.1 hin hnot, hflagsNew, hflagsOld, hkept.1, hkept.2]

theorem Coherent.slot_room (hindex : index < table.records.length) :
    slotOffset table.header index + table.header.recordLength ≤ table.bytes.length :=
  (slotOffset_le table.header hindex).trans h.recordEnd_le

theorem Coherent.fields_apart {other : FieldDescriptor} (hfield : field ∈ table.fields)
    (hother : other ∈ table.fields) (hne : other ≠ field) (index index' : Nat) {i : Nat}
    (hfirst : slotOffset table.header index + field.offset ≤ i)
    (hlast : i < slotOffset table.header index + field.stop) :
    i < slotOffset table.header index' + other.offset ∨
      slotOffset table.header index' + other.stop ≤ i := by
  have hrange := h.layout.field_range hfield
  have hrange' := h.layout.field_range hother
  rcases Nat.lt_trichotomy index index' with hlt | rfl | hgt
  · have hle := slotOffset_le table.header hlt
    omega
  · have hdisjoint := h.layout.parsed.1.disjoint hother hfield hne
    omega
  · have hle := slotOffset_le table.header hgt
    omega

theorem DbfTable.preparePack_slots {packed : DbfTable.Packed}
    (hpacked : table.preparePack = .ok packed) {j : Nat}
    (hrecord : packed.records[j]? = some record) :
    ∃ i old, table.records[i]? = some old ∧ old.deleted = false ∧ record.values = old.values ∧
      ∀ field ∈ table.fields, (table.memo.isSome → isSidecarField field = false) →
        slice packed.bytes (slotOffset table.header j + field.offset)
            (slotOffset table.header j + field.stop) =
          slice table.bytes (slotOffset table.header i + field.offset)
            (slotOffset table.header i + field.stop) := by
  unfold DbfTable.preparePack at hpacked
  simp only [bind_eq_ok, lift_eq_ok, reject_eq_ok] at hpacked
  obtain ⟨-, -, stop, -, -, -, header, hheader, ⟨kept, records, storedValues⟩, hkept, -, -,
    counted, hcounted, ⟨bytes, stored, memo⟩, hcompact, hpacked⟩ := hpacked
  cases hpacked
  have hlong := h.layout.header_long
  unfold classicHeaderSize at hlong
  have hcopy := patchBytes_eq_ok hcounted
  unfold Outcome.index at hheader
  rw [if_pos ⟨Nat.zero_le _, h.layout.header_fits⟩] at hheader
  cases hheader
  have hlength : (slice table.bytes 0 table.header.headerLength).length =
      table.header.headerLength := slice_length h.layout.header_fits
  have hshape := keptRecords_eq_ok h.layout.recordLength_pos
    (fun i record hrecord => by rw [Nat.zero_add]; exact h.marked i record hrecord) hkept
  have hcountedLength : counted.length = slotOffset table.header records.length := by
    rw [copyFromSlice_length hcopy, length_append, hlength, hshape.length]
    rfl
  obtain ⟨i, old, hold, hactive, hvalues, hslot⟩ := keptRecords_slots hkept hrecord
  refine ⟨i, old, hold, hactive, hvalues, ?_⟩
  intro field hin hplain
  have hrange := h.layout.field_range hin
  have hle : slotOffset table.header j + table.header.recordLength ≤ counted.length := by
    rw [hcountedLength]
    exact slotOffset_le table.header (List.getElem?_eq_some_iff.mp hrecord).1
  have hcompacted : slice bytes (slotOffset table.header j + field.offset)
      (slotOffset table.header j + field.stop) = slice (counted ++ [eofMarker])
        (slotOffset table.header j + field.offset) (slotOffset table.header j + field.stop) := by
    cases hmemo : table.memo with
    | none =>
      unfold compactMemoSidecar at hcompact
      rw [hmemo] at hcompact
      cases hcompact
      rfl
    | some source =>
      apply (compactMemoSidecar_eq_ok hcompact).2.2.1.slice
      intro position hfirst hlast index other hother
      obtain ⟨hmem, hrole⟩ := mem_filter.mp hother
      refine h.fields_apart hin hmem ?_ j index hfirst hlast
      rintro rfl
      rw [hplain (by rw [hmemo]; rfl)] at hrole
      cases hrole
  have hwithin : slice (slice table.bytes 0 table.header.headerLength ++ kept)
      (slotOffset table.header j + field.offset) (slotOffset table.header j + field.stop) =
        slice kept (j * table.header.recordLength + field.offset)
          (j * table.header.recordLength + field.stop) := by
    have hright := slice_append_right (slice table.bytes 0 table.header.headerLength) kept
      (j * table.header.recordLength + field.offset) (j * table.header.recordLength + field.stop)
    rwa [hlength, ← Nat.add_assoc, ← Nat.add_assoc] at hright
  rw [hcompacted, slice_append_left (by omega), (copyFromSlice_agree hcopy).slice _ _ (by
    intro position hfirst _
    unfold slotOffset at hfirst
    omega), hwithin, ← slice_slice kept (Nat.add_le_add_left hrange.2 _), hslot, Nat.zero_add,
    slice_recordSlice hrange.2]

end

theorem onDisk_of_fields {before after : DbfTable} (hcoherent : Coherent before)
    (hsame : SameLayout before after)
    {other : Nat} (hbefore : slotOffset before.header index + before.header.recordLength ≤
      before.bytes.length)
    (hafter : slotOffset before.header other + before.header.recordLength ≤ after.bytes.length)
    (hmem : entry ∈ before.entries)
    (hslices : ∀ field ∈ before.fields, field = entry.1 ∨ field.isSystem = true →
      slice after.bytes (slotOffset before.header other + field.offset)
        (slotOffset before.header other + field.stop) =
      slice before.bytes (slotOffset before.header index + field.offset)
        (slotOffset before.header index + field.stop)) :
    after.onDisk other entry = before.onDisk index entry := by
  obtain ⟨hversion, hdriver, hheader, hrecord⟩ := hsame.sizes
  have hin := (of_mem_zip hmem).1
  have hslot : recordSlice after.bytes after.header other =
      recordSlice after.bytes before.header other := by
    unfold recordSlice
    rw [hheader, hrecord]
  have hflags : recordNullFlags before.fields (recordSlice after.bytes before.header other) =
      recordNullFlags before.fields (recordSlice before.bytes before.header index) := by
    rw [recordNullFlags_eq hcoherent.layout _ hafter, recordNullFlags_eq hcoherent.layout _ hbefore]
    cases hfound : systemField before.fields with
    | none => rfl
    | some system =>
      obtain ⟨hsystem, hrole⟩ := systemField_mem hfound
      rw [map_some, map_some, hslices system hsystem (.inr hrole)]
  unfold DbfTable.onDisk
  dsimp only
  rw [hslot, hsame.fields, hsame.encodingOverride, hflags, decodeValue_eq, decodeValue_eq,
    slice_recordSlice (hcoherent.layout.field_range hin).2,
    slice_recordSlice (hcoherent.layout.field_range hin).2, hslices entry.1 hin (.inl rfl)]
  unfold decodeStored
  rw [hversion, hdriver]

variable [Filters]

theorem prepareUpdate_eq_ok {changedFields : List String} {named : Option (List String)}
    {deferred : List String}
    {update : DbfTable.Update} (h : table.prepareUpdate index values changedFields named deferred =
      .ok update) :
    ∃ normal, table.normalizeValues values = .ok normal ∧
      table.preserveAutoIncrementFields index normal changedFields = .ok update.values ∧
      table.prepareExistingStorage index update.values named = .ok update.storage ∧
        update.index = index := by
  simp only [DbfTable.prepareUpdate, bind_eq_ok, lift_eq_ok] at h
  obtain ⟨normal, hnormal, preserved, hpreserved, -, -, storage, hstorage, h⟩ := h
  cases h
  exact ⟨normal, hnormal, hpreserved, hstorage, rfl⟩

end Update

end TxBase.Dbf
