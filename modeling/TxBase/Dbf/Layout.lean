import TxBase.Dbf.Parser

/-! The layout of an accepted image: what the parser found in the header, where the
fields of a record are, and which bytes of the header it never reads.  Those are the
bytes a mutation may change. -/
namespace TxBase.Dbf
open Lib Json List
variable {header : DbfHeader} {encoding : Option String} {bytes : Bytes}
  {fields : List FieldDescriptor}
  {field : FieldDescriptor}

section Layout
theorem required_eq_ok {α : Type} {value : Option α} {message : String} {result : α} :
    required value message = .ok result ↔ value = some result := by
  cases value with
  | none => simp [required, invalid]
  | some value => simp [required]

variable {old new : Bytes} {kept : Nat → Prop} {stop step : Nat}

theorem findTerminator_congr (h : Agree kept new old) (offset : Nat)
    (hgrid : ∀ k, offset + k * step < stop → kept (offset + k * step)) :
    findTerminator new step stop offset = findTerminator old step stop offset := by
  fun_induction findTerminator old step stop offset with
  | case1 offset hrange hbyte =>
    have hhere := h offset (by simpa using hgrid 0 (by omega))
    rw [findTerminator, if_pos hrange, hhere, if_pos hbyte]
  | case2 offset hrange hbyte ih =>
    have hhere := h offset (by simpa using hgrid 0 (by omega))
    rw [findTerminator, if_pos hrange, hhere, if_neg hbyte]
    apply ih
    intro k hk
    have hshift : offset + step + k * step = offset + (k + 1) * step := by
      rw [Nat.add_mul]
      omega
    rw [hshift] at hk ⊢
    exact hgrid (k + 1) hk
  | case3 offset hrange => rw [findTerminator, if_neg hrange]

variable {offset : Nat}

theorem findTerminator_spec {terminator : Nat}
    (h : findTerminator bytes step stop offset = some terminator) :
    0 < step ∧ terminator < stop ∧ ∃ k, terminator = offset + k * step := by
  fun_induction findTerminator bytes step stop offset with
  | case1 offset hrange =>
    cases h
    exact ⟨hrange.2, hrange.1, 0, by omega⟩
  | case2 offset hrange hbyte ih =>
    obtain ⟨hstep, hstop, k, hk⟩ := ih h
    refine ⟨hstep, hstop, k + 1, ?_⟩
    rw [Nat.add_mul]
    omega
  | case3 offset hrange => cases h

variable {count : Nat}

private theorem getD_take {i : Nat} (h : i < count) :
    (bytes.take count).getD i 0 = bytes.getD i 0 := by
  rw [getD_eq_getElem?_getD, getD_eq_getElem?_getD, getElem?_take, if_pos h]

variable {shape : DescriptorShape}

theorem classicHeaderSize_le (version : UInt8) :
    classicHeaderSize ≤ (descriptorArea version).1 := by
  unfold descriptorArea
  split <;> decide

variable [Runtime]

/-- The header and the fields are those that the parser reads from the image. -/
structure Layout (bytes : Bytes) (encodingOverride : Option String) (header : DbfHeader)
    (fields : List FieldDescriptor) : Prop where
  header_eq : header =
    { version := bytes.getD 0 0, lastUpdate := slice bytes 1 4,
      recordCount := fromLeBytes (slice bytes 4 8),
      headerLength := fromLeBytes (slice bytes 8 10),
      recordLength := fromLeBytes (slice bytes 10 12), languageDriver := bytes.getD 29 0 }
  header_long : classicHeaderSize < header.headerLength
  header_fits : header.headerLength ≤ bytes.length
  recordLength_pos : 0 < header.recordLength
  area : (descriptorArea header.version).1 < header.headerLength
  descriptors : ∃ terminator,
    findTerminator bytes (descriptorArea header.version).2.size header.headerLength
        (descriptorArea header.version).1 = some terminator ∧
      parseFields bytes (descriptorArea header.version).1 terminator
        (descriptorArea header.version).2 header.languageDriver encodingOverride = .ok fields
  widths : (fields.map FieldDescriptor.width).sum + 1 = header.recordLength
  records_small : header.headerLength + header.recordCount * header.recordLength < u64Size
  records_fit : header.headerLength + header.recordCount * header.recordLength ≤ bytes.length

theorem parseLayout_eq_ok :
    parseLayout bytes encoding = .ok (header, fields) ↔ Layout bytes encoding header fields := by
  unfold parseLayout readU32 readU16
  simp only [bind_eq_ok, reject_eq_ok, required_eq_ok, Except.ok.injEq, Prod.mk.injEq,
    Nat.reduceAdd]
  constructor
  · rintro ⟨-, hlong, count, hcount, headerLength, hheader, recordLength, hrecord, -, hfits, -, hpos,
      -, harea, terminator, hterminator, parsed, hparsed, -, hwidths, -, hsmall, -, hend, rfl, rfl⟩
    rw [if_neg (by unfold classicHeaderSize at hlong; omega)] at hcount hheader hrecord
    cases hcount
    cases hheader
    cases hrecord
    refine ⟨rfl, ?_, ?_, ?_, ?_, ⟨terminator, hterminator, hparsed⟩, ?_, ?_, ?_⟩ <;>
      dsimp only <;> omega
  · intro h
    obtain ⟨rfl, hlong, hfits, hpos, harea, ⟨terminator, hterminator, hparsed⟩, hwidths, hsmall,
      hend⟩ := h
    dsimp only at hlong hfits hpos harea hterminator hparsed hwidths hsmall hend
    have hbytes : classicHeaderSize ≤ bytes.length := by omega
    unfold classicHeaderSize at hbytes
    refine ⟨(), by unfold classicHeaderSize; omega, _, if_neg (by omega), _, if_neg (by omega), _,
      if_neg (by omega), (), by omega, (), by omega, (), by omega, terminator, hterminator, _,
      hparsed, (), by omega, (), by omega, (), by omega, rfl, rfl⟩

/-- The counter of an auto-increment field, inside its descriptor. -/
def counterOffset (version : UInt8) : Nat := if isLevel7 version then 40 else 19

/-- The positions of the header that the parser depends on: not the record count, and
not the counters, which come after everything it reads of a descriptor. -/
def HeaderByte (header : DbfHeader) (i : Nat) : Prop :=
  i < header.headerLength ∧ ¬ (4 ≤ i ∧ i < 8) ∧
    ((descriptorArea header.version).1 ≤ i →
      (i - (descriptorArea header.version).1) % (descriptorArea header.version).2.size <
          counterOffset header.version ∨
        counterOffset header.version + 4 ≤
          (i - (descriptorArea header.version).1) % (descriptorArea header.version).2.size)

/-- The parser reads only the first `count` bytes of a descriptor. -/
structure DescriptorShape.Reads (shape : DescriptorShape) (count : Nat) : Prop where
  name : shape.nameSize ≤ count
  fieldType : shape.typeOffset < count
  length : shape.lengthOffset < count
  decimal : shape.decimalOffset < count
  flags : ∀ offset ∈ shape.flagsOffset, offset < count
  size : count ≤ shape.size

omit [Runtime] in
theorem reads_descriptorArea (version : UInt8) :
    (descriptorArea version).2.Reads (counterOffset version) := by
  unfold descriptorArea counterOffset
  split
  · constructor <;> decide
  · constructor <;> decide

theorem parseDescriptor_take (h : shape.Reads count) (descriptor : Bytes) (driver : UInt8)
    (encoding : Option String) (offset : Nat) :
    parseDescriptor shape (descriptor.take count) driver encoding offset =
      parseDescriptor shape descriptor driver encoding offset := by
  unfold parseDescriptor
  rw [take_take, Nat.min_eq_left h.name, getD_take h.fieldType, getD_take h.length,
    getD_take h.decimal]
  congr 1
  split
  · rename_i flagsOffset hflags
    exact getD_take (h.flags flagsOffset (by simp [hflags]))
  · rfl

theorem parseFieldsFrom_congr (h : Agree kept new old) {read : Nat} (hreads : shape.Reads read)
    (driver : UInt8)
    (encoding : Option String) (start : Nat) (names : List String) (offset count : Nat)
    (hkept : ∀ k j, k < count → j < read → kept (start + k * shape.size + j)) :
    parseFieldsFrom new shape driver encoding start names offset count =
      parseFieldsFrom old shape driver encoding start names offset count := by
  induction count generalizing start names offset with
  | zero => rfl
  | succ count ih =>
    have hslice : (slice new start (start + shape.size)).take read =
        (slice old start (start + shape.size)).take read := by
      apply ext_getElem?
      intro i
      rw [getElem?_take, getElem?_take, getElem?_slice, getElem?_slice]
      split
      · rename_i hi
        have hhere := h (start + i) (by simpa using hkept 0 i (by omega) hi)
        rw [hhere]
      · rfl
    have hfield : parseDescriptor shape (slice new start (start + shape.size)) driver
        encoding offset =
          parseDescriptor shape (slice old start (start + shape.size)) driver
            encoding offset := by
      rw [← parseDescriptor_take hreads, hslice, parseDescriptor_take hreads]
    have hrest : ∀ names offset, parseFieldsFrom new shape driver encoding
        (start + shape.size) names offset count = parseFieldsFrom old shape driver encoding
          (start + shape.size) names offset count := by
      intro names offset
      apply ih
      intro k j hk hj
      have hshift : start + shape.size + k * shape.size + j =
          start + (k + 1) * shape.size + j := by
        rw [Nat.add_mul]
        omega
      rw [hshift]
      exact hkept (k + 1) j (by omega) hj
    unfold parseFieldsFrom
    simp only [hfield, hrest]

omit [Runtime] in
theorem headerByte_of_lt (hlong : classicHeaderSize < header.headerLength) {i : Nat}
    (hi : i < classicHeaderSize)
    (hcount : i < 4 ∨ 8 ≤ i) : HeaderByte header i := by
  refine ⟨by omega, by omega, ?_⟩
  intro hstart
  have hle := classicHeaderSize_le header.version
  omega

omit [Runtime] in
theorem headerByte_descriptor {k j : Nat}
    (hfits : (descriptorArea header.version).1 + k *
      (descriptorArea header.version).2.size + j < header.headerLength)
    (hj : j < counterOffset header.version) :
    HeaderByte header
      ((descriptorArea header.version).1 + k * (descriptorArea header.version).2.size + j) := by
  have hle := classicHeaderSize_le header.version
  have hsize := (reads_descriptorArea header.version).size
  unfold classicHeaderSize at hle
  refine ⟨hfits, by omega, ?_⟩
  intro hstart
  left
  rw [Nat.add_assoc, Nat.add_sub_cancel_left, Nat.add_comm (k * _), Nat.add_mul_mod_self_right,
    Nat.mod_eq_of_lt (by omega)]
  exact hj

theorem Layout.of_agree (h : Layout old encoding header fields)
    (hagree : Agree (HeaderByte header) new old)
    (hcount : fromLeBytes (slice new 4 8) = count)
    (hsmall : header.headerLength + count * header.recordLength < u64Size)
    (hfit : header.headerLength + count * header.recordLength ≤ new.length) :
    Layout new encoding { header with recordCount := count } fields := by
  have hfixed : ∀ i, i < classicHeaderSize → (i < 4 ∨ 8 ≤ i) → HeaderByte header i :=
    fun i hi hrange => headerByte_of_lt h.header_long hi hrange
  unfold classicHeaderSize at hfixed
  refine ⟨?_, h.header_long, by dsimp only; omega, h.recordLength_pos, h.area, ?_, h.widths, hsmall,
    hfit⟩
  · rw [hagree.getD (hfixed 0 (by omega) (by omega)),
      hagree.getD (hfixed 29 (by omega) (by omega)),
      hagree.slice 1 4 (fun i _ _ => hfixed i (by omega) (by omega)),
      hagree.slice 8 10 (fun i _ _ => hfixed i (by omega) (by omega)),
      hagree.slice 10 12 (fun i _ _ => hfixed i (by omega) (by omega)), hcount]
    rw [h.header_eq]
  · obtain ⟨terminator, hterminator, hparsed⟩ := h.descriptors
    have hreads := reads_descriptorArea header.version
    have hcounter : 0 < counterOffset header.version := by
      have hlt := hreads.fieldType
      omega
    obtain ⟨hstep, hstop, k, hk⟩ := findTerminator_spec hterminator
    refine ⟨terminator, ?_, ?_⟩
    · rw [← hterminator]
      apply findTerminator_congr hagree
      intro k hlt
      exact headerByte_descriptor (j := 0) hlt hcounter
    · rw [← hparsed]
      unfold parseFields
      rw [parseFieldsFrom_congr hagree hreads]
      intro m j hm hj
      apply headerByte_descriptor _ hj
      have hcountEq : (terminator - (descriptorArea header.version).1) /
          (descriptorArea header.version).2.size = k := by
        rw [hk, Nat.add_sub_cancel_left, Nat.mul_div_cancel _ hstep]
      dsimp only at hm
      rw [hcountEq] at hm
      have hmul := Nat.mul_le_mul_right (descriptorArea header.version).2.size (Nat.succ_le_of_lt hm)
      have hsize := hreads.size
      rw [Nat.succ_mul] at hmul
      omega

/-- The fields lie one after the other from `offset` on, and none is empty. -/
def Consecutive : Nat → List FieldDescriptor → Prop
  | _, [] => True
  | offset, field :: rest =>
      field.offset = offset ∧ 0 < field.width ∧ Consecutive (offset + field.width) rest

omit [Runtime] in
theorem Consecutive.range (h : Consecutive offset fields) (hfield : field ∈ fields) :
    offset ≤ field.offset ∧ 0 < field.width ∧
      field.stop ≤ offset + (fields.map FieldDescriptor.width).sum := by
  induction fields generalizing offset with
  | nil => cases hfield
  | cons head rest ih =>
    obtain ⟨hoffset, hwidth, hrest⟩ := h
    rw [map_cons, sum_cons]
    rcases mem_cons.mp hfield with rfl | hmem
    · unfold FieldDescriptor.stop
      omega
    · have hinner := ih hrest hmem
      omega

variable {start : Nat}

omit [Runtime] in
theorem Consecutive.disjoint (h : Consecutive start fields) {left right : FieldDescriptor}
    (hleft : left ∈ fields)
    (hright : right ∈ fields) (hne : left ≠ right) :
    left.stop ≤ right.offset ∨ right.stop ≤ left.offset := by
  induction fields generalizing start with
  | nil => cases hleft
  | cons head rest ih =>
    have hafter : ∀ other ∈ rest, head.stop ≤ other.offset := by
      intro other hmem
      have hrange := h.2.2.range hmem
      have hstart := h.1
      unfold FieldDescriptor.stop
      omega
    rw [mem_cons] at hleft hright
    rcases hleft with rfl | hleft
    · rcases hright with rfl | hright
      · exact absurd rfl hne
      · exact .inl (hafter right hright)
    · rcases hright with rfl | hright
      · exact .inr (hafter left hleft)
      · exact ih h.2.2 hleft hright

theorem parseFieldsFrom_spec {driver : UInt8} {names : List String}
    (h : parseFieldsFrom bytes shape driver encoding start names offset count = .ok fields) :
    Consecutive offset fields ∧ (fields.map FieldDescriptor.name).Nodup ∧
      ∀ field ∈ fields, field.name ∉ names := by
  induction count generalizing start names offset fields with
  | zero =>
    cases h
    exact ⟨trivial, nodup_nil, nofun⟩
  | succ count ih =>
    rw [parseFieldsFrom] at h
    generalize hfield : parseDescriptor shape (slice bytes start (start + shape.size)) driver
      encoding offset = field at h
    have hoffset : field.offset = offset := by rw [← hfield]; rfl
    split at h
    · cases h
    rename_i hname
    split at h
    · cases h
    rename_i hlength
    split at h
    · cases h
    rename_i next hnext
    obtain ⟨rest, hrest, hcons⟩ := bind_eq_ok.mp h
    cases hcons
    obtain ⟨hplaced, hnodup, hfresh⟩ := ih hrest
    have hwidth : 0 < field.width := by
      unfold FieldDescriptor.width
      have hne : field.length.toNat ≠ 0 := fun hzero => hlength (UInt8.toNat_inj.mp hzero)
      omega
    have hnextEq : next = offset + field.width := by
      unfold checkedAdd at hnext
      split at hnext
      · exact (Option.some.inj hnext).symm
      · cases hnext
    refine ⟨⟨hoffset, hwidth, hnextEq ▸ hplaced⟩, ?_, ?_⟩
    · rw [map_cons, nodup_cons]
      refine ⟨?_, hnodup⟩
      intro hmem
      obtain ⟨other, hother, hsame⟩ := mem_map.mp hmem
      exact hfresh other hother (by rw [hsame]; exact mem_cons_self)
    · intro other hother
      rcases mem_cons.mp hother with rfl | hmem
      · exact fun hin => hname (.inr hin)
      · exact fun hin => hfresh other hmem (mem_cons_of_mem _ hin)

section
variable (h : Layout bytes encoding header fields)
include h

theorem Layout.parsed : Consecutive 1 fields ∧ (fields.map FieldDescriptor.name).Nodup := by
  obtain ⟨terminator, -, hparsed⟩ := h.descriptors
  unfold parseFields at hparsed
  split at hparsed
  · cases hparsed
  · obtain ⟨hplaced, hnodup, -⟩ := parseFieldsFrom_spec hparsed
    exact ⟨hplaced, hnodup⟩

theorem Layout.field_range (hfield : field ∈ fields) :
    1 ≤ field.offset ∧ field.stop ≤ header.recordLength := by
  have hrange := h.parsed.1.range hfield
  have hwidths := h.widths
  omega

theorem Layout.headerLength_lt :
    header.headerLength < 65536 ∧ header.recordLength < 65536 ∧ header.recordCount < u32Size := by
  have hlong := h.header_long
  have hfits := h.header_fits
  have hheader := fromLeBytes_lt (slice bytes 8 10)
  have hrecord := fromLeBytes_lt (slice bytes 10 12)
  have hcount := fromLeBytes_lt (slice bytes 4 8)
  unfold classicHeaderSize at hlong
  rw [slice_length (by omega)] at hheader hrecord hcount
  rw [h.header_eq]
  exact ⟨hheader, hrecord, hcount⟩

theorem Layout.records_lt {count : Nat} (hcount : count < u32Size) :
    header.headerLength + count * header.recordLength < u64Size := by
  have hlt := h.headerLength_lt
  have hmul : count * header.recordLength ≤ u32Size * 65536 :=
    Nat.mul_le_mul (by omega) (by omega)
  unfold u32Size at hmul
  unfold u64Size
  omega

end

end Layout

end TxBase.Dbf
