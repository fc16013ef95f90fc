import TxBase.Dbf.Layout
import TxBase.Dbf.Pack

/-! What a successful call does to the image of a table: which bytes it may change
and which it keeps. -/
namespace TxBase.Dbf
open Lib Json List
open Outcome (lift_eq_ok copyFromSlice copyFromSlice_agree copyFromSlice_length)
variable {header : DbfHeader} {bytes result encoded : Bytes} {values : Map} {auto : AutoIncrement}
  {field : FieldDescriptor} {table : DbfTable} {updates : List CounterUpdate}
  {index number offset : Nat}
  {fields : List FieldDescriptor}

def marker (deleted : Bool) : UInt8 := if deleted then deletedRecord else activeRecord

/-- The positions outside the fields of the records: the header and the deletion marks. -/
def FixedByte (header : DbfHeader) (i : Nat) : Prop :=
  i < header.headerLength ∨ ∃ k, i = header.headerLength + k * header.recordLength

variable {i stop start : Nat}

theorem FixedByte.outside (h : FixedByte header i) (hstart : 1 ≤ start)
    (hstop : stop ≤ header.recordLength) :
    i < header.headerLength + index * header.recordLength + start ∨
      header.headerLength + index * header.recordLength + stop ≤ i := by
  rcases h with hlt | ⟨k, rfl⟩
  · omega
  · by_cases hk : k ≤ index
    · have hmul := Nat.mul_le_mul_right header.recordLength hk
      omega
    · have hmul := Nat.mul_le_mul_right header.recordLength (show index + 1 ≤ k by omega)
      rw [Nat.add_mul] at hmul
      omega

theorem patchBytes_eq_ok {source : Bytes} {message : String} :
    patchBytes bytes start stop source message = .ok result →
      (copyFromSlice bytes start stop source : Res Bytes) = .ok result := by
  unfold patchBytes
  split
  · exact id
  · intro h
    cases h

section Flags

variable {value : Bool} {flags : Bytes}

theorem setFlag_length {bit : Nat} (h : setFlag flags bit value = .ok result) :
    result.length = flags.length := by
  unfold setFlag at h
  split at h
  · cases h
  · cases h
    exact length_set

theorem setOptionalFlag_length {bit : Option Nat}
    (h : setOptionalFlag flags bit value = .ok result) :
    result.length = flags.length := by
  unfold setOptionalFlag at h
  split at h
  · exact setFlag_length h
  · cases h
    rfl

theorem setFieldFlags_length {bits : Option NullFlagBits}
    (h : setFieldFlags values flags field bits = .ok result) :
    result.length = flags.length := by
  unfold setFieldFlags at h
  split at h
  · cases h
    rfl
  · obtain ⟨middle, hfirst, hsecond⟩ := bind_eq_ok.mp h
    exact (setOptionalFlag_length hsecond).trans (setOptionalFlag_length hfirst)

theorem setFlags_length {selected : FieldDescriptor → Bool}
    {entries : List (FieldDescriptor × Option NullFlagBits)}
    (h : setFlags values selected flags entries = .ok result) : result.length = flags.length := by
  induction entries generalizing flags with
  | nil =>
    cases h
    rfl
  | cons entry rest ih =>
    rw [setFlags] at h
    split at h
    · exact ih h
    · obtain ⟨middle, hfirst, hrest⟩ := bind_eq_ok.mp h
      exact (ih hrest).trans (setFieldFlags_length hfirst)

/-- Null flags are rewritten in their field and nowhere else, unless no changed field
has any. -/
theorem updateNullFlags_eq_ok {changedFields : List String}
    (h : updateNullFlags bytes offset fields values changedFields = .ok result) :
    (result = bytes ∧ ∀ entry ∈ fields.zip (nullFlagLayout fields), entry.1.isSystem = false →
      entry.1.name ∈ changedFields → entry.2 = none) ∨
    ∃ system flags, systemField fields = some system ∧
      setFlags values (fun field => decide (field.name ∈ changedFields))
        (slice bytes (offset + system.offset) (offset + system.stop))
        (fields.zip (nullFlagLayout fields)) = .ok flags ∧
      (copyFromSlice bytes (offset + system.offset) (offset + system.stop) flags : Res Bytes) =
        .ok result := by
  unfold updateNullFlags at h
  dsimp only at h
  split at h
  · rename_i hirrelevant
    cases h
    refine .inl ⟨rfl, ?_⟩
    intro entry hmem hsystem hchanged
    simp only [Bool.not_eq_true', any_eq_false] at hirrelevant
    have hentry := hirrelevant entry hmem
    simpa [hsystem, hchanged] using hentry
  · split at h
    · cases h
    · rename_i system hsystem
      right
      simp only [bind_eq_ok, required_eq_ok, reject_eq_ok] at h
      obtain ⟨start, hstart, stop, hstop, -, hfits, flags, hflags, hresult⟩ := h
      unfold checkedAdd at hstart hstop
      split at hstart
      · cases hstart
        split at hstop
        · cases hstop
          cases hresult
          have hlength := setFlags_length hflags
          rw [slice_length (by omega)] at hlength
          refine ⟨system, flags, hsystem, ?_, ?_⟩
          · rw [FieldDescriptor.stop, ← Nat.add_assoc]
            exact hflags
          · unfold FieldDescriptor.stop copyFromSlice
            rw [← Nat.add_assoc, if_pos ⟨by omega, by omega, hlength⟩]
        · cases hstop
      · cases hstart

end Flags

/-- A counter of the header: where an auto-increment field keeps it. -/
def CounterAt (header : DbfHeader) (offset : Nat) : Prop :=
  (∃ k, offset = (descriptorArea header.version).1 +
      k * (descriptorArea header.version).2.size + counterOffset header.version) ∧
    offset + 4 ≤ header.headerLength

/-- The positions outside every counter. -/
def OutsideCounters (header : DbfHeader) (i : Nat) : Prop :=
  ∀ offset, CounterAt header offset → i < offset ∨ offset + 4 ≤ i

theorem outsideCounters_of_headerLength_le (h : header.headerLength ≤ i) :
    OutsideCounters header i := by
  intro offset hcounter
  exact .inr (hcounter.2.trans h)

theorem outsideCounters_of_lt (h : i < classicHeaderSize) : OutsideCounters header i := by
  intro offset hcounter
  obtain ⟨⟨k, hk⟩, -⟩ := hcounter
  have hle := classicHeaderSize_le header.version
  omega

theorem outsideCounters_of_headerByte (h : HeaderByte header i) : OutsideCounters header i := by
  intro offset hcounter
  obtain ⟨⟨k, hk⟩, -⟩ := hcounter
  obtain ⟨-, -, hmod⟩ := h
  have hroom : counterOffset header.version + 4 ≤ (descriptorArea header.version).2.size := by
    unfold counterOffset descriptorArea
    split <;> decide
  rw [hk]
  generalize (descriptorArea header.version).1 = start at *
  generalize (descriptorArea header.version).2.size = size at *
  generalize counterOffset header.version = counter at *
  by_contra hinside
  -- a position inside the counter has a remainder that the parser never reads
  have hrest : i - start = counter + (i - start - counter - k * size) + size * k := by
    rw [Nat.mul_comm size]
    omega
  have hmodEq : (i - start) % size = counter + (i - start - counter - k * size) := by
    rw [hrest, Nat.add_mul_mod_self_left, Nat.mod_eq_of_lt (by omega)]
    omega
  have hcases := hmod (by omega)
  rw [hmodEq] at hcases
  omega

/-- An update of a counter of this header. -/
def CounterUpdate.Fits (header : DbfHeader) (update : CounterUpdate) : Prop :=
  CounterAt header update.offset ∧ update.bytes.length = 4

theorem writeCounters_eq_ok (hfits : ∀ update ∈ updates, update.Fits header)
    (h : writeCounters bytes updates = .ok result) :
    result.length = bytes.length ∧ Agree (OutsideCounters header) result bytes := by
  unfold writeCounters at h
  refine foldlM_invariant (P := fun state => state.length = bytes.length ∧
    Agree (OutsideCounters header) state bytes) ?_ ⟨rfl, Agree.refl _ _⟩ h
  intro state update next hmem hstate hnext
  have hcopy := patchBytes_eq_ok hnext
  refine ⟨(copyFromSlice_length hcopy).trans hstate.1, Agree.trans ?_ hstate.2⟩
  intro i hi
  exact copyFromSlice_agree hcopy i (hi _ (hfits update hmem).1)

theorem AutoIncrement.update_eq_ok {name : String} {update : CounterUpdate}
    (h : auto.update name = .ok update) :
    update.offset = auto.offset ∧ update.bytes.length = 4 := by
  unfold AutoIncrement.update at h
  dsimp only at h
  split at h
  all_goals
    split at h
    · cases h
      exact ⟨rfl, toLeBytes_length _ _⟩
    · cases h

namespace DbfTable

variable {fieldIndex : Nat}

theorem level7Counter_eq_ok (hversion : isLevel7 header.version = true)
    (h : level7Counter bytes header.headerLength fieldIndex = .ok (some auto)) :
    CounterAt header auto.offset := by
  unfold level7Counter at h
  simp only [bind_eq_ok, reject_eq_ok] at h
  obtain ⟨-, -, -, -, -, hinside, next, -, hauto⟩ := h
  cases hauto
  unfold CounterAt descriptorArea counterOffset
  rw [if_pos hversion, if_pos hversion]
  exact ⟨⟨fieldIndex, rfl⟩, by dsimp only; omega⟩

theorem foxproCounter_eq_ok (hversion : isLevel7 header.version = false)
    (h : foxproCounter bytes header.headerLength fieldIndex field = .ok (some auto)) :
    CounterAt header auto.offset := by
  unfold foxproCounter at h
  simp only [bind_eq_ok, lift_eq_ok, reject_eq_ok] at h
  obtain ⟨-, -, -, -, -, -, -, hinside, stored, -, step, -, -, -, -, -, hauto⟩ := h
  cases hauto
  unfold CounterAt descriptorArea counterOffset
  rw [if_neg (by simp [hversion]), if_neg (by simp [hversion])]
  exact ⟨⟨fieldIndex, rfl⟩, by dsimp only; omega⟩

theorem nextAutoIncrement_eq_ok (h : table.nextAutoIncrement fieldIndex field = .ok (some auto)) :
    CounterAt table.header auto.offset := by
  unfold nextAutoIncrement at h
  split at h
  · rename_i hversion
    exact level7Counter_eq_ok hversion (lift_eq_ok.mp h)
  · rename_i hversion
    split at h
    · cases h
    · exact foxproCounter_eq_ok (by simpa using hversion) h

variable {issued : Map}

theorem issueValue_fits (h : table.issueValue fieldIndex field values = .ok (issued, updates)) :
    ∀ update ∈ updates, update.Fits table.header := by
  unfold issueValue at h
  simp only [bind_eq_ok, lift_eq_ok] at h
  obtain ⟨given, -, -, -, next, hnext, h⟩ := h
  cases next with
  | none =>
    cases h
    simp
  | some auto =>
    obtain ⟨update, hupdate, hresult⟩ := bind_eq_ok.mp h
    cases hresult
    intro other hmem
    rw [mem_singleton.mp hmem]
    have hspec := AutoIncrement.update_eq_ok (lift_eq_ok.mp hupdate)
    exact ⟨by rw [hspec.1]; exact nextAutoIncrement_eq_ok hnext, hspec.2⟩

theorem issueValues_fits (h : table.issueValues fieldIndex values fields = .ok (issued, updates)) :
    ∀ update ∈ updates, update.Fits table.header := by
  induction fields generalizing fieldIndex values updates with
  | nil =>
    cases h
    exact fun _ hmem => nomatch hmem
  | cons field rest ih =>
    rw [issueValues] at h
    split at h
    · obtain ⟨⟨middle, first⟩, hfirst, h⟩ := bind_eq_ok.mp h
      obtain ⟨⟨last, others⟩, hothers, h⟩ := bind_eq_ok.mp h
      cases h
      intro update hmem
      rcases mem_append.mp hmem with hmem | hmem
      · exact issueValue_fits hfirst update hmem
      · exact ih hothers update hmem
    · exact ih h

theorem recordEnd_eq_ok {stop : Nat} (h : table.recordEnd = .ok stop) :
    stop = table.header.headerLength + table.records.length * table.header.recordLength := by
  unfold recordEnd at h
  split at h
  · cases h
  · cases h
    rfl

theorem recordOffset_eq_ok (h : table.recordOffset index = .ok offset) :
    offset = table.header.headerLength + index * table.header.recordLength ∧
      offset + table.header.recordLength ≤ table.bytes.length := by
  unfold recordOffset at h
  dsimp only at h
  split at h
  · cases h
  · split at h
    · cases h
    · cases h
      omega

theorem activeIndex_eq_ok (h : table.activeIndex number = .ok index) :
    number = index + 1 ∧ ∃ record, table.records[index]? = some record ∧ ¬ record.deleted := by
  unfold activeIndex at h
  split at h
  · cases h
  · rename_i hnumber
    split at h
    · rename_i record hrecord
      split at h
      · cases h
      · rename_i hdeleted
        cases h
        exact ⟨by omega, record, hrecord, hdeleted⟩
    · cases h

/-- What an insert does to the image: the record goes to the end, and only the count
and the counters change in the header. -/
structure Inserted (table : DbfTable) (encoded : Bytes) (bytes : Bytes) : Prop where
  length : bytes.length = table.header.headerLength +
    table.records.length * table.header.recordLength + encoded.length + 1
  room : table.header.headerLength + table.records.length * table.header.recordLength ≤
    table.bytes.length
  header : Agree (HeaderByte table.header) bytes table.bytes
  count : slice bytes 4 8 = toLeBytes 4 (table.records.length + 1)
  records : Agree (fun i => table.header.headerLength ≤ i) bytes
    (table.bytes.take (table.header.headerLength +
      table.records.length * table.header.recordLength) ++ encoded ++ [eofMarker])

theorem insertedBytes_eq_ok [Runtime]
    (hlayout : Layout table.bytes table.encodingOverride table.header table.fields)
    {counters : List CounterUpdate}
    (hfits : ∀ update ∈ counters, update.Fits table.header)
    (h : table.insertedBytes encoded (table.records.length + 1) counters = .ok bytes) :
    table.Inserted encoded bytes := by
  unfold insertedBytes at h
  simp only [bind_eq_ok, lift_eq_ok, reject_eq_ok] at h
  obtain ⟨stop, hstop, -, hroom, -, hsuffix, counted, hcounted, hwritten⟩ := h
  rw [recordEnd_eq_ok hstop] at hroom hcounted
  generalize hend : table.header.headerLength +
    table.records.length * table.header.recordLength = recordEnd at hroom hcounted
  have hcopy := patchBytes_eq_ok hcounted
  obtain ⟨hlength, hagree⟩ := writeCounters_eq_ok hfits hwritten
  have hlong := hlayout.header_long
  unfold classicHeaderSize at hlong
  have htake : (table.bytes.take recordEnd).length = recordEnd := by
    rw [length_take]
    omega
  have hcountedAgree := copyFromSlice_agree hcopy
  refine ⟨?_, by omega, ?_, ?_, ?_⟩
  · rw [hlength, copyFromSlice_length hcopy, length_append, length_append, htake, hend]
    rfl
  · intro i hi
    rw [hagree i (outsideCounters_of_headerByte hi), hcountedAgree i (by have := hi.2.1; omega),
      append_assoc, getElem?_append_left (by rw [htake]; have := hi.1; omega),
      getElem?_take, if_pos (by have := hi.1; omega)]
  · rw [hagree.slice 4 8 (fun i _ hi => outsideCounters_of_lt (by unfold classicHeaderSize; omega))]
    exact Outcome.copyFromSlice_slice hcopy
  · intro i hi
    rw [hend, hagree i (outsideCounters_of_headerLength_le hi), hcountedAgree i (by omega)]

section Encode
variable {storageValues : Map} {storedValues : List Map} {records : List DbfRecord} {memo : MemoFile}

theorem moveContent_format {compacted : MemoFile} {data : Bytes} {block : Nat}
    (h : moveContent compacted field data = .ok (memo, block)) :
    memo.format = compacted.format := by
  unfold moveContent at h
  split at h
  · cases h
    rfl
  · split at h
    · exact MemoFile.appendBinary_format h
    · exact MemoFile.appendText_format h

variable {state next : Compaction} {source : MemoFile}

theorem emptyMemo_format (h : emptyMemo source = .ok memo) : memo.format = source.format := by
  simp only [emptyMemo, bind_eq_ok] at h
  obtain ⟨-, -, compacted, hcompacted, bytes, -, h⟩ := h
  cases h
  exact (MemoFile.fromBytes_eq_ok (lift_eq_ok.mp hcompacted)).2

variable [Runtime]

theorem encodeRecord_eq_ok (h : table.encodeRecord storageValues = .ok encoded) :
    encoded.length = table.header.recordLength ∧ encoded[0]? = some activeRecord := by
  unfold encodeRecord at h
  obtain ⟨flags, -, h⟩ := bind_eq_ok.mp h
  obtain ⟨rest, -, h⟩ := bind_eq_ok.mp h
  dsimp only at h
  split at h
  · cases h
  · rename_i hlength
    cases h
    exact ⟨by simpa using hlength, rfl⟩

theorem rewrittenBytes_eq_ok
    (hlayout : Layout table.bytes table.encodingOverride table.header table.fields)
    (h : table.rewrittenBytes index values storageValues = .ok bytes) :
    bytes.length = table.bytes.length ∧ Agree (FixedByte table.header) bytes table.bytes := by
  unfold rewrittenBytes at h
  simp only [bind_eq_ok, lift_eq_ok] at h
  obtain ⟨offset, hoffset, record, -, ⟨written, changedFields⟩, hfold, hflags⟩ := h
  obtain ⟨rfl, -⟩ := recordOffset_eq_ok hoffset
  have hcopied : ∀ {before after source : Bytes} {field : FieldDescriptor}, field ∈ table.fields →
      (copyFromSlice before
        (table.header.headerLength + index * table.header.recordLength + field.offset)
        (table.header.headerLength + index * table.header.recordLength + field.stop) source :
          Res Bytes) = .ok after →
      after.length = before.length ∧ Agree (FixedByte table.header) after before := by
    intro before after source field hmem hcopy
    have hrange := hlayout.field_range hmem
    exact ⟨copyFromSlice_length hcopy,
      fun i hi => copyFromSlice_agree hcopy i (hi.outside hrange.1 hrange.2)⟩
  have hrewritten : written.length = table.bytes.length ∧
      Agree (FixedByte table.header) written table.bytes := by
    refine foldlM_invariant (P := fun state : Bytes × List String =>
      state.1.length = table.bytes.length ∧ Agree (FixedByte table.header) state.1 table.bytes)
      ?_ ⟨rfl, Agree.refl _ _⟩ hfold
    intro state field next hmem hstate hnext
    unfold rewriteField at hnext
    split at hnext
    · cases hnext
      exact hstate
    · simp only [bind_eq_ok, lift_eq_ok] at hnext
      obtain ⟨encoded, -, -, -, -, -, patched, hpatched, hnext⟩ := hnext
      cases hnext
      have hstep := hcopied hmem (patchBytes_eq_ok hpatched)
      exact ⟨hstep.1.trans hstate.1, hstep.2.trans hstate.2⟩
  rcases updateNullFlags_eq_ok hflags with ⟨rfl, -⟩ | ⟨system, flags, hsystem, -, hcopy⟩
  · exact hrewritten
  · have hstep := hcopied (mem_of_find?_eq_some hsystem) hcopy
    exact ⟨hstep.1.trans hrewritten.1, hstep.2.trans hrewritten.2⟩

theorem applyUpdate_eq_ok {after : DbfTable} {update : Update}
    (h : table.applyUpdate (.ok update) = (after, .ok ())) :
    ∃ bytes, table.rewrittenBytes update.index update.values update.storage.1 = .ok bytes ∧
      after =
        { table with
          bytes := bytes
          records := table.records.modify update.index fun record =>
            { record with values := update.values }
          storedValues := table.storedValues.set update.index update.storage.1
          memoUpdates := update.storage.2 } := by
  unfold applyUpdate writeUpdate writeExistingRecord at h
  dsimp only at h
  cases hbytes : table.rewrittenBytes update.index update.values update.storage.1 with
  | error stop =>
    rw [hbytes] at h
    cases h
  | ok bytes =>
    rw [hbytes] at h
    dsimp only at h
    by_cases hindex : update.index < table.storedValues.length
    · rw [if_pos hindex] at h
      cases h
      exact ⟨bytes, rfl, rfl⟩
    · rw [if_neg hindex] at h
      cases h

/-- What PACK keeps of the records: their slots, with the marks of active records,
under consecutive numbers. -/
structure Kept (recordLength number : Nat) (bytes : Bytes) (records : List DbfRecord)
    (storedValues : List Map) : Prop where
  stored : storedValues.length = records.length
  length : bytes.length = records.length * recordLength
  numbered : ∀ i record, records[i]? = some record → record.number = number + i
  marked : ∀ i record, records[i]? = some record →
    record.deleted = false ∧ bytes[i * recordLength]? = some activeRecord

omit [Runtime] in
theorem Kept.cons {recordLength : Nat} {slot : Bytes}
    (h : Kept recordLength (number + 1) bytes records storedValues) {record : DbfRecord}
    (hactive : record.deleted = false) (hslot : slot.length = recordLength)
    (hmark : slot[0]? = some activeRecord)
    (stored : Map) :
    Kept recordLength number (slot ++ bytes) ({ record with number := number } :: records)
      (stored :: storedValues) := by
  refine ⟨by simp [h.stored], by simp [h.length, hslot, Nat.add_mul, Nat.add_comm], ?_, ?_⟩
  · intro i other hother
    cases i with
    | zero =>
      cases hother
      rfl
    | succ i =>
      have hnumber := h.numbered i other hother
      omega
  · intro i other hother
    cases i with
    | zero =>
      cases hother
      refine ⟨hactive, ?_⟩
      rw [Nat.zero_mul, getElem?_append_left]
      · exact hmark
      · exact (List.getElem?_eq_some_iff.mp hmark).1
    | succ i =>
      have hrest := h.marked i other hother
      refine ⟨hrest.1, ?_⟩
      rw [getElem?_append_right (by rw [hslot, Nat.add_mul]; omega), hslot, Nat.add_mul,
        Nat.one_mul, Nat.add_sub_cancel]
      exact hrest.2

omit [Runtime] in
theorem keptRecords_eq_ok {position : Nat} (hpos : 0 < table.header.recordLength)
    (hmarked : ∀ i record, records[i]? = some record → table.bytes[table.header.headerLength +
      (position + i) * table.header.recordLength]? = some (marker record.deleted))
    {kept : List DbfRecord} (h : table.keptRecords position number records =
      .ok (bytes, kept, storedValues)) :
    Kept table.header.recordLength number bytes kept storedValues := by
  induction records generalizing position number bytes kept storedValues with
  | nil =>
    cases h
    exact ⟨rfl, by simp, fun i record hnone => (nomatch hnone),
      fun i record hnone => (nomatch hnone)⟩
  | cons record rest ih =>
    have hrest : ∀ i other, rest[i]? = some other →
        table.bytes[table.header.headerLength +
          (position + 1 + i) * table.header.recordLength]? = some (marker other.deleted) := by
      intro i other hother
      have hnext := hmarked (i + 1) other hother
      rwa [← Nat.add_assoc, Nat.add_right_comm] at hnext
    rw [keptRecords] at h
    split at h
    · exact ih hrest h
    · rename_i hdeleted
      simp only [bind_eq_ok] at h
      obtain ⟨slot, hslot, stored, hstored, ⟨others, records, storedValues⟩, hothers, h⟩ := h
      cases h
      unfold Outcome.index at hslot
      split at hslot
      · rename_i hbounds
        cases hslot
        have hactive : record.deleted = false := by simpa using hdeleted
        have hmark := hmarked 0 record rfl
        rw [Nat.add_zero, hactive] at hmark
        refine (ih hrest hothers).cons hactive ?_ ?_ stored
        · rw [slice_length hbounds.2]
          omega
        · rw [getElem?_slice, if_pos (by omega)]
          exact hmark
      · cases hslot

/-- The positions outside the given fields of every record. -/
def OutsideFields (header : DbfHeader) (fields : List FieldDescriptor) (i : Nat) : Prop :=
  ∀ index, ∀ field ∈ fields,
    i < header.headerLength + index * header.recordLength + field.offset ∨
      header.headerLength + index * header.recordLength + field.stop ≤ i

/-- A compaction keeps the stored values in number, the image but for memo pointers, and
the format of the memo file. -/
structure Compaction.SameShape (table : DbfTable) (after before : Compaction) : Prop where
  stored : after.storedValues.length = before.storedValues.length
  length : after.bytes.length = before.bytes.length
  image : Agree (OutsideFields table.header table.sidecarFields) after.bytes before.bytes
  format : after.memo.format = before.memo.format

omit [Runtime] in
theorem Compaction.SameShape.refl (table : DbfTable) (state : Compaction) :
    state.SameShape table state :=
  ⟨rfl, rfl, Agree.refl _ _, rfl⟩

omit [Runtime] in
theorem Compaction.SameShape.trans {first second third : Compaction}
    (h : third.SameShape table second)
    (h' : second.SameShape table first) :
    third.SameShape table first :=
  ⟨h.stored.trans h'.stored, h.length.trans h'.length, h.image.trans h'.image,
    h.format.trans h'.format⟩

theorem compactField_eq_ok (hfield : field ∈ table.sidecarFields)
    (h : table.compactField source index state field = .ok next) : next.SameShape table state := by
  unfold compactField at h
  simp only [bind_eq_ok, lift_eq_ok] at h
  obtain ⟨-, -, -, -, -, -, -, -, pointer, -, h⟩ := h
  cases pointer with
  | none =>
    cases h
    exact .refl table _
  | some block =>
    obtain ⟨content, -, h⟩ := bind_eq_ok.mp h
    cases content with
    | none =>
      cases h
      exact .refl table _
    | some data =>
      simp only [bind_eq_ok] at h
      obtain ⟨⟨memo, newBlock⟩, hmoved, encoded, -, patched, hpatched, stored, -, h⟩ := h
      cases h
      have hcopy := patchBytes_eq_ok hpatched
      exact ⟨length_set, copyFromSlice_length hcopy,
        fun i hi => copyFromSlice_agree hcopy i (hi index field hfield),
        moveContent_format (lift_eq_ok.mp hmoved)⟩

theorem compactRecords_eq_ok (h : table.compactRecords source index state records = .ok next) :
    next.SameShape table state := by
  induction records generalizing index state with
  | nil =>
    cases h
    exact .refl table _
  | cons record rest ih =>
    rw [compactRecords] at h
    obtain ⟨middle, hmiddle, hrest⟩ := bind_eq_ok.mp h
    have hfirst : middle.SameShape table state := by
      unfold compactRecord at hmiddle
      split at hmiddle
      · cases hmiddle
        exact .refl table _
      · refine foldlM_invariant (P := fun after : Compaction => after.SameShape table state)
          ?_ (.refl table state) hmiddle
        intro before field after hmem hbefore hafter
        exact (compactField_eq_ok hmem hafter).trans hbefore
    exact (ih hrest).trans hfirst

theorem compactMemoSidecar_eq_ok {stored : List Map} {memo : Option MemoFile}
    (h : table.compactMemoSidecar bytes records storedValues = .ok (result, stored, memo)) :
    stored.length = storedValues.length ∧ result.length = bytes.length ∧
      Agree (OutsideFields table.header table.sidecarFields) result bytes ∧
      memo.map MemoFile.format = table.memo.map MemoFile.format := by
  unfold compactMemoSidecar at h
  split at h
  · rename_i hmemo
    cases h
    exact ⟨rfl, rfl, Agree.refl _ _, by rw [hmemo]⟩
  · rename_i source hmemo
    obtain ⟨compacted, hcompacted, h⟩ := bind_eq_ok.mp h
    obtain ⟨state, hstate, h⟩ := bind_eq_ok.mp h
    cases h
    have hshape := compactRecords_eq_ok hstate
    refine ⟨hshape.stored, hshape.length, hshape.image, ?_⟩
    rw [hmemo, Option.map_some, Option.map_some, hshape.format, emptyMemo_format hcompacted]

end Encode

end DbfTable

end TxBase.Dbf
