import TxBase.Dbf.ImageEdits

/-! A table stays coherent: its image, its header, its records and their stored
values describe the same records, whatever calls succeed on it. -/
namespace TxBase.Dbf
open Lib Json List
open Outcome (lift_eq_ok)
variable {table after : DbfTable} {bytes : Bytes} {index : Nat} {packed : DbfTable.Packed}

section Coherent
variable [Runtime]

/-- The image, the header, the records and the stored values of a table describe the
same records, each in the slot of its number. -/
structure Coherent (table : DbfTable) : Prop where
  layout : Layout table.bytes table.encodingOverride table.header table.fields
  counted : table.header.recordCount = table.records.length
  stored : table.storedValues.length = table.records.length
  numbered : ∀ i record, table.records[i]? = some record → record.number = i + 1
  marked : ∀ i record, table.records[i]? = some record →
    table.bytes[table.header.headerLength + i * table.header.recordLength]? =
      some (marker record.deleted)

namespace Coherent

section
variable (h : Coherent table)
include h

theorem recordEnd_le :
    table.header.headerLength + table.records.length * table.header.recordLength ≤
      table.bytes.length := by
  have hfit := h.layout.records_fit
  rwa [h.counted] at hfit

theorem insert [Filters] {values : Map} {deferred : List String} {row : DbfTable.InsertedRow}
    (hrow : table.prepareInsert values deferred = .ok row) :
    Coherent (table.insertRecordWithDeferredConstraints values deferred).1 := by
  unfold DbfTable.insertRecordWithDeferredConstraints
  rw [hrow]
  unfold DbfTable.prepareInsert at hrow
  simp only [bind_eq_ok, lift_eq_ok, reject_eq_ok] at hrow
  obtain ⟨normal, -, ⟨issued, counters⟩, hissued, -, -, -, -, -, hcount, ⟨storage, pending⟩, -,
    encoded, hencoded, bytes, hbytes, hrow⟩ := hrow
  cases hrow
  have hencoded := DbfTable.encodeRecord_eq_ok hencoded
  have hinserted := DbfTable.insertedBytes_eq_ok h.layout
    (DbfTable.issueValues_fits hissued) hbytes
  have hnumber : table.records.length + 1 < u32Size := by omega
  have hlength := hinserted.length
  rw [hencoded.1] at hlength
  refine ⟨h.layout.of_agree hinserted.header ?_ (h.layout.records_lt hnumber) ?_, ?_, ?_, ?_, ?_⟩
  · rw [hinserted.count, fromLeBytes_toLeBytes (by unfold u32Size at hnumber; omega)]
  · dsimp only
    rw [hlength, Nat.add_mul]
    omega
  · simp
  · simp [h.stored]
  · intro i record hrecord
    rcases getElem?_concat_eq_some hrecord with hrecord | ⟨rfl, rfl⟩
    · exact h.numbered i record hrecord
    · rfl
  · intro i record hrecord
    dsimp only
    have htake : (table.bytes.take (table.header.headerLength +
        table.records.length * table.header.recordLength)).length =
          table.header.headerLength + table.records.length * table.header.recordLength := by
      rw [length_take]
      exact Nat.min_eq_left hinserted.room
    rw [hinserted.records _ (by omega), append_assoc]
    rcases getElem?_concat_eq_some hrecord with hrecord | ⟨rfl, rfl⟩
    · have hi := (List.getElem?_eq_some_iff.mp hrecord).1
      have hslot := Nat.mul_le_mul_right table.header.recordLength (Nat.succ_le_of_lt hi)
      have hpos := h.layout.recordLength_pos
      rw [Nat.succ_mul] at hslot
      rw [getElem?_append_left (by omega), getElem?_take, if_pos (by omega)]
      exact h.marked i record hrecord
    · rw [getElem?_append_right (by rw [htake]), htake, Nat.sub_self,
        getElem?_append_left, hencoded.2]
      · rfl
      · rw [hencoded.1]
        exact h.layout.recordLength_pos

theorem rewrite (hlength : bytes.length = table.bytes.length)
    (hagree : Agree (FixedByte table.header) bytes table.bytes) (index : Nat) (values : Map)
    {storedValues : List Map} (hstored : storedValues.length = table.storedValues.length)
    (updates : MemoUpdates) :
    Coherent
      { table with
        bytes := bytes
        records := table.records.modify index fun record => { record with values := values }
        storedValues := storedValues
        memoUpdates := updates } := by
  have hlong := h.layout.header_long
  unfold classicHeaderSize at hlong
  have hcount : fromLeBytes (slice bytes 4 8) = table.header.recordCount := by
    rw [hagree.slice 4 8 (fun i _ hi => .inl (by omega)), h.layout.header_eq]
  refine ⟨h.layout.of_agree (hagree.mono fun i hi => .inl hi.1) hcount h.layout.records_small ?_,
    ?_, ?_, ?_, ?_⟩
  · rw [hlength]
    exact h.layout.records_fit
  · dsimp only
    rw [length_modify]
    exact h.counted
  · dsimp only
    rw [length_modify, hstored]
    exact h.stored
  · intro i record hrecord
    dsimp only at hrecord
    rw [getElem?_modify] at hrecord
    obtain ⟨old, hold, rfl⟩ := Option.map_eq_some_iff.mp hrecord
    have hnumber := h.numbered i old hold
    split <;> exact hnumber
  · intro i record hrecord
    dsimp only at hrecord ⊢
    rw [getElem?_modify] at hrecord
    obtain ⟨old, hold, rfl⟩ := Option.map_eq_some_iff.mp hrecord
    rw [hagree _ (.inr ⟨i, rfl⟩), h.marked i old hold]
    split <;> rfl

theorem applyUpdate {update : Res DbfTable.Update}
    (hrun : table.applyUpdate update = (after, .ok ())) : Coherent after := by
  cases update with
  | error stop => cases hrun
  | ok update =>
    obtain ⟨bytes, hbytes, rfl⟩ := DbfTable.applyUpdate_eq_ok hrun
    obtain ⟨hlength, hagree⟩ := DbfTable.rewrittenBytes_eq_ok h.layout hbytes
    exact h.rewrite hlength hagree update.index update.values length_set update.storage.2

theorem markRecord (deleted : Bool) :
    Coherent (table.markRecord index
      (table.header.headerLength + index * table.header.recordLength) deleted) := by
  have hlong := h.layout.header_long
  have hpos := h.layout.recordLength_pos
  have hagree : Agree (fun i => i ≠ table.header.headerLength + index * table.header.recordLength)
      (table.bytes.set (table.header.headerLength + index * table.header.recordLength)
        (marker deleted)) table.bytes := by
    intro i hi
    rw [getElem?_set_ne (fun heq => hi heq.symm)]
  unfold classicHeaderSize at hlong
  have hcount : fromLeBytes (slice (table.bytes.set (table.header.headerLength +
      index * table.header.recordLength) (marker deleted)) 4 8) = table.header.recordCount := by
    rw [hagree.slice 4 8 (fun i _ hi => by omega), h.layout.header_eq]
  refine ⟨h.layout.of_agree (hagree.mono fun i hi => ?_) hcount h.layout.records_small ?_,
    ?_, ?_, ?_, ?_⟩
  · have hlt := hi.1
    omega
  · dsimp only [DbfTable.markRecord]
    rw [length_set]
    exact h.layout.records_fit
  · dsimp only [DbfTable.markRecord]
    rw [length_modify]
    exact h.counted
  · dsimp only [DbfTable.markRecord]
    rw [length_modify]
    exact h.stored
  · intro i record hrecord
    dsimp only [DbfTable.markRecord] at hrecord
    rw [getElem?_modify] at hrecord
    obtain ⟨old, hold, rfl⟩ := Option.map_eq_some_iff.mp hrecord
    have hnumber := h.numbered i old hold
    split <;> exact hnumber
  · intro i record hrecord
    dsimp only [DbfTable.markRecord] at hrecord ⊢
    rw [getElem?_modify] at hrecord
    obtain ⟨old, hold, rfl⟩ := Option.map_eq_some_iff.mp hrecord
    have hmarked := h.marked i old hold
    by_cases hi : index = i
    · subst hi
      rw [if_pos rfl, List.getElem?_set_self (List.getElem?_eq_some_iff.mp hmarked).1]
      rfl
    · rw [if_neg hi, getElem?_set_ne]
      · exact hmarked
      · intro heq
        exact hi (Nat.eq_of_mul_eq_mul_right hpos (by omega))

theorem pack (hpacked : table.preparePack = .ok packed) : Coherent table.pack.1 := by
  unfold DbfTable.pack
  rw [hpacked]
  unfold DbfTable.preparePack at hpacked
  simp only [bind_eq_ok, lift_eq_ok, reject_eq_ok] at hpacked
  obtain ⟨-, -, stop, -, -, -, header, hheader, ⟨kept, records, storedValues⟩, hkept, -, hcount,
    counted, hcounted, ⟨bytes, stored, memo⟩, hcompact, hpacked⟩ := hpacked
  cases hpacked
  have hpos := h.layout.recordLength_pos
  have hlong := h.layout.header_long
  have hkept := DbfTable.keptRecords_eq_ok hpos
    (fun i record hrecord => by rw [Nat.zero_add]; exact h.marked i record hrecord) hkept
  have hcopy := patchBytes_eq_ok hcounted
  obtain ⟨hstored, hlength, hagree, -⟩ := DbfTable.compactMemoSidecar_eq_ok hcompact
  unfold classicHeaderSize at hlong
  unfold Outcome.index at hheader
  rw [if_pos ⟨Nat.zero_le _, h.layout.header_fits⟩] at hheader
  cases hheader
  have hheaderLength : (slice table.bytes 0 table.header.headerLength).length =
      table.header.headerLength := slice_length h.layout.header_fits
  have hcountedLength : counted.length =
      table.header.headerLength + records.length * table.header.recordLength := by
    rw [Outcome.copyFromSlice_length hcopy, length_append, hheaderLength, hkept.length]
  have hcountedAgree := Outcome.copyFromSlice_agree hcopy
  have hfinal : ∀ i, FixedByte table.header i → i < counted.length → bytes[i]? = counted[i]? := by
    intro i hi hlt
    rw [hagree i, getElem?_append_left hlt]
    intro index field hmem
    have hrange := h.layout.field_range (mem_of_mem_filter hmem)
    exact hi.outside hrange.1 hrange.2
  refine ⟨h.layout.of_agree ?_ ?_ (h.layout.records_lt (Nat.lt_of_not_le hcount)) ?_, rfl, ?_, ?_,
    ?_⟩
  · intro i hi
    have hlt := hi.1
    have hoff := hi.2.1
    rw [hfinal i (.inl hlt) (by omega), hcountedAgree i (by omega),
      getElem?_append_left (by omega), getElem?_slice, if_pos (by omega), Nat.zero_add]
  · have hslice : slice bytes 4 8 = slice counted 4 8 := by
      apply ext_getElem?
      intro i
      rw [getElem?_slice, getElem?_slice]
      split
      · exact hfinal _ (.inl (by omega)) (by omega)
      · rfl
    rw [hslice, Outcome.copyFromSlice_slice hcopy,
      fromLeBytes_toLeBytes (by unfold u32Size at hcount; omega)]
  · dsimp only
    rw [hlength, length_append]
    omega
  · dsimp only
    rw [hstored, hkept.stored]
  · intro i record hrecord
    have hnumber := hkept.numbered i record hrecord
    omega
  · intro i record hrecord
    dsimp only at hrecord ⊢
    obtain ⟨hactive, hmark⟩ := hkept.marked i record hrecord
    have hi : i < records.length := (List.getElem?_eq_some_iff.mp hrecord).1
    have hslot := Nat.mul_le_mul_right table.header.recordLength (Nat.succ_le_of_lt hi)
    rw [Nat.succ_mul] at hslot
    rw [hfinal _ (.inr ⟨i, rfl⟩) (by omega), hcountedAgree _ (by omega),
      getElem?_append_right (by omega), hheaderLength, Nat.add_sub_cancel_left, hmark, hactive]
    rfl

end

end Coherent

end Coherent

section Parse
theorem recordSlice_headD (hpos : 0 < header.recordLength)
    (hin : header.headerLength + index * header.recordLength < bytes.length) :
    some ((recordSlice bytes header index).headD 0) =
      bytes[header.headerLength + index * header.recordLength]? := by
  have hhead : (recordSlice bytes header index)[0]? =
      bytes[header.headerLength + index * header.recordLength]? := by
    unfold recordSlice
    rw [getElem?_slice, if_pos (by omega), Nat.add_zero]
  rw [headD_eq_head?_getD, head?_eq_getElem?, hhead, getElem?_eq_getElem hin]
  rfl

variable [Runtime] {header : DbfHeader} {fields : List FieldDescriptor}
  {encodingOverride : Option String}

theorem parseRecord_eq_ok (hpos : 0 < header.recordLength)
    (hin : header.headerLength + index * header.recordLength < bytes.length) {record : DbfRecord} :
    parseRecord bytes header fields encodingOverride index = .ok record ↔
      ∃ deleted, bytes[header.headerLength + index * header.recordLength]? =
          some (marker deleted) ∧
        record = ⟨index + 1, deleted,
          decodeValues header fields encodingOverride (recordSlice bytes header index)⟩ := by
  rw [← recordSlice_headD hpos hin]
  unfold parseRecord
  dsimp only
  generalize (recordSlice bytes header index).headD 0 = mark
  constructor
  · intro h
    split at h
    · rename_i hactive
      cases h
      exact ⟨false, by rw [hactive]; rfl, rfl⟩
    · split at h
      · rename_i hdeleted
        cases h
        exact ⟨true, by rw [hdeleted]; rfl, rfl⟩
      · cases h
  · rintro ⟨deleted, hmark, rfl⟩
    rw [Option.some.inj hmark]
    cases deleted with
    | false => rfl
    | true => rfl

theorem parseRecordsFrom_eq_ok {count : Nat} {records : List DbfRecord} :
    parseRecordsFrom bytes header fields encodingOverride index count = .ok records ↔
      records.length = count ∧ ∀ i record, records[i]? = some record →
        parseRecord bytes header fields encodingOverride (index + i) = .ok record := by
  induction count generalizing index records with
  | zero =>
    simp only [parseRecordsFrom, Except.ok.injEq]
    constructor
    · rintro rfl
      exact ⟨rfl, fun i record hnone => (nomatch hnone)⟩
    · rintro ⟨hlength, -⟩
      exact (length_eq_zero_iff.mp hlength).symm
  | succ count ih =>
    simp only [parseRecordsFrom, bind_eq_ok]
    constructor
    · rintro ⟨record, hrecord, rest, hrest, h⟩
      cases h
      obtain ⟨hlength, hparsed⟩ := ih.mp hrest
      refine ⟨by rw [length_cons, hlength], ?_⟩
      intro i other hother
      cases i with
      | zero =>
        cases hother
        exact hrecord
      | succ i =>
        rw [Nat.add_comm i 1, ← Nat.add_assoc]
        exact hparsed i other hother
    · rintro ⟨hlength, hparsed⟩
      cases records with
      | nil => cases hlength
      | cons record rest =>
        refine ⟨record, hparsed 0 record rfl, rest, ih.mpr ⟨by simpa using hlength, ?_⟩, rfl⟩
        intro i other hother
        rw [Nat.add_assoc, Nat.add_comm 1 i]
        exact hparsed (i + 1) other hother

theorem fromBytes_origin (h : fromBytesWithEncoding bytes encodingOverride = .ok table) :
    table.bytes = bytes ∧ table.encodingOverride = encodingOverride := by
  unfold fromBytesWithEncoding at h
  obtain ⟨layout, -, h⟩ := bind_eq_ok.mp h
  obtain ⟨records, -, h⟩ := bind_eq_ok.mp h
  cases h
  exact ⟨rfl, rfl⟩

theorem coherent_fromBytes (h : fromBytesWithEncoding bytes encodingOverride = .ok table) :
    Coherent table := by
  unfold fromBytesWithEncoding at h
  obtain ⟨⟨header, fields⟩, hlayout, h⟩ := bind_eq_ok.mp h
  obtain ⟨records, hrecords, h⟩ := bind_eq_ok.mp h
  cases h
  have hlayout := parseLayout_eq_ok.mp hlayout
  obtain ⟨hlength, hparsed⟩ := parseRecordsFrom_eq_ok.mp hrecords
  have hslot : ∀ i record, records[i]? = some record → ∃ deleted,
      bytes[header.headerLength + i * header.recordLength]? = some (marker deleted) ∧
        record = ⟨i + 1, deleted,
          decodeValues header fields encodingOverride (recordSlice bytes header i)⟩ := by
    intro i record hrecord
    have hi := (List.getElem?_eq_some_iff.mp hrecord).1
    have hmul := Nat.mul_le_mul_right header.recordLength (Nat.succ_le_of_lt (hlength ▸ hi))
    have hfit := hlayout.records_fit
    have hpos := hlayout.recordLength_pos
    rw [Nat.succ_mul] at hmul
    have hone := hparsed i record hrecord
    rw [Nat.zero_add] at hone
    exact (parseRecord_eq_ok hpos (by omega)).mp hone
  refine ⟨hlayout, hlength.symm, length_map _, ?_, ?_⟩
  · intro i record hrecord
    obtain ⟨deleted, -, rfl⟩ := hslot i record hrecord
    rfl
  · intro i record hrecord
    obtain ⟨deleted, hmark, rfl⟩ := hslot i record hrecord
    exact hmark

/-- What the image of a table says about its records. -/
def DbfTable.storedRecords (table : DbfTable) : List DbfRecord :=
  table.records.mapIdx fun index record =>
    { record with
      values := decodeValues table.header table.fields table.encodingOverride
        (recordSlice table.bytes table.header index) }

/-- The image of a coherent table is accepted again, and holds the records of the table
with the values that their slots decode to. -/
theorem Coherent.reparse (h : Coherent table) :
    ∃ reparsed, fromBytesWithEncoding table.bytes table.encodingOverride = .ok reparsed ∧
      reparsed.header = table.header ∧ reparsed.fields = table.fields ∧
      reparsed.records = table.storedRecords := by
  have hrecords : parseRecordsFrom table.bytes table.header table.fields table.encodingOverride 0
      table.header.recordCount = .ok table.storedRecords := by
    rw [parseRecordsFrom_eq_ok]
    refine ⟨by rw [DbfTable.storedRecords, length_mapIdx, h.counted], ?_⟩
    intro i record hrecord
    rw [DbfTable.storedRecords, getElem?_mapIdx] at hrecord
    obtain ⟨old, hold, rfl⟩ := Option.map_eq_some_iff.mp hrecord
    have hmark := h.marked i old hold
    rw [Nat.zero_add, parseRecord_eq_ok h.layout.recordLength_pos
      (List.getElem?_eq_some_iff.mp hmark).1]
    exact ⟨old.deleted, hmark, by rw [h.numbered i old hold]⟩
  simp only [fromBytesWithEncoding, parseLayout_eq_ok.mpr h.layout, hrecords, bind, Except.bind]
  exact ⟨_, rfl, rfl, rfl, rfl⟩

end Parse

theorem DbfTable.preparePack_memo [Runtime] (h : table.preparePack = .ok packed) :
    packed.memo.map MemoFile.format = table.memo.map MemoFile.format := by
  unfold DbfTable.preparePack at h
  simp only [bind_eq_ok] at h
  obtain ⟨-, -, stop, -, -, -, header, -, kept, -, -, -, bytes, -, ⟨image, stored, memo⟩, hcompact,
    h⟩ := h
  cases h
  exact (compactMemoSidecar_eq_ok hcompact).2.2.2

theorem DbfTable.preparePack_isSome [Runtime] (h : table.preparePack = .ok packed) :
    packed.memo.isSome = table.memo.isSome := by
  simpa using congrArg Option.isSome (preparePack_memo h)

section Runs
variable [Runtime] [Filters] {call : Call}

def Succeeds (before after : DbfTable) : Prop :=
  ∃ call : Call, call.run before = (after, .ok ())

variable {before : DbfTable}

/-- A call that rewrites the record `number`. -/
def Rewrites (number : Nat) (call : Call) : Prop :=
  (∃ values deferred, call = .replace number values deferred) ∨
    ∃ patch deferred, call = .patch number patch deferred

/-- The values that a rewriting call asks for in a record, the fields it names, and those whose
memos may change. -/
def Call.Asks (call : Call) (record : DbfRecord) (values : Map) (changedFields : List String)
    (named : Option (List String)) : Prop :=
  match call with
  | .replace _ given _ => values = given ∧ changedFields = given.keys ∧ named = none
  | .patch _ given _ => expandUpdate record.values given = .ok (values, changedFields) ∧
    named = some changedFields
  | _ => False

theorem Rewrites.plan {number : Nat} (h : Rewrites number call)
    (hrun : call.run table = (after, .ok ())) :
    ∃ index record values changedFields named deferred update, number = index + 1 ∧
      table.records[index]? = some record ∧ call.Asks record values changedFields named ∧
      table.prepareUpdate index values changedFields named deferred = .ok update ∧
      table.applyUpdate (.ok update) = (after, .ok ()) := by
  rcases h with ⟨values, deferred, rfl⟩ | ⟨patch, deferred, rfl⟩
  · change table.applyUpdate (table.prepareReplace number values deferred) = _ at hrun
    cases hupdate : table.prepareReplace number values deferred with
    | error stop =>
      rw [hupdate] at hrun
      cases hrun
    | ok update =>
      rw [hupdate] at hrun
      simp only [DbfTable.prepareReplace, bind_eq_ok, lift_eq_ok] at hupdate
      obtain ⟨index, hindex, hupdate⟩ := hupdate
      obtain ⟨hnumber, record, hrecord, -⟩ := DbfTable.activeIndex_eq_ok hindex
      exact ⟨index, record, _, _, _, _, update, hnumber, hrecord, ⟨rfl, rfl, rfl⟩, hupdate, hrun⟩
  · change table.applyUpdate (table.preparePatch number patch deferred) = _ at hrun
    cases hupdate : table.preparePatch number patch deferred with
    | error stop =>
      rw [hupdate] at hrun
      cases hrun
    | ok update =>
      rw [hupdate] at hrun
      simp only [DbfTable.preparePatch, bind_eq_ok, lift_eq_ok] at hupdate
      obtain ⟨index, hindex, found, hfound, ⟨values, changedFields⟩, hexpand, hupdate⟩ := hupdate
      obtain ⟨hnumber, record, hrecord, -⟩ := DbfTable.activeIndex_eq_ok hindex
      cases hrecord.symm.trans (Outcome.orPanic_eq_ok.mp hfound)
      exact ⟨index, found, _, _, _, _, update, hnumber, hrecord, ⟨hexpand, rfl⟩, hupdate, hrun⟩

/-- What a call that returned `Ok` did. -/
inductive Call.Did (before : DbfTable) : Call → DbfTable → Prop
  | insert {values : Map} {deferred : List String} {row : DbfTable.InsertedRow}
      (h : before.prepareInsert values deferred = .ok row) :
      Did before (.insert values deferred)
        (before.insertRecordWithDeferredConstraints values deferred).1
  | rewrite {call : Call} {after : DbfTable} {number : Nat} (h : Rewrites number call)
      (hrun : call.run before = (after, .ok ())) : Did before call after
  | mark {call : Call} (index : Nat) (deleted : Bool) : Did before call
      (before.markRecord index (before.header.headerLength + index * before.header.recordLength)
        deleted)
  | pack {packed : DbfTable.Packed} (h : before.preparePack = .ok packed) :
      Did before .pack before.pack.1

theorem Call.did (hrun : call.run table = (after, .ok ())) : call.Did table after := by
  cases call with
  | insert values deferred =>
    cases hrow : table.prepareInsert values deferred with
    | error stop =>
      simp [Call.run, DbfTable.insertRecordWithDeferredConstraints, hrow, Except.map] at hrun
    | ok row =>
      rw [← show (table.insertRecordWithDeferredConstraints values deferred).1 = after from
        congrArg Prod.fst hrun]
      exact .insert hrow
  | replace number values deferred => exact .rewrite (.inl ⟨_, _, rfl⟩) hrun
  | patch number values deferred => exact .rewrite (.inr ⟨_, _, rfl⟩) hrun
  | delete number =>
    dsimp only [Call.run, DbfTable.deleteRecord] at hrun
    split at hrun
    · cases hrun
    · rename_i index offset hprepared
      cases hrun
      simp only [DbfTable.prepareDelete, bind_eq_ok, lift_eq_ok, reject_eq_ok] at hprepared
      obtain ⟨active, -, place, hplace, -, -, hpair⟩ := hprepared
      cases hpair
      rw [(DbfTable.recordOffset_eq_ok hplace).1]
      exact .mark index true
  | «recall» number deferred =>
    dsimp only [Call.run, DbfTable.recallRecordWithDeferredConstraints] at hrun
    split at hrun
    · cases hrun
    · rename_i index offset hprepared
      cases hrun
      simp only [DbfTable.prepareRecall, bind_eq_ok, lift_eq_ok, reject_eq_ok] at hprepared
      obtain ⟨-, -, record, -, -, -, -, -, place, hplace, byte, -, hpair⟩ := hprepared
      cases hpair
      rw [(DbfTable.recordOffset_eq_ok hplace).1]
      exact .mark _ false
  | pack =>
    cases hpacked : table.preparePack with
    | error stop => simp [Call.run, DbfTable.pack, hpacked] at hrun
    | ok packed =>
      rw [← show table.pack.1 = after from congrArg Prod.fst hrun]
      exact .pack hpacked

theorem Succeeds.coherent (h : Succeeds before after) (hcoherent : Coherent before) :
    Coherent after := by
  obtain ⟨call, hrun⟩ := h
  cases call.did hrun with
  | insert hrow => exact hcoherent.insert hrow
  | rewrite hrewrites hrun =>
    obtain ⟨_, _, _, _, _, _, _, -, -, -, -, happly⟩ := hrewrites.plan hrun
    exact hcoherent.applyUpdate happly
  | mark index deleted => exact hcoherent.markRecord deleted
  | pack hpacked => exact hcoherent.pack hpacked

/-- What no call changes. -/
structure SameLayout (before after : DbfTable) : Prop where
  fields : after.fields = before.fields
  encodingOverride : after.encodingOverride = before.encodingOverride
  header : { after.header with recordCount := before.header.recordCount } = before.header
  schema : after.schema = before.schema
  memo : after.memo.isSome = before.memo.isSome

theorem Call.run_sameLayout (call : Call) (table : DbfTable) :
    SameLayout table (call.run table).1 := by
  have hsame : SameLayout table table := ⟨rfl, rfl, rfl, rfl, rfl⟩
  have hupdate : ∀ update, SameLayout table (table.applyUpdate update).1 := by
    intro update
    unfold DbfTable.applyUpdate
    split
    · exact hsame
    · unfold DbfTable.writeUpdate DbfTable.writeExistingRecord
      split <;> rename_i hwritten <;> split at hwritten
      · cases hwritten
        exact hsame
      · split at hwritten <;> cases hwritten
        exact ⟨rfl, rfl, rfl, rfl, rfl⟩
      · cases hwritten
      · split at hwritten <;> cases hwritten
        exact ⟨rfl, rfl, rfl, rfl, rfl⟩
  cases call with
  | insert values deferred =>
    show SameLayout table (table.insertRecordWithDeferredConstraints values deferred).1
    unfold DbfTable.insertRecordWithDeferredConstraints
    split
    · exact hsame
    · exact ⟨rfl, rfl, rfl, rfl, rfl⟩
  | replace number values deferred | patch number values deferred => exact hupdate _
  | delete number =>
    show SameLayout table (table.deleteRecord number).1
    unfold DbfTable.deleteRecord
    split
    · exact hsame
    · exact ⟨rfl, rfl, rfl, rfl, rfl⟩
  | «recall» number deferred =>
    show SameLayout table (table.recallRecordWithDeferredConstraints number deferred).1
    unfold DbfTable.recallRecordWithDeferredConstraints
    split
    · exact hsame
    · exact ⟨rfl, rfl, rfl, rfl, rfl⟩
  | pack =>
    show SameLayout table table.pack.1
    unfold DbfTable.pack
    split
    · exact hsame
    · rename_i packed hpacked
      exact ⟨rfl, rfl, rfl, rfl, DbfTable.preparePack_isSome hpacked⟩

omit [Runtime] [Filters] in
theorem SameLayout.trans {first second third : DbfTable} (h : SameLayout first second)
    (h' : SameLayout second third) : SameLayout first third := by
  refine ⟨h'.fields.trans h.fields, h'.encodingOverride.trans h.encodingOverride, ?_,
    h'.schema.trans h.schema, h'.memo.trans h.memo⟩
  rw [← h.header, ← h'.header]

theorem Succeeds.sameLayout (h : Succeeds before after) : SameLayout before after := by
  obtain ⟨call, hrun⟩ := h
  have hsame := call.run_sameLayout before
  rwa [hrun] at hsame

abbrev Run : DbfTable → DbfTable → Prop := Relation.ReflTransGen Succeeds

theorem Run.coherent (h : Run before after) (hcoherent : Coherent before) :
    Coherent after ∧ SameLayout before after := by
  induction h with
  | refl => exact ⟨hcoherent, rfl, rfl, rfl, rfl, rfl⟩
  | tail _ hlast ih => exact ⟨hlast.coherent ih.1, ih.2.trans hlast.sameLayout⟩

omit [Filters] in
theorem Coherent.recordOffset (h : Coherent table) (hindex : index < table.records.length) :
    table.recordOffset index =
      .ok (table.header.headerLength + index * table.header.recordLength) := by
  have hmul := Nat.mul_le_mul_right table.header.recordLength (Nat.succ_le_of_lt hindex)
  have hend := h.recordEnd_le
  have hsmall := h.layout.records_small
  rw [h.counted] at hsmall
  rw [Nat.succ_mul] at hmul
  unfold DbfTable.recordOffset
  dsimp only
  rw [if_neg (by omega), if_neg (by omega), Nat.add_comm]

theorem calls_keep_structure {bytes : Bytes} {table after : DbfTable}
    (h : fromBytes bytes = .ok table) (hrun : Run table after) :
    ∃ reparsed, fromBytes after.bytes = .ok reparsed ∧
      reparsed.fields = table.fields ∧ after.fields = table.fields ∧
      reparsed.header = after.header ∧
      after.header.recordCount = after.records.length ∧
      after.storedValues.length = after.records.length ∧
      after.records.map DbfRecord.number = List.range' 1 after.records.length ∧
      reparsed.records.map (fun record => (record.number, record.deleted)) =
        after.records.map (fun record => (record.number, record.deleted)) ∧
      ∀ record ∈ after.records,
        after.recordOffset (record.number - 1) = .ok (after.header.headerLength +
          (record.number - 1) * after.header.recordLength) ∧
        after.bytes[after.header.headerLength +
          (record.number - 1) * after.header.recordLength]? = some (marker record.deleted) := by
  have hencoding := (fromBytes_origin h).2
  obtain ⟨hafter, hsame⟩ := hrun.coherent (coherent_fromBytes h)
  obtain ⟨reparsed, hreparsed, hheader, hfields, hrecords⟩ := hafter.reparse
  rw [hsame.encodingOverride, hencoding] at hreparsed
  refine ⟨reparsed, hreparsed, hfields.trans hsame.fields, hsame.fields, hheader, hafter.counted,
    hafter.stored, ?_, ?_, ?_⟩
  · apply ext_getElem (by rw [length_map, length_range'])
    intro i hi _
    rw [length_map] at hi
    rw [getElem_map, getElem_range', Nat.one_mul, Nat.add_comm]
    exact hafter.numbered i _ (getElem?_eq_getElem hi)
  · apply ext_getElem?
    intro i
    rw [hrecords, DbfTable.storedRecords, getElem?_map, getElem?_map,
      getElem?_mapIdx]
    cases after.records[i]? <;> rfl
  · intro record hmem
    obtain ⟨i, hi⟩ := getElem?_of_mem hmem
    rw [hafter.numbered i record hi, Nat.add_sub_cancel]
    exact ⟨hafter.recordOffset (List.getElem?_eq_some_iff.mp hi).1, hafter.marked i record hi⟩

end Runs

/-- An image whose only field is called "A", with the given record slots. -/
def singleFieldImage (version fieldType length flags : UInt8) (slots : List Bytes) : Bytes :=
  [version, 0, 0, 0] ++ toLeBytes 4 slots.length ++ toLeBytes 2 65 ++
    toLeBytes 2 (length.toNat + 1) ++ List.replicate 20 0 ++
    ([0x41] ++ List.replicate 10 0 ++ [fieldType, 0, 0, 0, 0, length, 0, flags] ++
      List.replicate 13 0) ++ [fieldTerminator] ++ slots.flatten ++ [eofMarker]

def singleFieldTable (version fieldType length flags : UInt8) (slots : List Bytes)
    (records : List DbfRecord) : DbfTable where
  header := ⟨version, [0, 0, 0], slots.length, 65, length.toNat + 1, 0⟩
  fields := [⟨"A", fieldType, length, 0, flags, 1⟩]
  records := records
  storedValues := records.map DbfRecord.values
  bytes := singleFieldImage version fieldType length flags slots
  memo := none
  schema := none
  encodingOverride := none
  memoUpdates := []
  transactionId := none
  source := none
  historicalSnapshot := false
  layoutChanged := false

attribute [local instance] Runtime.bare Filters.bare

theorem emptyField_parses : fromBytes (singleFieldImage 0x03 0x43 2 0 []) =
    .ok (singleFieldTable 0x03 0x43 2 0 [] []) := by decide +kernel

theorem emptyField_insert : (Call.insert [("A", .string "ab")] []).run
    (singleFieldTable 0x03 0x43 2 0 [] []) =
    (singleFieldTable 0x03 0x43 2 0 [[0x20, 0x61, 0x62]]
      [⟨1, false, [("A", .string "ab")]⟩], .ok ()) := by
  decide +kernel

theorem calls_keep_structure_insert :
    let after := singleFieldTable 0x03 0x43 2 0 [[0x20, 0x61, 0x62]]
      [⟨1, false, [("A", .string "ab")]⟩]
    fromBytes (singleFieldImage 0x03 0x43 2 0 []) = .ok (singleFieldTable 0x03 0x43 2 0 [] []) ∧
      (Call.insert [("A", .string "ab")] []).run (singleFieldTable 0x03 0x43 2 0 [] []) =
        (after, .ok ()) ∧
      ∃ reparsed, fromBytes after.bytes = .ok reparsed ∧ reparsed.fields = after.fields := by
  obtain ⟨reparsed, hreparsed, hfields, -⟩ :=
    calls_keep_structure emptyField_parses (.single ⟨_, emptyField_insert⟩)
  exact ⟨emptyField_parses, emptyField_insert, reparsed, hreparsed, hfields⟩

end TxBase.Dbf
