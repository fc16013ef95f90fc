import TxBase.Dbf.FieldValues
import TxBase.Dbf.Safety

/-! Memory and image agree: a table whose calls only store values that their fields
can represent decodes to the values it holds in memory. -/
namespace TxBase.Dbf
open Lib Json List
open Outcome (lift_eq_ok)
open DbfTable (markRecord storedRecords Update entries InsertedRow prepareInsert)
variable {table after : DbfTable} {values : Map} {field : FieldDescriptor} {index : Nat}
  {named : Option (List String)} {value : Value} {fields : List FieldDescriptor}
  {changedFields : List String}

/-- The fields whose values are in the record itself. -/
def isPlain (field : FieldDescriptor) : Bool := !field.isSystem && !isSidecarField field

section Values
variable {name : String}

theorem valueOrNull_of_get (h : values.get? name = some value) :
    valueOrNull values name = value := by
  unfold valueOrNull
  rw [h]
  rfl

theorem valueOrNull_insert_ne {other : String} (value : Value) (hne : other ≠ name) :
    valueOrNull (values.insert name value) other = valueOrNull values other := by
  unfold valueOrNull
  rw [OrderedMap.get?_insert_ne value values hne]

theorem plain_ne_sidecar (hnodup : (table.fields.map FieldDescriptor.name).Nodup)
    {sidecar : FieldDescriptor}
    (hmem : field ∈ table.fields) (hplain : isPlain field = true)
    (hsidecar : sidecar ∈ table.sidecarFields) :
    field.name ≠ sidecar.name := by
  intro hname
  obtain ⟨hin, hrole⟩ := mem_filter.mp hsidecar
  rw [← inj_on_of_nodup_map hnodup hmem hin hname] at hrole
  simp [isPlain, hrole] at hplain

theorem normalizeValues_get (hnodup : (table.fields.map FieldDescriptor.name).Nodup) {normal : Map}
    (h : table.normalizeValues values = .ok normal) (hmem : field ∈ table.fields)
    (hsystem : field.isSystem = false) :
    normal.get? field.name = some (valueOrNull values field.name) := by
  unfold DbfTable.normalizeValues at h
  split at h
  · cases h
  · cases h
    have hsublist : ((table.fields.filter fun field => !field.isSystem).map
        FieldDescriptor.name).Nodup := (filter_sublist.map _).nodup hnodup
    have hkeys : (((table.fields.filter fun field => !field.isSystem).map fun field =>
        (field.name, valueOrNull values field.name)).map Prod.fst).Nodup := by
      rw [map_map]
      exact hsublist
    rw [OrderedMap.get?_ofList _ _ hkeys]
    apply OrderedMap.get?_of_mem hkeys
    exact mem_map.mpr ⟨field, mem_filter.mpr ⟨hmem, by simp [hsystem]⟩, rfl⟩

section Storage
variable [Runtime] {storage : Map × MemoUpdates}

theorem insertStorage_plain (hnodup : (table.fields.map FieldDescriptor.name).Nodup)
    (hfields : ∀ field ∈ fields, field ∈ table.sidecarFields) {result : Map × MemoUpdates}
    (h : table.insertStorage index values fields storage = .ok result) (hmem : field ∈ table.fields)
    (hplain : isPlain field = true) :
    valueOrNull result.1 field.name = valueOrNull storage.1 field.name := by
  induction fields generalizing storage with
  | nil =>
    cases h
    rfl
  | cons head rest ih =>
    have hne := plain_ne_sidecar hnodup hmem hplain (hfields head mem_cons_self)
    have hrest : ∀ other ∈ rest, other ∈ table.sidecarFields :=
      (forall_mem_cons.mp hfields).2
    rw [DbfTable.insertStorage] at h
    split at h
    · obtain ⟨update, -, h⟩ := bind_eq_ok.mp h
      rw [ih hrest h, valueOrNull_insert_ne _ hne]
    · obtain ⟨stored, -, h⟩ := bind_eq_ok.mp h
      rw [ih hrest h, valueOrNull_insert_ne _ hne]

theorem existingStorageField_insert {next : Map × MemoUpdates}
    (h : table.existingStorageField index values named storage field = .ok next) :
    next.1 = storage.1 ∨ ∃ value, next.1 = storage.1.insert field.name value := by
  unfold DbfTable.existingStorageField at h
  obtain ⟨kept, -, h⟩ := bind_eq_ok.mp h
  split at h
  · unfold DbfTable.keptStorage at h
    split at h
    · cases h
      exact .inl rfl
    · obtain ⟨stored, -, h⟩ := bind_eq_ok.mp h
      obtain ⟨value, -, h⟩ := bind_eq_ok.mp h
      cases h
      exact .inr ⟨value, rfl⟩
  · unfold DbfTable.changedStorage at h
    obtain ⟨value, -, h⟩ := bind_eq_ok.mp h
    split at h
    · obtain ⟨stored, -, h⟩ := bind_eq_ok.mp h
      cases h
      exact .inr ⟨stored, rfl⟩
    · obtain ⟨update, -, h⟩ := bind_eq_ok.mp h
      cases h
      exact .inr ⟨_, rfl⟩

theorem prepareExistingStorage_plain (hnodup : (table.fields.map FieldDescriptor.name).Nodup)
    (h : table.prepareExistingStorage index values named = .ok storage) (hmem : field ∈ table.fields)
    (hplain : isPlain field = true) :
    valueOrNull storage.1 field.name = valueOrNull values field.name := by
  unfold DbfTable.prepareExistingStorage at h
  refine foldlM_invariant (P := fun state : Map × MemoUpdates =>
    valueOrNull state.1 field.name = valueOrNull values field.name) ?_ rfl h
  intro state sidecar next hin hstate hnext
  have hne := plain_ne_sidecar hnodup hmem hplain hin
  rcases existingStorageField_insert hnext with heq | ⟨value, heq⟩
  · rw [heq, hstate]
  · rw [heq, valueOrNull_insert_ne _ hne, hstate]

end Storage

/-- Whether the header has a counter that issues the values of an auto-increment field. -/
def DbfTable.issues (table : DbfTable) (field : FieldDescriptor) : Bool :=
  field.isAutoIncrement table.header.version &&
    (isLevel7 table.header.version || table.header.version = 0x31)

theorem isAutoIncrement_kind {version : UInt8} (h : field.isAutoIncrement version = true) :
    field.kind = .i ∨ field.kind = .plus := by
  unfold FieldDescriptor.isAutoIncrement at h
  simp only [decide_eq_true_eq] at h
  rcases h with h | h
  · exact .inr h
  · exact .inl h.2.1

variable {fieldIndex : Nat}

theorem nextAutoIncrement_range {auto : AutoIncrement}
    (h : table.nextAutoIncrement fieldIndex field = .ok (some auto)) :
    -2 ^ 63 ≤ auto.next ∧ auto.next < 2 ^ 63 := by
  unfold DbfTable.nextAutoIncrement at h
  split at h
  · have h := lift_eq_ok.mp h
    unfold level7Counter at h
    simp only [bind_eq_ok, reject_eq_ok] at h
    obtain ⟨-, -, -, -, -, -, next, hnext, h⟩ := h
    cases h
    have hlt : next < 256 ^ 4 := by
      unfold readU32 at hnext
      split at hnext
      · cases hnext
      · rename_i hlong
        cases hnext
        have hbound := fromLeBytes_lt (slice table.bytes
          (level7HeaderSize + fieldIndex * level7DescriptorSize + 40)
          (level7HeaderSize + fieldIndex * level7DescriptorSize + 40 + 4))
        rwa [slice_length (by omega), Nat.add_sub_cancel_left] at hbound
    dsimp only
    omega
  · split at h
    · cases h
    · unfold foxproCounter at h
      simp only [bind_eq_ok, lift_eq_ok, reject_eq_ok] at h
      obtain ⟨-, -, -, -, -, -, -, -, stored, -, step, -, -, -, -, hbounds, h⟩ := h
      cases h
      dsimp only
      omega

theorem nextAutoIncrement_isSome {next : Option AutoIncrement}
    (h : table.nextAutoIncrement fieldIndex field = .ok next) :
    next.isSome = (isLevel7 table.header.version || table.header.version = 0x31) := by
  unfold DbfTable.nextAutoIncrement at h
  split at h
  · rename_i hversion
    have h := lift_eq_ok.mp h
    unfold level7Counter at h
    simp only [bind_eq_ok, reject_eq_ok] at h
    obtain ⟨-, -, -, -, -, -, value, -, h⟩ := h
    cases h
    simp [hversion]
  · rename_i hversion
    split at h
    · rename_i hother
      cases h
      simp [hversion, hother]
    · rename_i hother
      unfold foxproCounter at h
      simp only [bind_eq_ok] at h
      obtain ⟨-, -, -, -, -, -, -, -, stored, -, step, -, -, -, -, -, h⟩ := h
      cases h
      simp [not_not.mp hother]

theorem issueValues_get (hnodup : (table.fields.map FieldDescriptor.name).Nodup)
    (hfields : fields.Sublist table.fields) {issued : Map} {updates : List CounterUpdate}
    (h : table.issueValues fieldIndex values fields = .ok (issued, updates))
    (hmem : field ∈ table.fields) :
    (field ∈ fields → table.issues field = true → ∃ value, issued.get? field.name = some value ∧
      IsInteger value) ∧
    (field ∉ fields ∨ table.issues field = false →
      issued.get? field.name = values.get? field.name) := by
  induction fields generalizing fieldIndex values updates with
  | nil =>
    cases h
    exact ⟨fun hin => (nomatch hin), fun _ => rfl⟩
  | cons head rest ih =>
    have hrest : rest.Sublist table.fields := (sublist_cons_self head rest).trans hfields
    have hhead : head ∈ table.fields := hfields.subset mem_cons_self
    have hfresh : head ∉ rest := by
      intro hin
      have hsub := (hfields.map FieldDescriptor.name).nodup hnodup
      rw [map_cons, nodup_cons] at hsub
      exact hsub.1 (mem_map.mpr ⟨head, hin, rfl⟩)
    rw [DbfTable.issueValues] at h
    split at h
    · rename_i hauto
      obtain ⟨⟨middle, first⟩, hfirst, h⟩ := bind_eq_ok.mp h
      obtain ⟨⟨last, others⟩, hothers, h⟩ := bind_eq_ok.mp h
      cases h
      obtain ⟨hissued, hkept⟩ := ih hrest hothers
      unfold DbfTable.issueValue at hfirst
      simp only [bind_eq_ok] at hfirst
      obtain ⟨given, -, -, -, next, hnext, hfirst⟩ := hfirst
      have hsome := nextAutoIncrement_isSome hnext
      have hissues : table.issues head = next.isSome := by
        unfold DbfTable.issues
        rw [hauto, hsome, Bool.true_and]
      by_cases heq : field = head
      · subst heq
        rw [hkept (.inl hfresh)]
        cases next with
        | none =>
          cases hfirst
          exact ⟨fun _ hyes => absurd (hissues.symm.trans hyes) (by simp), fun _ => rfl⟩
        | some auto =>
          obtain ⟨update, -, hfirst⟩ := bind_eq_ok.mp hfirst
          cases hfirst
          rw [OrderedMap.get?_insert_self]
          refine ⟨fun _ _ => ⟨_, rfl, auto.next, rfl, nextAutoIncrement_range hnext⟩, ?_⟩
          rintro (hnot | hnot)
          · exact absurd mem_cons_self hnot
          · rw [hissues] at hnot
            cases hnot
      · have hmiddle : middle.get? field.name = values.get? field.name := by
          cases next with
          | none =>
            cases hfirst
            rfl
          | some auto =>
            obtain ⟨update, -, hfirst⟩ := bind_eq_ok.mp hfirst
            cases hfirst
            apply OrderedMap.get?_insert_ne
            exact fun hname => heq (inj_on_of_nodup_map hnodup hmem hhead hname)
        rw [← hmiddle]
        refine ⟨fun hin => hissued ((mem_cons.mp hin).resolve_left heq), fun hnot => hkept ?_⟩
        exact hnot.imp_left fun hnot hin => hnot (mem_cons_of_mem _ hin)
    · rename_i hauto
      obtain ⟨hissued, hkept⟩ := ih hrest h
      have hhead : table.issues head = false := by
        unfold DbfTable.issues
        simp [hauto]
      constructor
      · intro hin hyes
        rcases mem_cons.mp hin with rfl | hin
        · rw [hhead] at hyes
          cases hyes
        · exact hissued hin hyes
      · intro hnot
        exact hkept (hnot.imp_left fun hnot hin => hnot (mem_cons_of_mem _ hin))

theorem preserveFields_get {record : DbfRecord} (hrecord : table.records[index]? = some record)
    {autos : List FieldDescriptor} {preserved : Map}
    (h : autos.foldlM (table.preserveField index changedFields) values = .ok preserved)
    (name : String) :
    (name ∈ autos.map FieldDescriptor.name → preserved.get? name = record.values.get? name) ∧
      (name ∉ autos.map FieldDescriptor.name → preserved.get? name = values.get? name) := by
  induction autos generalizing values with
  | nil =>
    cases h
    exact ⟨fun hin => (nomatch hin), fun _ => rfl⟩
  | cons auto rest ih =>
    rw [foldlM_cons] at h
    obtain ⟨middle, hmiddle, h⟩ := bind_eq_ok.mp h
    obtain ⟨hin, hout⟩ := ih h
    unfold DbfTable.preserveField at hmiddle
    rw [hrecord] at hmiddle
    obtain ⟨old, hold, hmiddle⟩ := bind_eq_ok.mp hmiddle
    cases hold
    simp only [bind_eq_ok] at hmiddle
    obtain ⟨current, hcurrent, -, -, hmiddle⟩ := hmiddle
    cases hmiddle
    have hcurrent : record.values.get? auto.name = some current := Outcome.orPanic_eq_ok.mp hcurrent
    rw [map_cons, mem_cons]
    by_cases hrest : name ∈ rest.map FieldDescriptor.name
    · exact ⟨fun _ => hin hrest, fun hnot => absurd (.inr hrest) hnot⟩
    · rw [hout hrest, OrderedMap.get?_insert]
      split
      · rename_i hname
        exact ⟨fun _ => by rw [hname, hcurrent], fun hnot => absurd (.inl hname) hnot⟩
      · rename_i hname
        exact ⟨fun hor => (hor.resolve_left hname |> hrest).elim, fun _ => rfl⟩

end Values

section Faithful
theorem entries_fields (table : DbfTable) : table.entries.map Prod.fst = table.fields := by
  apply map_fst_zip
  unfold nullFlagLayout
  rw [nullFlagLayoutFrom_length]

theorem exists_entry (hmem : field ∈ table.fields) : ∃ entry ∈ table.entries, entry.1 = field := by
  rw [← entries_fields] at hmem
  exact mem_map.mp hmem

variable {entry : FieldDescriptor × Option NullFlagBits}

theorem isPlain_iff :
    isPlain field = true ↔ field.isSystem = false ∧ isSidecarField field = false := by
  unfold isPlain
  simp

variable [Runtime]

/-- In every plain field, the slot at `index` decodes to what `values` holds. -/
def Mirrors (table : DbfTable) (index : Nat) (values : Map) : Prop :=
  ∀ entry ∈ table.entries, isPlain entry.1 = true →
    ∃ value, values.get? entry.1.name = some value ∧ (table.onDisk index entry).eqv value = true

/-- A coherent table whose plain fields read the same in memory and in the image. -/
structure Faithful (table : DbfTable) : Prop where
  coherent : Coherent table
  mirrors : ∀ i record, table.records[i]? = some record → Mirrors table i record.values

theorem decodeValues_get (hnodup : (table.fields.map FieldDescriptor.name).Nodup) (record : Bytes)
    (hmem : entry ∈ table.entries) (hsystem : entry.1.isSystem = false) :
    (decodeValues table.header table.fields table.encodingOverride record).get? entry.1.name =
      some (decodeValue table.header table.encodingOverride (recordNullFlags table.fields record)
        record entry.1 entry.2) := by
  have hnames : ((table.entries.filter fun entry => !entry.1.isSystem).map
      fun entry => entry.1.name).Nodup := by
    apply (filter_sublist.map _).nodup
    rw [← entries_fields, map_map] at hnodup
    exact hnodup
  unfold decodeValues
  have hkeys : ((((table.fields.zip (nullFlagLayout table.fields)).filter fun entry =>
      !entry.1.isSystem).map fun entry =>
        (entry.1.name, decodeValue table.header table.encodingOverride
          (recordNullFlags table.fields record) record entry.1 entry.2)).map Prod.fst).Nodup := by
    rw [map_map]
    exact hnames
  rw [OrderedMap.get?_ofList _ _ hkeys]
  apply OrderedMap.get?_of_mem hkeys
  exact mem_map.mpr ⟨entry, mem_filter.mpr ⟨hmem, by simp [hsystem]⟩, rfl⟩

variable {encodingOverride : Option String} {bytes : Bytes}

theorem faithful_fromBytes (h : fromBytesWithEncoding bytes encodingOverride = .ok table) :
    Faithful table := by
  have hcoherent := coherent_fromBytes h
  obtain ⟨reparsed, hreparsed, -, -, hrecords⟩ := hcoherent.reparse
  rw [(fromBytes_origin h).1, (fromBytes_origin h).2] at hreparsed
  cases h.symm.trans hreparsed
  refine ⟨hcoherent, ?_⟩
  intro i record hrecord entry hmem hplain
  rw [hrecords, storedRecords, getElem?_mapIdx] at hrecord
  obtain ⟨old, -, rfl⟩ := Option.map_eq_some_iff.mp hrecord
  exact ⟨_, decodeValues_get hcoherent.layout.parsed.2 _ hmem (isPlain_iff.mp hplain).1,
    Value.eqv_refl _⟩

variable {other : Nat} {before : DbfTable}

theorem onDisk_congr (h : SameLayout before after)
    (hslot : recordSlice after.bytes after.header other =
      recordSlice before.bytes before.header index)
    (entry : FieldDescriptor × Option NullFlagBits) :
    after.onDisk other entry = before.onDisk index entry := by
  obtain ⟨hversion, hdriver, -, -⟩ := h.sizes
  unfold DbfTable.onDisk
  dsimp only
  rw [hslot, h.fields, h.encodingOverride]
  unfold decodeValue
  rw [hversion, hdriver]

theorem Mirrors.of_slot (h : Mirrors before index values) (hsame : SameLayout before after)
    (hslot : recordSlice after.bytes after.header other =
      recordSlice before.bytes before.header index) :
    Mirrors after other values := by
  intro entry hmem hplain
  unfold entries at hmem
  rw [hsame.fields] at hmem
  obtain ⟨value, hvalue, heqv⟩ := h entry hmem hplain
  exact ⟨value, hvalue, by rwa [onDisk_congr hsame hslot]⟩

theorem Representable.decodes {header : DbfHeader}
    (h : Representable header encodingOverride entry.1 value)
    {nullFlags : Option Bytes} (hflags : Flagged nullFlags entry value) {slot : Bytes}
    (hstored : encodeFieldWithEncoding entry.1 value header.languageDriver encodingOverride = .ok
      (slice slot entry.1.offset entry.1.stop)) :
    (decodeValue header encodingOverride nullFlags slot entry.1 entry.2).eqv value = true := by
  rw [decodeValue_eq, hflags.nullable, hflags.varlength]
  exact h _ hstored

theorem SlotWritten.decodes {old storageValues : Map}
    (h : SlotWritten table index old values storageValues bytes)
    (hmem : entry ∈ table.entries) (hsystem : entry.1.isSystem = false) {current : Value}
    (hcurrent : old.get? entry.1.name = some current)
    (hdisk : (table.onDisk index entry).eqv current = true)
    (hvalue : values.get? entry.1.name = some value)
    (hstorage : valueOrNull storageValues entry.1.name = value)
    (hgives : value.eqv current = false →
      Representable table.header table.encodingOverride entry.1 value) :
    (decodeValue table.header table.encodingOverride
      (recordNullFlags table.fields (recordSlice bytes table.header index))
      (recordSlice bytes table.header index) entry.1 entry.2).eqv value = true := by
  have hwritten : isWritten old values entry.1 = !value.eqv current := by
    unfold isWritten
    rw [hsystem, hvalue, hcurrent]
    rfl
  cases hsame : value.eqv current with
  | true =>
    rw [h.kept entry hmem hsystem (by rw [hwritten, hsame]; rfl)]
    exact Value.eqv_trans hdisk (Value.eqv_symm hsame)
  | false =>
    obtain ⟨hstored, hflags⟩ := h.written entry hmem (by rw [hwritten, hsame]; rfl)
    have horNull := valueOrNull_of_get hvalue
    rw [hstorage] at hstored
    rw [horNull] at hflags
    exact (hgives hsame).decodes hflags hstored

end Faithful

section Steps
variable [Runtime] [Filters]

def DbfTable.withDefaults (table : DbfTable) (values : Map) : Map :=
  match table.schema with
  | some schema => schema.applyDefaults values
  | none => values

/-- An update to `values` stores nothing that its fields do not give back. -/
def DbfTable.FitsUpdate (table : DbfTable) (number : Nat) (values : Map) : Prop :=
  ∀ record, table.records[number - 1]? = some record → ∀ field ∈ table.fields,
    isPlain field = true → field.isAutoIncrement table.header.version = false →
      sameValue (some (valueOrNull values field.name)) (record.values.get? field.name) = false →
        GivesBack table.header field (valueOrNull values field.name)

/-- The values that a call stores in the plain fields are ones that the fields give back:
those of an insert, and those that an update changes. -/
def Call.Fits (table : DbfTable) : Call → Prop
  | .insert values _ => ∀ field ∈ table.fields, isPlain field = true →
      table.issues field = false →
        GivesBack table.header field (valueOrNull (table.withDefaults values) field.name)
  | .replace number values _ => table.FitsUpdate number values
  | .patch number update _ => ∀ record, table.records[number - 1]? = some record →
      ∀ values changedFields, expandUpdate record.values update = .ok (values, changedFields) →
        table.FitsUpdate number values
  | .delete _ | .recall _ _ | .pack => True

section
variable {deferred : List String} {row : InsertedRow} {update : Update}
variable (h : Coherent table)
include h

/-- An insert leaves the old slots as they were, and behind them a slot that holds the new values. -/
theorem insert_onDisk (hrow : table.prepareInsert values deferred = .ok row) :
    let after := (table.insertRecordWithDeferredConstraints values deferred).1
    (∀ i < table.records.length,
      recordSlice after.bytes after.header i = recordSlice table.bytes table.header i) ∧
    ∀ entry ∈ table.entries, entry.1.isSystem = false →
      ∃ bytes, encodeFieldWithEncoding entry.1 (valueOrNull row.storageValues entry.1.name)
          table.header.languageDriver table.encodingOverride = .ok bytes ∧
        after.onDisk table.records.length entry =
          decodeStored table.header table.encodingOverride entry.1
            (entry.1.isNullable && (valueOrNull row.storageValues entry.1.name).isNull)
              entry.1.isVariable bytes := by
  unfold DbfTable.insertRecordWithDeferredConstraints
  rw [hrow]
  simp only [prepareInsert, bind_eq_ok, lift_eq_ok, reject_eq_ok] at hrow
  obtain ⟨normal, -, ⟨issued, counters⟩, hissued, -, -, -, -, -, -, ⟨storage, pending⟩, -, encoded,
    hencoded, bytes,
    hbytes, hrow⟩ := hrow
  cases hrow
  have hlength := (DbfTable.encodeRecord_eq_ok hencoded).1
  have hinserted := DbfTable.insertedBytes_eq_ok h.layout (DbfTable.issueValues_fits hissued) hbytes
  obtain ⟨hold, hnew⟩ := hinserted.slots hlength
  refine ⟨hold, fun entry hentry hsystem => ?_⟩
  obtain ⟨hstored, hflags⟩ := encodeRecord_slot h.layout hencoded hentry hsystem
  refine ⟨_, hstored, ?_⟩
  rw [← hflags.nullable, ← hflags.varlength, ← decodeValue_eq, ← hnew]
  rfl

/-- What an insert stores: an integer where a counter issues it, else the given value. -/
theorem insert_values (hrow : table.prepareInsert values deferred = .ok row)
    (hmem : field ∈ table.fields) (hsystem : field.isSystem = false) :
    (∃ value, row.values.get? field.name = some value ∧
      (table.issues field = true → IsInteger value) ∧
      (table.issues field = false → value = valueOrNull (table.withDefaults values) field.name)) ∧
    (isSidecarField field = false →
      valueOrNull row.storageValues field.name = valueOrNull row.values field.name) := by
  have hnodup := h.layout.parsed.2
  simp only [prepareInsert, bind_eq_ok, lift_eq_ok] at hrow
  obtain ⟨normal, hnormal, ⟨issued, counters⟩, hissued, -, -, -, -, -, -, ⟨storage, pending⟩,
    hstorage, encoded, -,
    bytes, -, hrow⟩ := hrow
  cases hrow
  have hgiven := normalizeValues_get hnodup hnormal hmem hsystem
  obtain ⟨hcounter, hkept⟩ := issueValues_get hnodup (List.Sublist.refl _) hissued hmem
  refine ⟨?_, fun hsidecar => insertStorage_plain hnodup (fun _ hother => hother) hstorage hmem
    (isPlain_iff.mpr ⟨hsystem, hsidecar⟩)⟩
  cases hissues : table.issues field with
  | true =>
    obtain ⟨value, hvalue, hrange⟩ := hcounter hmem hissues
    exact ⟨value, hvalue, fun _ => hrange, by simp⟩
  | false => exact ⟨_, (hkept (.inr hissues)).trans hgiven, by simp, fun _ => rfl⟩

/-- What an update leaves in memory: an auto-increment field keeps its value, any other field has
the value that was asked for. -/
theorem update_values (hrecord : table.records[index]? = some record)
    (hplan : table.prepareUpdate index values changedFields named deferred = .ok update)
    (hmem : field ∈ table.fields) (hsystem : field.isSystem = false) :
    update.values.get? field.name =
      if field.isAutoIncrement table.header.version then record.values.get? field.name
      else some (valueOrNull values field.name) := by
  have hnodup := h.layout.parsed.2
  obtain ⟨normal, hnormal, hpreserved, -, -⟩ := prepareUpdate_eq_ok hplan
  obtain ⟨hauto, hother⟩ := preserveFields_get hrecord hpreserved field.name
  split
  · rename_i hyes
    exact hauto (mem_map.mpr ⟨field, mem_filter.mpr ⟨hmem, hyes⟩, rfl⟩)
  · rename_i hno
    rw [hother, normalizeValues_get hnodup hnormal hmem hsystem]
    intro hin
    obtain ⟨auto, hauto, hname⟩ := mem_map.mp hin
    obtain ⟨hautoMem, hyes⟩ := mem_filter.mp hauto
    rw [inj_on_of_nodup_map hnodup hautoMem hmem hname] at hyes
    exact hno hyes

end

namespace Faithful

variable {deferred : List String}

section
variable (h : Faithful table)
include h

omit [Filters] in
theorem representable (hencoding : table.encodingOverride = none) (hmem : field ∈ table.fields)
    (hplain : isPlain field = true) (hgives : GivesBack table.header field value) :
    Representable table.header table.encodingOverride field value := by
  rw [hencoding]
  exact hgives.representable (isPlain_iff.mp hplain).2 (h.coherent.layout.parsed.1.range hmem).2.1

theorem insert (hencoding : table.encodingOverride = none)
    (hfits : (Call.insert values deferred).Fits table) {row : InsertedRow}
    (hrow : table.prepareInsert values deferred = .ok row) :
    Faithful (table.insertRecordWithDeferredConstraints values deferred).1 := by
  have hsame : SameLayout table (table.insertRecordWithDeferredConstraints values deferred).1 :=
    (Call.insert values deferred).run_sameLayout table
  have hrecords : (table.insertRecordWithDeferredConstraints values deferred).1.records =
      table.records ++ [⟨row.number, false, row.values⟩] := by
    unfold DbfTable.insertRecordWithDeferredConstraints
    rw [hrow]
  obtain ⟨hold, hnew⟩ := insert_onDisk h.coherent hrow
  refine ⟨h.coherent.insert hrow, fun i record hrecord => ?_⟩
  rw [hrecords] at hrecord
  rcases getElem?_concat_eq_some hrecord with hrecord | ⟨rfl, rfl⟩
  · exact (h.mirrors i record hrecord).of_slot hsame
      (hold i (List.getElem?_eq_some_iff.mp hrecord).1)
  · intro entry hmem hplain
    rw [hsame.entries] at hmem
    have hin := (of_mem_zip hmem).1
    obtain ⟨hsystem, hsidecar⟩ := isPlain_iff.mp hplain
    obtain ⟨⟨value, hvalue, hissued, hgiven⟩, hstorage⟩ := insert_values h.coherent hrow hin hsystem
    obtain ⟨bytes, hstored, hdisk⟩ := hnew entry hmem hsystem
    rw [hstorage hsidecar, valueOrNull_of_get hvalue] at hstored hdisk
    refine ⟨value, hvalue, ?_⟩
    rw [hdisk]
    cases hissues : table.issues entry.1 with
    | true =>
      have hauto := hissues
      unfold DbfTable.issues at hauto
      rw [Bool.and_eq_true] at hauto
      exact representable_integer (isAutoIncrement_kind hauto.1) (hissued hissues) bytes hstored
    | false =>
      have hgives := hfits entry.1 hin hplain hissues
      rw [← hgiven hissues] at hgives
      exact h.representable hencoding hin hplain hgives bytes hstored

theorem update (hencoding : table.encodingOverride = none)
    (hfits : table.FitsUpdate (index + 1) values) {record : DbfRecord}
    (hrecord : table.records[index]? = some record) {plan : Update}
    (hplan : table.prepareUpdate index values changedFields named deferred = .ok plan)
    (hrun : table.applyUpdate (.ok plan) = (after, .ok ())) (hsame : SameLayout table after) :
    Faithful after := by
  refine ⟨h.coherent.applyUpdate hrun, ?_⟩
  have hvalues := fun field (hmem : field ∈ table.fields) =>
    update_values h.coherent hrecord hplan hmem
  obtain ⟨_, -, -, hstorage, rfl⟩ := prepareUpdate_eq_ok hplan
  obtain ⟨bytes, hbytes, rfl⟩ := DbfTable.applyUpdate_eq_ok hrun
  have hslot := rewrittenBytes_slot h.coherent hrecord hbytes
  intro i other hother
  dsimp only at hother
  rw [getElem?_modify] at hother
  obtain ⟨old, hold, rfl⟩ := Option.map_eq_some_iff.mp hother
  by_cases hi : plan.index = i
  · subst hi
    rw [if_pos rfl]
    cases hrecord.symm.trans hold
    intro entry hmem hplain
    have hin := (of_mem_zip hmem).1
    have hsystem := (isPlain_iff.mp hplain).1
    obtain ⟨current, hcurrent, hmirrors⟩ := h.mirrors plan.index record hrecord entry hmem hplain
    have hvalue := hvalues entry.1 hin hsystem
    obtain ⟨value, hpresent, hgives⟩ : ∃ value, plan.values.get? entry.1.name = some value ∧
        (value.eqv current = false →
          Representable table.header table.encodingOverride entry.1 value) := by
      split at hvalue
      · refine ⟨current, hvalue.trans hcurrent, fun hdiffers => ?_⟩
        rw [Value.eqv_refl] at hdiffers
        cases hdiffers
      · rename_i hauto
        refine ⟨_, hvalue, fun hdiffers => h.representable hencoding hin hplain ?_⟩
        apply hfits record hrecord entry.1 hin hplain (by simpa using hauto)
        rw [hcurrent]
        exact hdiffers
    have horNull := valueOrNull_of_get hpresent
    exact ⟨value, hpresent, hslot.decodes hmem hsystem hcurrent hmirrors hpresent
      ((prepareExistingStorage_plain h.coherent.layout.parsed.2 hstorage hin hplain).trans horNull)
        hgives⟩
  · rw [if_neg hi]
    exact (h.mirrors i old hold).of_slot hsame (hslot.others i (Ne.symm hi))

omit [Filters] in
theorem mark (index : Nat) (deleted : Bool) :
    Faithful (table.markRecord index (slotOffset table.header index) deleted) := by
  refine ⟨h.coherent.markRecord deleted, ?_⟩
  have hsame : SameLayout table (table.markRecord index (slotOffset table.header index) deleted) :=
    ⟨rfl, rfl, rfl, rfl, rfl⟩
  intro i record hrecord
  have hi : i < table.records.length := by
    have hlt := (List.getElem?_eq_some_iff.mp hrecord).1
    unfold markRecord at hlt
    rwa [length_modify] at hlt
  have hroom := h.coherent.slot_room hi
  unfold markRecord at hrecord
  rw [getElem?_modify] at hrecord
  obtain ⟨old, hold, rfl⟩ := Option.map_eq_some_iff.mp hrecord
  intro entry hmem hplain
  obtain ⟨value, hvalue, hdisk⟩ := h.mirrors i old hold entry hmem hplain
  refine ⟨value, by split <;> exact hvalue, ?_⟩
  rw [onDisk_of_fields h.coherent hsame hroom _ hmem]
  · exact hdisk
  · intro field hin _
    have hrange := h.coherent.layout.field_range hin
    apply ext_getElem?
    intro k
    unfold markRecord
    rw [getElem?_slice, getElem?_slice]
    split
    · have hoff : FixedByte table.header (slotOffset table.header index) := .inr ⟨index, rfl⟩
      have houtside : slotOffset table.header index < slotOffset table.header i + field.offset ∨
          slotOffset table.header i + field.stop ≤ slotOffset table.header index :=
        hoff.outside hrange.1 hrange.2
      rw [getElem?_set_ne (by omega)]
    · rfl
  · unfold markRecord
    rw [length_set]
    exact hroom

omit [Filters] in
theorem pack
    (hunmixed : table.memo.isSome → ∀ field ∈ table.fields, field.isSystem = true →
      isSidecarField field = false) {packed : DbfTable.Packed}
    (hpacked : table.preparePack = .ok packed) : Faithful table.pack.1 := by
  have hcoherent := h.coherent.pack hpacked
  refine ⟨hcoherent, ?_⟩
  have hsame : SameLayout table table.pack.1 := by
    unfold DbfTable.pack
    rw [hpacked]
    exact ⟨rfl, rfl, rfl, rfl, DbfTable.preparePack_isSome hpacked⟩
  intro j record hrecord
  have hbytes : table.pack.1.bytes = packed.bytes := by
    unfold DbfTable.pack
    rw [hpacked]
  have hroom := hcoherent.slot_room (List.getElem?_eq_some_iff.mp hrecord).1
  obtain ⟨-, -, hheader, hlength⟩ := hsame.sizes
  have hoffset : slotOffset table.pack.1.header j = slotOffset table.header j := by
    unfold slotOffset
    rw [hheader, hlength]
  rw [hoffset, hlength] at hroom
  have hrecord : packed.records[j]? = some record := by
    unfold DbfTable.pack at hrecord
    rwa [hpacked] at hrecord
  obtain ⟨i, old, hold, -, hvalues, hslices⟩ := DbfTable.preparePack_slots h.coherent hpacked hrecord
  intro entry hmem hplain
  unfold entries at hmem
  rw [hsame.fields] at hmem
  obtain ⟨value, hvalue, hdisk⟩ := h.mirrors i old hold entry hmem hplain
  refine ⟨value, by rw [hvalues]; exact hvalue, ?_⟩
  rw [onDisk_of_fields h.coherent hsame
    (h.coherent.slot_room (List.getElem?_eq_some_iff.mp hold).1) hroom hmem]
  · exact hdisk
  · intro field hin hrole
    rw [hbytes]
    apply hslices field hin
    intro hmemo
    rcases hrole with rfl | hsystem
    · exact (isPlain_iff.mp hplain).2
    · exact hunmixed hmemo field hin hsystem

end

omit [Filters] in
theorem fitsUpdate {call : Call} (hfits : call.Fits table) {record : DbfRecord} {number : Nat}
    (h : Rewrites (number + 1) call) (hrecord : table.records[number]? = some record)
    (hasks : call.Asks record values changedFields named) :
    table.FitsUpdate (number + 1) values := by
  rcases h with ⟨given, deferred, rfl⟩ | ⟨given, deferred, rfl⟩
  · rw [hasks.1]
    exact hfits
  · exact hfits record hrecord _ _ hasks.1

theorem step (h : Faithful table) (hencoding : table.encodingOverride = none)
    (hunmixed : table.memo.isSome → ∀ field ∈ table.fields, field.isSystem = true →
      isSidecarField field = false) {call : Call} (hfits : call.Fits table)
    (hrun : call.run table = (after, .ok ())) : Faithful after := by
  have hsame := Succeeds.sameLayout ⟨call, hrun⟩
  cases call.did hrun with
  | insert hrow => exact h.insert hencoding hfits hrow
  | rewrite hrewrites hrun =>
    obtain ⟨index, record, _, _, _, _, plan, rfl, hrecord, hasks, hplan, happly⟩ :=
      hrewrites.plan hrun
    exact h.update hencoding (fitsUpdate hfits hrewrites hrecord hasks) hrecord hplan happly hsame
  | mark index deleted => exact h.mark index deleted
  | pack hpacked => exact h.pack hunmixed hpacked

end Faithful

/-- A call that returned `Ok` and stored only values that its fields give back. -/
def StoresFitting (before after : DbfTable) : Prop :=
  ∃ call : Call, call.Fits before ∧ call.run before = (after, .ok ())

theorem memory_and_disk_agree {bytes : Bytes} {table after : DbfTable}
    (h : fromBytes bytes = .ok table) (hrun : Relation.ReflTransGen StoresFitting table after) :
    ∃ reparsed, fromBytes after.bytes = .ok reparsed ∧
      reparsed.records.length = after.records.length ∧
      ∀ (i : Nat) (record stored : DbfRecord), after.records[i]? = some record →
        reparsed.records[i]? = some stored → record.deleted = false →
        ∀ field ∈ after.fields, field.isSystem = false → isSidecarField field = false →
          ∃ value disk, record.values.get? field.name = some value ∧
            stored.values.get? field.name = some disk ∧ disk.eqv value = true := by
  obtain ⟨hfaithful, hencoding, -⟩ : Faithful after ∧ after.encodingOverride = none ∧
      after.memo.isSome = false := by
    induction hrun with
    | refl =>
      refine ⟨faithful_fromBytes h, (fromBytes_origin h).2, ?_⟩
      unfold fromBytes fromBytesWithEncoding at h
      obtain ⟨layout, -, h⟩ := bind_eq_ok.mp h
      obtain ⟨records, -, h⟩ := bind_eq_ok.mp h
      cases h
      rfl
    | tail _ hlast ih =>
      obtain ⟨hfaithful, hencoding, hmemo⟩ := ih
      obtain ⟨call, hfits, hcall⟩ := hlast
      have hsame := Succeeds.sameLayout ⟨call, hcall⟩
      refine ⟨hfaithful.step hencoding (fun hsome => ?_) hfits hcall,
        hsame.encodingOverride.trans hencoding,
        hsame.memo.trans hmemo⟩
      rw [hmemo] at hsome
      cases hsome
  obtain ⟨reparsed, hreparsed, -, -, hrecords⟩ := hfaithful.coherent.reparse
  rw [hencoding] at hreparsed
  refine ⟨reparsed, hreparsed, by rw [hrecords, storedRecords, length_mapIdx], ?_⟩
  intro i record stored hrecord hstored hactive field hmem hsystem hsidecar
  obtain ⟨entry, hentry, rfl⟩ := exists_entry hmem
  obtain ⟨value, hvalue, heqv⟩ := hfaithful.mirrors i record hrecord entry hentry
    (isPlain_iff.mpr ⟨hsystem, hsidecar⟩)
  rw [hrecords, storedRecords, getElem?_mapIdx, hrecord] at hstored
  cases hstored
  exact ⟨value, _, hvalue, decodeValues_get hfaithful.coherent.layout.parsed.2 _ hentry hsystem,
    heqv⟩

end Steps

attribute [local instance] Runtime.bare Filters.bare

/-- A character field has no null: an insert that leaves it out keeps null in memory and
writes blanks, which read as an empty string. -/
theorem insert_null_rereads_empty :
    let table := singleFieldTable 0x03 0x43 2 0 [] []
    let after := singleFieldTable 0x03 0x43 2 0 [[0x20, 0x20, 0x20]] [⟨1, false, [("A", .null)]⟩]
    fromBytes (singleFieldImage 0x03 0x43 2 0 []) = .ok table ∧
      (Call.insert [] []).run table = (after, .ok ()) ∧
      fromBytes after.bytes = .ok (singleFieldTable 0x03 0x43 2 0 [[0x20, 0x20, 0x20]]
        [⟨1, false, [("A", .string "")]⟩]) ∧
      (Value.string "").eqv .null = false := by
  decide +kernel

theorem memory_and_disk_agree_insert :
    let table := singleFieldTable 0x03 0x43 2 0 [] []
    let after := singleFieldTable 0x03 0x43 2 0 [[0x20, 0x61, 0x62]]
      [⟨1, false, [("A", .string "ab")]⟩]
    fromBytes (singleFieldImage 0x03 0x43 2 0 []) = .ok table ∧
      (Call.insert [("A", .string "ab")] []).Fits table ∧
      (Call.insert [("A", .string "ab")] []).run table = (after, .ok ()) ∧
      ∃ reparsed, fromBytes after.bytes = .ok reparsed ∧ reparsed.records.length = 1 := by
  have hfits : (Call.insert [("A", .string "ab")] []).Fits
      (singleFieldTable 0x03 0x43 2 0 [] []) := by
    intro field hmem _ _
    rw [mem_singleton.mp hmem]
    refine .inr ⟨"ab", by decide, ?_⟩
    intro last hlast
    cases hlast
    decide
  obtain ⟨reparsed, hreparsed, hlength, -⟩ :=
    memory_and_disk_agree emptyField_parses (.single ⟨_, hfits, emptyField_insert⟩)
  exact ⟨emptyField_parses, hfits, emptyField_insert, reparsed, hreparsed, hlength⟩

end TxBase.Dbf
