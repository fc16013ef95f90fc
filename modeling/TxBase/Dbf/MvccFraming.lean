import TxBase.Dbf.RowHistory

/-! The records of the MVCC history are read back as they were written.  Row values are
JSON texts: a row reads back as `serde_json` reads the text that it wrote. -/
namespace TxBase.Dbf
open Lib Json List

section Framing
variable {right bytes : Bytes} {start value : Nat}

theorem readU64_at (left : Bytes) (h : bytes = left ++ (toLeBytes 8 value ++ right))
    (hstart : left.length = start)
    (hvalue : value < u64Size) : readU64 bytes start = .ok value := by
  subst h hstart
  have hlength : ¬(left ++ (toLeBytes 8 value ++ right)).length < left.length + 8 := by
    simp only [length_append, toLeBytes_length]
    omega
  have hread : fromLeBytes (slice (left ++ (toLeBytes 8 value ++ right)) left.length
      (left.length + 8)) = value :=
    fromLeBytes_slice 8 left ⟨right, append_assoc _ _ _⟩ rfl rfl hvalue
  simp only [readU64, reject, if_neg hlength, hread]
  rfl

theorem decodeDeleted_flag (deleted : Bool) :
    decodeDeleted (some (if deleted then 1 else 0)) = .ok deleted := by
  cases deleted <;> rfl

variable {change : RowChange} {encoded : Bytes} {payload : Bytes} {result : List RowChange × Nat}
  {record : MvccRecord} {version : UInt8} {txn : Nat}

theorem mvccHeader_length (version kind : UInt8) (txn : Nat) :
    (mvccHeader version kind txn).length = 14 := by
  simp [mvccHeader, mvccMagic]

variable {snapshot : Snapshot} {header : Bytes}

theorem readU64_lt (h : readU64 bytes start = .ok value) : value < u64Size := by
  simp only [readU64, bind_eq_ok, reject_eq_ok, Except.ok.injEq, Nat.not_lt] at h
  obtain ⟨-, hlength, rfl⟩ := h
  have hlt := fromLeBytes_lt (slice bytes start (start + 8))
  rwa [slice_length hlength, Nat.add_sub_cancel_left] at hlt

variable [Serde]

/-- The values that are read where `written` was written. -/
def Serde.Reads (written read : Map) : Prop :=
  ∃ body, Serde.valuesToVec written = .ok body ∧ Serde.valuesFromSlice body = .ok read

/-- What is read where a change was written. -/
def RowChange.Reads (written read : RowChange) : Prop :=
  read.id = written.id ∧ read.deleted = written.deleted ∧ Serde.Reads written.values read.values

theorem encodeRowChange_eq_ok :
    encodeRowChange change = .ok encoded ↔ change.epoch ≠ 0 ∧ change.recordNumber ≠ 0 ∧
      ∃ body, Serde.valuesToVec change.values = .ok body ∧
        encoded = toLeBytes 8 change.epoch ++ (toLeBytes 8 change.recordNumber ++
          ((if change.deleted then 1 else 0) :: (toLeBytes 8 body.length ++ body))) := by
  simp only [encodeRowChange, bind_eq_ok, reject_eq_ok, exists_const, not_or, and_assoc]
  cases Serde.valuesToVec change.values with
  | error error => simp [invalid]
  | ok body => simp only [Except.ok.injEq, exists_eq_left', eq_comm]

theorem decodeRowChange_at {result : RowChange × Nat} (left : Bytes)
    (h : payload = left ++ (encoded ++ right))
    (hencoded : encodeRowChange change = .ok encoded) (hepoch : change.epoch < u64Size)
    (hnumber : change.recordNumber < u64Size) (hlength : payload.length < u64Size) :
    decodeRowChange payload left.length = .ok result ↔
      change.Reads result.1 ∧ result.2 = left.length + encoded.length := by
  obtain ⟨hepochpos, hnumberpos, body, hbody, rfl⟩ := encodeRowChange_eq_ok.mp hencoded
  have hsize : payload.length = left.length + (25 + body.length) + right.length := by
    simp only [h, length_append, length_cons, toLeBytes_length]
    omega
  have hreadEpoch : readU64 payload left.length = .ok change.epoch :=
    readU64_at left (by rw [h, append_assoc]) rfl hepoch
  have hreadNumber : readU64 payload (left.length + 8) = .ok change.recordNumber :=
    readU64_at (left ++ toLeBytes 8 change.epoch) (by simp [h]; rfl) (by simp) hnumber
  have hreadLength : readU64 payload (left.length + 17) = .ok body.length :=
    readU64_at (left ++ (toLeBytes 8 change.epoch ++ (toLeBytes 8 change.recordNumber ++
      [if change.deleted then 1 else 0]))) (by simp [h]; rfl) (by simp) (by omega)
  have hflag : payload[left.length + 16]? = some (if change.deleted then 1 else 0) := by
    rw [h, getElem?_append_right (by omega), append_assoc,
      getElem?_append_right (by simp), append_assoc,
      getElem?_append_right (by simp)]
    simp
  have hslice : slice payload (left.length + rowChangeHeaderSize)
      (left.length + rowChangeHeaderSize + body.length) = body := by
    have hmiddle := slice_append_middle (left ++ (toLeBytes 8 change.epoch ++
      (toLeBytes 8 change.recordNumber ++ ([if change.deleted then 1 else 0] ++
        toLeBytes 8 body.length)))) body right
    simpa [h, rowChangeHeaderSize] using hmiddle
  have hend : ¬payload.length < left.length + rowChangeHeaderSize + body.length := by
    simp only [rowChangeHeaderSize]
    omega
  have hfits : ¬u64Size ≤ left.length + rowChangeHeaderSize + body.length := by omega
  have hpositive : ¬(change.epoch = 0 ∨ change.recordNumber = 0) := by
    simp [hepochpos, hnumberpos]
  have hstop : (toLeBytes 8 change.epoch ++ (toLeBytes 8 change.recordNumber ++
      ((if change.deleted then 1 else 0) :: (toLeBytes 8 body.length ++ body)))).length =
        rowChangeHeaderSize + body.length := by
    simp only [length_append, length_cons, toLeBytes_length, rowChangeHeaderSize]
    omega
  simp only [decodeRowChange, bind_eq_ok, hreadEpoch, hreadNumber, hreadLength, hflag,
    decodeDeleted_flag, Except.ok.injEq, exists_eq_left', reject_eq_ok, hpositive, hend, hfits,
    hslice, hstop, not_false_eq_true, exists_const, true_and]
  obtain ⟨read, stop⟩ := result
  obtain ⟨epoch, recordNumber, deleted, values⟩ := read
  simp only [RowChange.Reads, RowChange.id, Serde.Reads, hbody, Except.ok.injEq, exists_eq_left',
    RowId.mk.injEq]
  cases Serde.valuesFromSlice body with
  | error error => simp [invalid]
  | ok others =>
    simp only [Except.ok.injEq, Prod.mk.injEq, RowChange.mk.injEq, Nat.add_assoc]
    constructor
    · rintro ⟨⟨rfl, rfl, rfl, rfl⟩, rfl⟩
      exact ⟨⟨⟨rfl, rfl⟩, rfl, rfl⟩, rfl⟩
    · rintro ⟨⟨⟨rfl, rfl⟩, rfl, rfl⟩, rfl⟩
      exact ⟨⟨rfl, rfl, rfl, rfl⟩, rfl⟩

def RowChange.Fits (change : RowChange) : Prop :=
  change.epoch < u64Size ∧ change.recordNumber < u64Size

theorem appendRowChanges_length {changes : List RowChange}
    (h : appendRowChanges changes = .ok encoded) :
    changes.length * rowChangeHeaderSize ≤ encoded.length := by
  induction changes generalizing encoded with
  | nil => simp
  | cons change rest ih =>
    simp only [appendRowChanges, bind_eq_ok, Except.ok.injEq] at h
    obtain ⟨first, hfirst, others, hothers, rfl⟩ := h
    obtain ⟨-, -, body, -, rfl⟩ := encodeRowChange_eq_ok.mp hfirst
    have hrest := ih hothers
    simp only [length_append, length_cons, toLeBytes_length, rowChangeHeaderSize] at hrest ⊢
    omega

theorem decodeRowChangesFrom_at {changes : List RowChange} (left : Bytes)
    (h : payload = left ++ (encoded ++ right))
    (hencoded : appendRowChanges changes = .ok encoded) (hfits : ∀ change ∈ changes, change.Fits)
    (hlength : payload.length < u64Size) :
    decodeRowChangesFrom payload left.length changes.length = .ok result ↔
      List.Forall₂ RowChange.Reads changes result.1 ∧
        result.2 = left.length + encoded.length := by
  induction changes generalizing left encoded result with
  | nil =>
    cases hencoded
    simp only [length_nil, decodeRowChangesFrom, Except.ok.injEq, forall₂_nil_left_iff,
      Nat.add_zero]
    exact ⟨by rintro rfl; exact ⟨rfl, rfl⟩, fun heq => Prod.ext heq.1.symm heq.2.symm⟩
  | cons change rest ih =>
    simp only [appendRowChanges, bind_eq_ok, Except.ok.injEq] at hencoded
    obtain ⟨first, hfirst, others, hothers, rfl⟩ := hencoded
    have hchange := hfits change mem_cons_self
    have hone : ∀ {read : RowChange × Nat}, decodeRowChange payload left.length = .ok read ↔
        change.Reads read.1 ∧ read.2 = left.length + first.length :=
      decodeRowChange_at left (by rw [h, append_assoc]) hfirst hchange.1 hchange.2 hlength
    have hrest : ∀ {reads : List RowChange × Nat},
        decodeRowChangesFrom payload (left.length + first.length) rest.length = .ok reads ↔
          List.Forall₂ RowChange.Reads rest reads.1 ∧
            reads.2 = left.length + first.length + others.length := by
      intro reads
      rw [← length_append]
      exact ih (left ++ first) (by rw [h]; simp) hothers (forall_mem_cons.mp hfits).2
    obtain ⟨reads, stop⟩ := result
    simp only [length_cons, decodeRowChangesFrom, bind_eq_ok, Except.ok.injEq, Prod.mk.injEq,
      length_append]
    constructor
    · rintro ⟨⟨read, next⟩, hread, ⟨more, last⟩, hmore, rfl, rfl⟩
      obtain ⟨hread, rfl⟩ := hone.mp hread
      obtain ⟨hmore, rfl⟩ := hrest.mp hmore
      exact ⟨.cons hread hmore, Nat.add_assoc _ _ _⟩
    · rintro ⟨hreads, rfl⟩
      cases hreads with
      | cons hread hmore =>
        exact ⟨(_, _), hone.mpr ⟨hread, rfl⟩, (_, _), hrest.mpr ⟨hmore, rfl⟩, rfl,
          Nat.add_assoc _ _ _⟩

theorem decodeRowChanges_at {changes : List RowChange} (left : Bytes)
    (h : payload = left ++ (encoded ++ right))
    (hencoded : appendRowChanges changes = .ok encoded) (hfits : ∀ change ∈ changes, change.Fits)
    (hlength : payload.length < u64Size) :
    decodeRowChanges payload left.length changes.length = .ok result ↔
      List.Forall₂ RowChange.Reads changes result.1 ∧
        result.2 = left.length + encoded.length := by
  have hcount : ¬(payload.length - left.length) / rowChangeHeaderSize < changes.length := by
    have hsize := appendRowChanges_length hencoded
    rw [Nat.not_lt, Nat.le_div_iff_mul_le (by decide)]
    simp only [h, length_append]
    omega
  simp only [decodeRowChanges, bind_eq_ok, reject_eq_ok, hcount, not_false_eq_true, exists_const,
    true_and]
  exact decodeRowChangesFrom_at left h hencoded hfits hlength

theorem decodeRecord_header {kind : UInt8} {rest : Bytes}
    (hversion : version = legacyMvccVersion ∨ version = mvccVersion ∨ version = rowHistoryVersion)
    (hsize : txn < u64Size) :
    decodeRecord (mvccHeader version kind txn ++ rest) = .ok record ↔
      txn ≠ 0 ∧
        decodeKind (mvccHeader version kind txn ++ rest) version kind txn =
          .ok record := by
  have hmagic : mvccMagic.isPrefixOf (mvccHeader version kind txn ++ rest) = true := by
    rw [List.isPrefixOf_iff_prefix, mvccHeader, append_assoc]
    exact prefix_append _ _
  have hread : readU64 (mvccHeader version kind txn ++ rest) 6 = .ok txn :=
    readU64_at (mvccMagic ++ [version, kind]) (by simp [mvccHeader]; rfl) rfl hsize
  have hfour : (mvccHeader version kind txn ++ rest)[4]? = some version := rfl
  have hfive : (mvccHeader version kind txn ++ rest)[5]? = some kind := rfl
  have hknown : ¬(version ≠ legacyMvccVersion ∧ version ≠ mvccVersion ∧
      version ≠ rowHistoryVersion) := by
    rcases hversion with h | h | h <;> simp [h]
  simp only [decodeRecord, bind_eq_ok, reject_eq_ok, hmagic, hread, hfour, hfive, required, hknown,
    Except.ok.injEq, exists_eq_left', not_false_eq_true, exists_const, true_and, Bool.not_true,
    Bool.false_eq_true, ne_eq]

theorem decodeRecord_commit (hsize : txn < u64Size) :
    decodeRecord (encodeCommit txn) = .ok record ↔ txn ≠ 0 ∧ record = .commit txn := by
  have hlength : (encodeCommit txn).length = commitRecordSize :=
    mvccHeader_length _ _ _
  have hheader : decodeRecord (encodeCommit txn ++ []) = .ok record ↔
      txn ≠ 0 ∧
        decodeKind (encodeCommit txn ++ []) mvccVersion commitKind txn =
          .ok record :=
    decodeRecord_header (.inr (.inl rfl)) hsize
  rw [append_nil] at hheader
  rw [hheader, decodeKind, if_pos rfl]
  simp only [bind_eq_ok, reject_eq_ok, hlength, ne_eq, not_true_eq_false, not_false_eq_true,
    exists_const, true_and, Except.ok.injEq]
  exact and_congr_right fun _ => eq_comm

namespace Snapshot

def memoTag (snapshot : Snapshot) : UInt8 :=
  (snapshot.memo.map fun memo => memo.format.tag).getD noMemo

def memoBytes (snapshot : Snapshot) : Bytes := (snapshot.memo.map MemoSnapshot.bytes).getD []

def schemaBytes (snapshot : Snapshot) : Bytes := snapshot.schema.getD []

def changes (snapshot : Snapshot) : List RowChange := snapshot.rowChanges.getD []

/-- The images that follow the row changes of a record. -/
def images (snapshot : Snapshot) : Bytes :=
  snapshot.dbf ++ (snapshot.memoBytes ++ snapshot.schemaBytes)

/-- What a record says before its row changes, after its first fourteen bytes. -/
def lengths (snapshot : Snapshot) : Bytes :=
  toLeBytes 8 snapshot.dbf.length ++ (snapshot.memoTag ::
    (toLeBytes 8 snapshot.memoBytes.length ++ (toLeBytes 8 snapshot.schemaBytes.length ++
      (toLeBytes 8 (max snapshot.rowEpoch 1) ++ toLeBytes 4 snapshot.changes.length))))

omit [Serde] in
theorem lengths_length (snapshot : Snapshot) : snapshot.lengths.length = 37 := by
  simp [lengths]

end Snapshot

theorem encodePrepare_eq_ok :
    encodePrepare txn snapshot = .ok payload ↔ txn ≠ 0 ∧
      snapshot.changes.length < u32Size ∧
      ∃ encoded, appendRowChanges snapshot.changes = .ok encoded ∧
        mvccHeader mvccVersion prepareKind txn ++
          (snapshot.lengths ++ (encoded ++ snapshot.images)) = payload := by
  simp only [encodePrepare, bind_eq_ok, reject_eq_ok, exists_const, Except.ok.injEq, Nat.not_le,
    Snapshot.lengths, Snapshot.images, append_assoc, cons_append]
  rfl

/-- A snapshot as its record holds it. -/
def Snapshot.Reads (written read : Snapshot) : Prop :=
  ∃ changes, List.Forall₂ RowChange.Reads written.changes changes ∧
    read = { written with rowEpoch := max written.rowEpoch 1, rowChanges := some changes }

omit [Serde] in
theorem decodeMemo_tag (snapshot : Snapshot) :
    decodeMemo snapshot.memoTag snapshot.memoBytes = .ok snapshot.memo := by
  unfold Snapshot.memoTag Snapshot.memoBytes
  cases snapshot.memo with
  | none => rfl
  | some memo =>
    obtain ⟨format, bytes⟩ := memo
    cases format <;> rfl

omit [Serde] in
theorem schema_of_bytes (h : snapshot.schema ≠ some []) :
    (if snapshot.schemaBytes.length = 0 then none else some snapshot.schemaBytes) =
      snapshot.schema := by
  unfold Snapshot.schemaBytes
  cases hschema : snapshot.schema with
  | none => rfl
  | some bytes =>
    cases bytes with
    | nil => exact absurd hschema h
    | cons byte rest => rfl

/-- The lengths, the epoch and the count of a record are read where they stand. -/
structure Framed (snapshot : Snapshot) (payload encoded : Bytes) : Prop where
  dbf : readU64 payload 14 = .ok snapshot.dbf.length
  tag : payload.getD 22 0 = snapshot.memoTag
  memo : readU64 payload 23 = .ok snapshot.memoBytes.length
  schema : readU64 payload 31 = .ok snapshot.schemaBytes.length
  rowEpoch : readU64 payload 39 = .ok (max snapshot.rowEpoch 1)
  rowCount : fromLeBytes (slice payload 47 51) = snapshot.changes.length
  size : payload.length = 51 + encoded.length + snapshot.dbf.length + snapshot.memoBytes.length +
    snapshot.schemaBytes.length

omit [Serde] in
theorem framed (h : payload = header ++ (snapshot.lengths ++ (encoded ++ snapshot.images)))
    (hheader : header.length = 14) (hlength : payload.length < u64Size)
    (hepoch : snapshot.rowEpoch < u64Size)
    (hcount : snapshot.changes.length < u32Size) :
    Framed snapshot payload encoded := by
  have hsize : payload.length = 51 + encoded.length + snapshot.dbf.length +
      snapshot.memoBytes.length + snapshot.schemaBytes.length := by
    simp only [h, Snapshot.images, length_append, snapshot.lengths_length, hheader]
    omega
  have hone : 1 < u64Size := by decide
  refine ⟨?_, ?_, ?_, ?_, ?_, ?_, hsize⟩
  · exact readU64_at header (by simp [h, Snapshot.lengths]; rfl) hheader (by omega)
  · have hat : payload[22]? = some snapshot.memoTag := by
      rw [h, getElem?_append_right (by omega), hheader, Snapshot.lengths,
        append_assoc, getElem?_append_right (by simp)]
      simp
    rw [getD_eq_getElem?_getD, hat]
    rfl
  · exact readU64_at (header ++ (toLeBytes 8 snapshot.dbf.length ++ [snapshot.memoTag]))
      (by simp [h, Snapshot.lengths]; rfl) (by simp [hheader]) (by omega)
  · exact readU64_at (header ++ (toLeBytes 8 snapshot.dbf.length ++ (snapshot.memoTag ::
      toLeBytes 8 snapshot.memoBytes.length)))
      (by simp [h, Snapshot.lengths]; rfl) (by simp [hheader]) (by omega)
  · exact readU64_at (header ++ (toLeBytes 8 snapshot.dbf.length ++ (snapshot.memoTag ::
      (toLeBytes 8 snapshot.memoBytes.length ++ toLeBytes 8 snapshot.schemaBytes.length))))
      (by simp [h, Snapshot.lengths]; rfl) (by simp [hheader]) (by omega)
  · have hslice : slice payload 47 51 = toLeBytes 4 snapshot.changes.length :=
      slice_of_eq (header ++ (toLeBytes 8 snapshot.dbf.length ++ (snapshot.memoTag ::
        (toLeBytes 8 snapshot.memoBytes.length ++ (toLeBytes 8 snapshot.schemaBytes.length ++
          toLeBytes 8 (max snapshot.rowEpoch 1))))))
        (by simp [h, Snapshot.lengths]; rfl) (by simp [hheader]) (by simp)
    rw [hslice]
    exact fromLeBytes_toLeBytes hcount

theorem decodeRows_framed
    (h : payload = header ++ (snapshot.lengths ++ (encoded ++ snapshot.images)))
    (hheader : header.length = 14) (hlength : payload.length < u64Size)
    (hframed : Framed snapshot payload encoded)
    (hencoded : appendRowChanges snapshot.changes = .ok encoded)
    (hfits : ∀ change ∈ snapshot.changes, change.Fits)
    {result : Nat × Option (List RowChange) × Nat} :
    decodeRows payload mvccVersion = .ok result ↔
      ∃ changes, List.Forall₂ RowChange.Reads snapshot.changes changes ∧
        result = (max snapshot.rowEpoch 1, some changes, 51 + encoded.length) := by
  have hstart : (header ++ snapshot.lengths).length = 51 := by
    rw [length_append, hheader, snapshot.lengths_length]
  have hrows : ∀ rows : List RowChange × Nat,
      decodeRowChanges payload 51 snapshot.changes.length = .ok rows ↔
        List.Forall₂ RowChange.Reads snapshot.changes rows.1 ∧ rows.2 = 51 + encoded.length := by
    intro rows
    rw [← hstart]
    exact decodeRowChanges_at (header ++ snapshot.lengths) (by simp [h]; rfl) hencoded hfits hlength
  have hpositive : ¬max snapshot.rowEpoch 1 = 0 := by omega
  rw [decodeRows, if_neg (by decide)]
  simp only [legacyPrepareHeaderSize, prepareHeaderSize, Nat.reduceAdd, bind_eq_ok, reject_eq_ok,
    hframed.rowEpoch, hframed.rowCount, hrows, hpositive, Except.ok.injEq, exists_eq_left',
    not_false_eq_true, exists_const, true_and, Prod.exists]
  constructor
  · rintro ⟨changes, cursor, ⟨hreads, rfl⟩, rfl⟩
    exact ⟨changes, hreads, rfl⟩
  · rintro ⟨changes, hreads, rfl⟩
    exact ⟨changes, _, ⟨hreads, rfl⟩, rfl⟩

theorem decodeRecord_prepare (h : encodePrepare txn snapshot = .ok payload)
    (hid : txn < u64Size) (hlength : payload.length < u64Size) (hepoch : snapshot.rowEpoch < u64Size)
    (hfits : ∀ change ∈ snapshot.changes, change.Fits) (hschema : snapshot.schema ≠ some []) :
    decodeRecord payload = .ok record ↔
      ∃ read, snapshot.Reads read ∧ record = .prepare txn read := by
  obtain ⟨hpositive, hcount, encoded, hencoded, hpayload⟩ := encodePrepare_eq_ok.mp h
  have hheader := mvccHeader_length mvccVersion prepareKind txn
  have hframed := framed hpayload.symm hheader hlength hepoch hcount
  have hrows : ∀ rows, decodeRows payload mvccVersion = .ok rows ↔ _ := fun rows =>
    decodeRows_framed hpayload.symm hheader hlength hframed hencoded hfits
  rw [← hpayload, decodeRecord_header (.inr (.inl rfl)) hid, and_iff_right hpositive, hpayload,
    decodeKind, if_neg (by decide), if_pos rfl]
  have hsize := hframed.size
  have hbegin : (mvccHeader mvccVersion prepareKind txn ++
      (snapshot.lengths ++ encoded)).length = 51 + encoded.length := by
    simp only [length_append, hheader, snapshot.lengths_length]
    omega
  have hdbf : slice payload (51 + encoded.length) (51 + encoded.length + snapshot.dbf.length) =
      snapshot.dbf :=
    slice_of_eq (mvccHeader mvccVersion prepareKind txn ++ (snapshot.lengths ++ encoded))
      (by simp [← hpayload, Snapshot.images]; rfl) hbegin rfl
  have hmemo : slice payload (51 + encoded.length + snapshot.dbf.length)
      (51 + encoded.length + snapshot.dbf.length + snapshot.memoBytes.length) =
        snapshot.memoBytes :=
    slice_of_eq (mvccHeader mvccVersion prepareKind txn ++ (snapshot.lengths ++ encoded) ++
      snapshot.dbf) (by simp [← hpayload, Snapshot.images]; rfl)
      (by rw [length_append, hbegin]) rfl
  have hrest : payload.drop (51 + encoded.length + snapshot.dbf.length +
      snapshot.memoBytes.length) = snapshot.schemaBytes := by
    have hwhole : payload = mvccHeader mvccVersion prepareKind txn ++
        (snapshot.lengths ++ encoded) ++ snapshot.dbf ++ snapshot.memoBytes ++
          snapshot.schemaBytes := by
      simp [← hpayload, Snapshot.images]
    rw [hwhole]
    exact drop_left' (by rw [length_append, length_append, hbegin])
  have htruncated : ¬payload.length < 51 := by omega
  have hoverflow : ¬u64Size ≤ 51 + encoded.length + snapshot.dbf.length +
      snapshot.memoBytes.length + snapshot.schemaBytes.length := by omega
  have hexact : ¬51 + encoded.length + snapshot.dbf.length + snapshot.memoBytes.length +
      snapshot.schemaBytes.length ≠ payload.length := by omega
  have hwritten : ∀ changes, Snapshot.mk snapshot.dbf snapshot.memo
      (if snapshot.schemaBytes.length = 0 then none else some snapshot.schemaBytes)
      (max snapshot.rowEpoch 1) (some changes) =
        { snapshot with rowEpoch := max snapshot.rowEpoch 1, rowChanges := some changes } := by
    intro changes
    rw [schema_of_bytes hschema]
  simp only [decodePrepare, if_neg (show ¬mvccVersion = legacyMvccVersion by decide),
    prepareHeaderSize, bind_eq_ok, reject_eq_ok, htruncated, hrows, hframed.dbf, hframed.memo,
    hframed.schema, hframed.tag, Except.ok.injEq, exists_eq_left', not_false_eq_true, exists_const,
    true_and, Prod.exists, Prod.mk.injEq]
  constructor
  · rintro ⟨rowEpoch, rowChanges, start, ⟨changes, hreads, rfl, rfl, rfl⟩, -, -, memo, hread, rfl⟩
    rw [hmemo, decodeMemo_tag] at hread
    cases hread
    rw [hdbf, hrest, hwritten]
    exact ⟨_, ⟨changes, hreads, rfl⟩, rfl⟩
  · rintro ⟨_, ⟨changes, hreads, rfl⟩, rfl⟩
    refine ⟨_, _, _, ⟨changes, hreads, rfl, rfl, rfl⟩, hoverflow, hexact, snapshot.memo, ?_, ?_⟩
    · rw [hmemo, decodeMemo_tag]
    · rw [hdbf, hrest, hwritten]

theorem encodeRowHistory_eq_ok {changes : List RowChange} :
    encodeRowHistory txn changes = .ok payload ↔ txn ≠ 0 ∧ changes ≠ [] ∧
      changes.length < u32Size ∧ ∃ encoded, appendRowChanges changes = .ok encoded ∧
        mvccHeader rowHistoryVersion rowHistoryKind txn ++
          (toLeBytes 4 changes.length ++ encoded) = payload := by
  simp only [encodeRowHistory, bind_eq_ok, reject_eq_ok, exists_const, Except.ok.injEq, Nat.not_le,
    List.isEmpty_iff, ne_eq]

theorem decodeRecord_rowHistory {changes : List RowChange}
    (h : encodeRowHistory txn changes = .ok payload) (hid : txn < u64Size)
    (hlength : payload.length < u64Size) (hfits : ∀ change ∈ changes, change.Fits) :
    decodeRecord payload = .ok record ↔
      ∃ reads, List.Forall₂ RowChange.Reads changes reads ∧
        record = .rowHistory txn reads := by
  obtain ⟨hpositive, hnonempty, hcount, encoded, hencoded, hpayload⟩ := encodeRowHistory_eq_ok.mp h
  have hheader := mvccHeader_length rowHistoryVersion rowHistoryKind txn
  have hstart : (mvccHeader rowHistoryVersion rowHistoryKind txn ++
      toLeBytes 4 changes.length).length = rowHistoryHeaderSize := by
    rw [length_append, hheader, toLeBytes_length]
    rfl
  have hsize : payload.length = rowHistoryHeaderSize + encoded.length := by
    rw [← hpayload, ← append_assoc, length_append, hstart]
  have hcountRead : fromLeBytes (slice payload 14 rowHistoryHeaderSize) = changes.length := by
    have hslice : slice payload 14 rowHistoryHeaderSize = toLeBytes 4 changes.length :=
      slice_of_eq (mvccHeader rowHistoryVersion rowHistoryKind txn) hpayload.symm hheader
        (by rw [toLeBytes_length]; rfl)
    rw [hslice]
    exact fromLeBytes_toLeBytes hcount
  have hrows : ∀ rows : List RowChange × Nat,
      decodeRowChanges payload rowHistoryHeaderSize changes.length = .ok rows ↔
        List.Forall₂ RowChange.Reads changes rows.1 ∧
          rows.2 = rowHistoryHeaderSize + encoded.length := by
    intro rows
    rw [← hstart]
    exact decodeRowChanges_at
      (mvccHeader rowHistoryVersion rowHistoryKind txn ++ toLeBytes 4 changes.length)
      (show payload = _ ++ (encoded ++ []) by simp [← hpayload]) hencoded hfits hlength
  have hkind : ¬(rowHistoryVersion ≠ rowHistoryVersion ∨ payload.length < rowHistoryHeaderSize) := by
    simp [hsize]
  have hpositiveCount : ¬changes.length = 0 := by simpa using hnonempty
  rw [← hpayload, decodeRecord_header (.inr (.inr rfl)) hid, and_iff_right hpositive, hpayload,
    decodeKind, if_neg (by decide), if_neg (by decide), if_pos rfl]
  simp only [decodeRowHistory, bind_eq_ok, reject_eq_ok, hkind, hcountRead, hpositiveCount, hrows,
    not_false_eq_true, exists_const, true_and, Except.ok.injEq, Prod.exists]
  constructor
  · rintro ⟨reads, stop, ⟨hreads, rfl⟩, -, rfl⟩
    exact ⟨reads, hreads, rfl⟩
  · rintro ⟨reads, hreads, rfl⟩
    exact ⟨reads, _, ⟨hreads, rfl⟩, by simp [hsize], rfl⟩

variable {cursor : Nat}

theorem decodeRowChange_words {result : RowChange × Nat}
    (h : decodeRowChange payload cursor = .ok result) :
    result.1.Fits ∧ result.1.epoch ≠ 0 ∧ result.1.recordNumber ≠ 0 := by
  simp only [decodeRowChange, bind_eq_ok, reject_eq_ok, not_or] at h
  obtain ⟨epoch, hepoch, recordNumber, hnumber, -, hpositive, deleted, -, length, -, -,
    -, -, -, h⟩ := h
  split at h
  · cases h
  · cases h
    exact ⟨⟨readU64_lt hepoch, readU64_lt hnumber⟩, hpositive⟩

variable {count : Nat}

theorem decodeRowChangesFrom_words (h : decodeRowChangesFrom payload cursor count = .ok result) :
    ∀ change ∈ result.1, change.Fits ∧ change.epoch ≠ 0 ∧ change.recordNumber ≠ 0 := by
  induction count generalizing cursor result with
  | zero =>
    cases h
    intro change hchange
    cases hchange
  | succ count ih =>
    simp only [decodeRowChangesFrom, bind_eq_ok, Except.ok.injEq] at h
    obtain ⟨first, hfirst, others, hothers, rfl⟩ := h
    exact forall_mem_cons.mpr ⟨decodeRowChange_words hfirst, ih hothers⟩

theorem decodeRowChanges_words (h : decodeRowChanges payload cursor count = .ok result) :
    ∀ change ∈ result.1, change.Fits ∧ change.epoch ≠ 0 ∧ change.recordNumber ≠ 0 := by
  obtain ⟨-, -, h⟩ := bind_eq_ok.mp h
  exact decodeRowChangesFrom_words h

theorem decodeRows_words {result : Nat × Option (List RowChange) × Nat}
    (h : decodeRows payload version = .ok result) :
    result.1 < u64Size ∧ ∀ change ∈ result.2.1.getD [],
      change.Fits ∧ change.epoch ≠ 0 ∧ change.recordNumber ≠ 0 := by
  unfold decodeRows at h
  split at h
  · cases h
    exact ⟨by decide, fun change hchange => by cases hchange⟩
  · simp only [bind_eq_ok, Except.ok.injEq] at h
    obtain ⟨rowEpoch, hepoch, -, -, rows, hrows, rfl⟩ := h
    exact ⟨readU64_lt hepoch, decodeRowChanges_words hrows⟩

namespace MvccRecord

def transactionId : MvccRecord → Nat
  | .prepare id _ => id
  | .commit id => id
  | .rowHistory id _ => id

def rowEpoch : MvccRecord → Nat
  | .prepare _ snapshot => snapshot.rowEpoch
  | _ => 0

def changes : MvccRecord → List RowChange
  | .prepare _ snapshot => snapshot.changes
  | .commit _ => []
  | .rowHistory _ changes => changes

end MvccRecord

theorem decodeRecord_words (h : decodeRecord payload = .ok record) :
    record.transactionId ≠ 0 ∧ record.transactionId < u64Size ∧ record.rowEpoch < u64Size ∧
      ∀ change ∈ record.changes,
        change.Fits ∧ change.epoch ≠ 0 ∧ change.recordNumber ≠ 0 := by
  have hzero : 0 < u64Size := by decide
  simp only [decodeRecord, bind_eq_ok, reject_eq_ok] at h
  obtain ⟨-, -, version, -, -, -, kind, -, id, hid, -, hpositive, h⟩ := h
  have hlt := readU64_lt hid
  unfold decodeKind at h
  split at h
  · simp only [bind_eq_ok, Except.ok.injEq] at h
    obtain ⟨-, -, rfl⟩ := h
    exact ⟨hpositive, hlt, hzero, fun change hchange => by cases hchange⟩
  · split at h
    · simp only [decodePrepare, bind_eq_ok, Except.ok.injEq] at h
      obtain ⟨-, -, rows, hrows, _, -, _, -, _, -, -, -, -, -, memo, -, rfl⟩ := h
      exact ⟨hpositive, hlt, decodeRows_words hrows⟩
    · split at h
      · simp only [decodeRowHistory, bind_eq_ok, Except.ok.injEq] at h
        obtain ⟨-, -, -, -, rows, hrows, -, -, rfl⟩ := h
        exact ⟨hpositive, hlt, hzero, decodeRowChanges_words hrows⟩
      · cases h

end Framing

end TxBase.Dbf
