import TxBase.Dbf.MvccFraming
import TxBase.Dbf.Layout

/-! What `decode_record` of `src/dbf/mvcc_codec.rs` accepts is what the encoders write, apart from the
version byte: it is read, but prepare and commit records are accepted under the version of row
histories as well, and are written again under their own. -/
namespace TxBase.Dbf
open Lib List

section Canonical
variable {record : MvccRecord} {payload : Bytes} {bytes : Bytes} {start value : Nat}

theorem readU64_bytes (h : readU64 bytes start = .ok value) :
    start + 8 ≤ bytes.length ∧ toLeBytes 8 value = slice bytes start (start + 8) := by
  simp only [readU64, bind_eq_ok, reject_eq_ok, Except.ok.injEq, Nat.not_lt] at h
  obtain ⟨-, hlength, rfl⟩ := h
  exact ⟨hlength, toLeBytes_slice rfl hlength⟩

theorem slice_byte {byte : UInt8} (h : bytes[start]? = some byte) :
    slice bytes start (start + 1) = [byte] := by
  obtain ⟨hlt, rfl⟩ := List.getElem?_eq_some_iff.mp h
  rw [slice, Nat.add_sub_cancel_left, List.drop_eq_getElem_cons hlt]
  rfl

theorem decodeDeleted_eq_ok {flag : Option UInt8} {deleted : Bool}
    (h : decodeDeleted flag = .ok deleted) :
    flag = some (if deleted then 1 else 0) := by
  unfold decodeDeleted at h
  split at h
  · cases h
  · split at h
    · cases h
      simp [*]
    · split at h
      · cases h
        simp [*]
      · cases h

variable {cursor count : Nat}

theorem tag_fromTag {memoTag : UInt8} {format : MemoFormat}
    (h : MemoFormat.fromTag memoTag = .ok format) :
    format.tag = memoTag := by
  unfold MemoFormat.fromTag at h
  split_ifs at h with h0 h1 h2 <;> cases h
  · exact h0.symm
  · exact h1.symm
  · exact h2.symm

theorem decodeMemo_eq_ok {snapshot : Snapshot} {memoTag : UInt8}
    (h : decodeMemo memoTag bytes = .ok snapshot.memo) :
    snapshot.memoTag = memoTag ∧ snapshot.memoBytes = bytes := by
  unfold decodeMemo at h
  unfold Snapshot.memoTag Snapshot.memoBytes
  split_ifs at h with hnone
  · simp only [bind_eq_ok, reject_eq_ok, Except.ok.injEq] at h
    obtain ⟨-, hempty, h⟩ := h
    rw [← h]
    exact ⟨hnone.symm, (by simpa using hempty : bytes = []).symm⟩
  · simp only [bind_eq_ok, Except.ok.injEq] at h
    obtain ⟨format, hformat, h⟩ := h
    rw [← h]
    exact ⟨tag_fromTag hformat, rfl⟩

theorem fromLeBytes_slice_lt (h : start + 4 ≤ bytes.length) :
    fromLeBytes (slice bytes start (start + 4)) < u32Size := by
  have hlt := fromLeBytes_lt (slice bytes start (start + 4))
  rwa [slice_length h, Nat.add_sub_cancel_left] at hlt

theorem slice_to_end (bytes : Bytes) (start : Nat) :
    slice bytes start bytes.length = bytes.drop start := by
  rw [slice, ← length_drop, take_length]

variable {txn : Nat} {version : UInt8}

theorem header_of_reads {kind : UInt8} (hmagic : mvccMagic.isPrefixOf payload = true)
    (hversion : payload[4]? = some version) (hkind : payload[5]? = some kind)
    (hid : readU64 payload 6 = .ok txn) :
    payload = mvccHeader version kind txn ++ payload.drop 14 := by
  obtain ⟨rest, hrest⟩ := isPrefixOf_iff_prefix.mp hmagic
  have hfour : slice payload 0 4 = mvccMagic := slice_of_eq [] hrest.symm rfl rfl
  have hall : mvccHeader version kind txn = slice payload 0 14 := by
    change mvccMagic ++ ([version] ++ ([kind] ++ toLeBytes 8 txn)) = _
    rw [(readU64_bytes hid).2, ← slice_byte hversion, ← slice_byte hkind, ← hfour,
      slice_append_slice,
      slice_append_slice, slice_append_slice] <;> omega
  rw [hall]
  exact (take_append_drop 14 payload).symm

theorem mvccHeader_inj {written kind : UInt8} {rest : Bytes} :
    mvccHeader written kind txn ++ rest = mvccHeader version kind txn ++ rest ↔
      written = version := by
  simp [mvccHeader]

variable [Serde]

/-- A record under the encoder of its kind. -/
def MvccRecord.encode : MvccRecord → Checked Bytes
  | .prepare transactionId snapshot => encodePrepare transactionId snapshot
  | .commit transactionId => .ok (encodeCommit transactionId)
  | .rowHistory transactionId changes => encodeRowHistory transactionId changes

/-- What the encoder of a record asks beyond its identities. -/
def MvccRecord.Shaped : MvccRecord → Prop
  | .prepare _ snapshot => snapshot.rowEpoch ≠ 0 ∧ snapshot.rowEpoch < u64Size ∧
      snapshot.rowChanges.isSome ∧ snapshot.schema ≠ some []
  | .commit _ => True
  | .rowHistory _ changes => changes ≠ []

/-- A record with positive identities that fit their words, whose row values `serde_json` reads
back. -/
structure MvccRecord.WellFormed (record : MvccRecord) : Prop where
  positive : record.transactionId ≠ 0
  fits : record.transactionId < u64Size
  shaped : record.Shaped
  rows : ∀ change ∈ record.changes, change.Fits ∧ (change.epoch ≠ 0 ∧ change.recordNumber ≠ 0) ∧
    Serde.Reads change.values change.values

theorem appendRowChanges_total {changes : List RowChange}
    (h : ∀ change ∈ changes, (change.epoch ≠ 0 ∧ change.recordNumber ≠ 0) ∧
      Serde.Reads change.values change.values) :
    ∃ encoded, appendRowChanges changes = .ok encoded := by
  induction changes with
  | nil => exact ⟨[], rfl⟩
  | cons change rest ih =>
    obtain ⟨hpositive, body, hbody, -⟩ := h change mem_cons_self
    obtain ⟨others, hothers⟩ := ih (forall_mem_cons.mp h).2
    simp only [appendRowChanges, bind_eq_ok]
    exact ⟨_, _, encodeRowChange_eq_ok.mpr ⟨hpositive.1, hpositive.2, body, hbody, rfl⟩,
      others, hothers, rfl⟩

theorem MvccRecord.WellFormed.encode_ok_iff (h : record.WellFormed) :
    (∃ payload, record.encode = .ok payload) ↔ record.changes.length < u32Size := by
  obtain ⟨encoded, hencoded⟩ :=
    appendRowChanges_total fun change hchange => (h.rows change hchange).2
  cases record with
  | commit id => exact ⟨fun _ => show 0 < u32Size by decide, fun _ => ⟨_, rfl⟩⟩
  | prepare id snapshot =>
    constructor
    · rintro ⟨payload, hpayload⟩
      exact (encodePrepare_eq_ok.mp hpayload).2.1
    · exact fun hcount => ⟨_, encodePrepare_eq_ok.mpr ⟨h.positive, hcount, encoded, hencoded, rfl⟩⟩
  | rowHistory id changes =>
    constructor
    · rintro ⟨payload, hpayload⟩
      exact (encodeRowHistory_eq_ok.mp hpayload).2.2.1
    · exact fun hcount =>
        ⟨_, encodeRowHistory_eq_ok.mpr ⟨h.positive, h.shaped, hcount, encoded, hencoded, rfl⟩⟩

theorem MvccRecord.WellFormed.decodeRecord_encode (h : record.WellFormed)
    (hpayload : record.encode = .ok payload) (hlength : payload.length < u64Size) :
    decodeRecord payload = .ok record := by
  have hfits : ∀ change ∈ record.changes, change.Fits :=
    fun change hchange => (h.rows change hchange).1
  have hreads : List.Forall₂ RowChange.Reads record.changes record.changes :=
    forall₂_same.mpr fun change hchange => ⟨rfl, rfl, (h.rows change hchange).2.2⟩
  cases record with
  | commit id =>
    cases hpayload
    exact (decodeRecord_commit h.fits).mpr ⟨h.positive, rfl⟩
  | prepare id snapshot =>
    obtain ⟨hepoch, hsmall, hsome, hschema⟩ := h.shaped
    refine (decodeRecord_prepare hpayload h.fits hlength hsmall hfits hschema).mpr
      ⟨snapshot, ⟨_, hreads, ?_⟩, rfl⟩
    have hmax : max snapshot.rowEpoch 1 = snapshot.rowEpoch := by omega
    obtain ⟨dbf, memo, schema, rowEpoch, rowChanges⟩ := snapshot
    obtain ⟨changes, rfl⟩ := Option.isSome_iff_exists.mp hsome
    rw [hmax]
    rfl
  | rowHistory id changes =>
    exact (decodeRecord_rowHistory hpayload h.fits hlength hfits).mpr ⟨changes, hreads, rfl⟩

/-- The values of a row stand in the payload as the encoder writes them. -/
def CanonicalRow (payload : Bytes) (cursor : Nat) (row : RowChange × Nat) : Prop :=
  Serde.valuesToVec row.1.values = .ok (slice payload (cursor + rowChangeHeaderSize) row.2)

theorem encodeRowChange_decoded {row : RowChange × Nat}
    (h : decodeRowChange payload cursor = .ok row)
    (hcanonical : CanonicalRow payload cursor row) :
    encodeRowChange row.1 = .ok (slice payload cursor row.2) ∧ cursor ≤ row.2 ∧
      row.2 ≤ payload.length := by
  simp only [decodeRowChange, bind_eq_ok, reject_eq_ok, not_or, Nat.not_lt] at h
  obtain ⟨epoch, hepoch, number, hnumber, -, hpositive, deleted, hdeleted, length, hsize, -, -,
    -, hend, h⟩ := h
  split at h
  · cases h
  cases h
  refine ⟨encodeRowChange_eq_ok.mpr ⟨hpositive.1, hpositive.2, _, hcanonical, ?_⟩, ?_, hend⟩
  · rw [slice_length hend, Nat.add_sub_cancel_left, (readU64_bytes hepoch).2,
      (readU64_bytes hnumber).2,
      (readU64_bytes hsize).2, ← singleton_append,
      ← slice_byte (decodeDeleted_eq_ok hdeleted)]
    simp only [rowChangeHeaderSize, Nat.add_assoc, Nat.reduceAdd]
    rw [slice_append_slice, slice_append_slice, slice_append_slice, slice_append_slice] <;> omega
  · simp only [rowChangeHeaderSize]
    omega

/-- The same of `count` rows, one after another. -/
def CanonicalRows (payload : Bytes) (cursor : Nat) : Nat → Prop
  | 0 => True
  | count + 1 => ∀ row, decodeRowChange payload cursor = .ok row →
      CanonicalRow payload cursor row ∧ CanonicalRows payload row.2 count

theorem appendRowChanges_decoded {rows : List RowChange × Nat}
    (h : decodeRowChangesFrom payload cursor count = .ok rows)
    (hcanonical : CanonicalRows payload cursor count) :
    rows.1.length = count ∧ appendRowChanges rows.1 = .ok (slice payload cursor rows.2) ∧
      cursor ≤ rows.2 := by
  induction count generalizing cursor rows with
  | zero =>
    cases h
    simp [appendRowChanges, slice]
  | succ count ih =>
    simp only [decodeRowChangesFrom, bind_eq_ok, Except.ok.injEq] at h
    obtain ⟨row, hrow, others, hothers, rfl⟩ := h
    obtain ⟨hhere, hrest⟩ := hcanonical row hrow
    obtain ⟨hone, hfirst, -⟩ := encodeRowChange_decoded hrow hhere
    obtain ⟨hcount, hmore, hlast⟩ := ih hothers hrest
    refine ⟨by simp [hcount], ?_, by omega⟩
    simp only [appendRowChanges, bind_eq_ok, Except.ok.injEq]
    exact ⟨_, hone, _, hmore, slice_append_slice payload hfirst hlast⟩

theorem encodePrepare_decoded (hversion : version ≠ legacyMvccVersion) (hid : txn ≠ 0)
    (h : decodePrepare payload txn version = .ok record)
    (hcanonical : CanonicalRows payload 51 (fromLeBytes (slice payload 47 51))) :
    ∃ snapshot, record = .prepare txn snapshot ∧
      encodePrepare txn snapshot =
        .ok (mvccHeader mvccVersion prepareKind txn ++ payload.drop 14) := by
  simp only [decodePrepare, if_neg hversion, bind_eq_ok, reject_eq_ok, Except.ok.injEq,
    Nat.not_lt, ne_eq,
    not_not] at h
  obtain ⟨-, hlong, rows, hrows, dbfLength, hdbf, memoLength, hmemoLength, schemaLength,
    hschemaLength, -, -, -,
    hexact, memo, hmemo, rfl⟩ := h
  simp only [decodeRows, if_neg hversion, decodeRowChanges, legacyPrepareHeaderSize,
    prepareHeaderSize, Nat.reduceAdd, bind_eq_ok, reject_eq_ok, Except.ok.injEq] at hrows
  obtain ⟨rowEpoch, hepoch, -, hpositive, rows, ⟨-, -, hrows⟩, rfl⟩ := hrows
  obtain ⟨hcount, hencoded, hstart⟩ := appendRowChanges_decoded hrows hcanonical
  change 51 ≤ payload.length at hlong
  dsimp only at hexact hmemo ⊢
  have hschema : (if schemaLength = 0 then none
      else some (payload.drop (rows.2 + dbfLength + memoLength))).getD [] =
        payload.drop (rows.2 + dbfLength + memoLength) := by
    split
    · exact (drop_eq_nil_of_le (by omega)).symm
    · rfl
  generalize hsnapshot : Snapshot.mk (slice payload rows.2 (rows.2 + dbfLength)) memo _ rowEpoch _ =
    snapshot
  have hmemo := decodeMemo_eq_ok (hmemo.trans (congrArg (fun s => Except.ok s.memo) hsnapshot))
  have hbytes : snapshot.schemaBytes = payload.drop (rows.2 + dbfLength + memoLength) := by
    rw [← hsnapshot]
    exact hschema
  have hchanges : snapshot.changes = rows.1 := by rw [← hsnapshot]; rfl
  have hfour : 47 + 4 ≤ payload.length := hlong
  refine ⟨snapshot, rfl, encodePrepare_eq_ok.mpr ⟨hid, ?_, _, by rw [hchanges]; exact hencoded, ?_⟩⟩
  · rw [hchanges, hcount]
    exact fromLeBytes_slice_lt hfour
  have hlengths : snapshot.lengths = slice payload 14 51 := by
    have htag : slice payload 22 23 = [payload.getD 22 0] := slice_byte (by
      rw [getD_eq_getElem?_getD, getElem?_eq_getElem (by omega)]
      rfl)
    have hsizes : snapshot.dbf.length = dbfLength ∧ snapshot.memoBytes.length = memoLength ∧
        snapshot.schemaBytes.length = schemaLength ∧ max snapshot.rowEpoch 1 = rowEpoch := by
      rw [hmemo.2, hbytes, ← hsnapshot, length_drop, slice_length (by omega),
        slice_length (by omega)]
      dsimp only
      omega
    rw [Snapshot.lengths, hsizes.1, hsizes.2.1, hsizes.2.2.1, hsizes.2.2.2, hchanges,
      hcount, hmemo.1,
      (readU64_bytes hdbf).2, (readU64_bytes hmemoLength).2, (readU64_bytes hschemaLength).2,
      (readU64_bytes hepoch).2, ← singleton_append, ← htag,
      toLeBytes_slice (by rfl) hlong]
    simp only [Nat.reduceAdd]
    rw [slice_append_slice, slice_append_slice, slice_append_slice, slice_append_slice,
      slice_append_slice] <;>
      omega
  have himages : snapshot.images = slice payload rows.2 payload.length := by
    rw [Snapshot.images, hmemo.2, hbytes, ← slice_to_end, ← hsnapshot, slice_append_slice,
      slice_append_slice] <;>
      omega
  rw [hlengths, himages, slice_append_slice payload hstart (by omega),
    slice_append_slice payload (by decide) hlong,
    slice_to_end]

theorem encodeRowHistory_decoded (hid : txn ≠ 0)
    (h : decodeRowHistory payload txn version = .ok record)
    (hcanonical : CanonicalRows payload 18 (fromLeBytes (slice payload 14 18))) :
    ∃ changes, record = .rowHistory txn changes ∧
      encodeRowHistory txn changes =
        .ok (mvccHeader rowHistoryVersion rowHistoryKind txn ++ payload.drop 14) := by
  simp only [decodeRowHistory, decodeRowChanges, bind_eq_ok, reject_eq_ok, Except.ok.injEq] at h
  obtain ⟨-, hheader, -, hnonempty, rows, ⟨-, -, hrows⟩, -, hend, rfl⟩ := h
  have hlong : 14 + 4 ≤ payload.length := Nat.not_lt.mp (not_or.mp hheader).2
  obtain ⟨hcount, hencoded, hstart⟩ := appendRowChanges_decoded hrows hcanonical
  have hsome : rows.1 ≠ [] := fun hnil => hnonempty (by rw [← hcount, hnil]; rfl)
  refine ⟨_, rfl, encodeRowHistory_eq_ok.mpr ⟨hid, hsome, ?_, _, hencoded, ?_⟩⟩
  · rw [hcount]
    exact fromLeBytes_slice_lt hlong
  · rw [hcount, toLeBytes_slice (show 14 + 4 = rowHistoryHeaderSize from rfl) hlong,
      slice_append_slice payload (by decide) hstart,
      not_not.mp hend, slice_to_end]

/-- Where the rows of a payload begin, and how many it announces. -/
def announcedRows (payload : Bytes) : Nat × Nat :=
  if payload[5]? = some prepareKind then (51, fromLeBytes (slice payload 47 51))
  else if payload[5]? = some rowHistoryKind then (18, fromLeBytes (slice payload 14 18))
  else (14, 0)

def CanonicalValues (payload : Bytes) : Prop :=
  CanonicalRows payload (announcedRows payload).1 (announcedRows payload).2

/-- The version that the encoder of a record writes. -/
def MvccRecord.writtenVersion : MvccRecord → UInt8
  | .rowHistory _ _ => rowHistoryVersion
  | _ => mvccVersion

/-- An accepted payload is its header and a rest, and the record is written again with that rest. -/
theorem encode_decoded (h : decodeRecord payload = .ok record)
    (hlegacy : payload[4]? ≠ some legacyMvccVersion)
    (hcanonical : CanonicalValues payload) :
    ∃ version kind rest, payload = mvccHeader version kind record.transactionId ++ rest ∧
      record.encode = .ok (mvccHeader record.writtenVersion kind record.transactionId ++ rest) ∧
      (version = mvccVersion ∨ version = rowHistoryVersion) ∧
      (kind = rowHistoryKind ↔ record.writtenVersion = rowHistoryVersion) := by
  simp only [decodeRecord, bind_eq_ok, reject_eq_ok, required_eq_ok] at h
  obtain ⟨-, hmagic, version, hversion, -, hknown, kind, hkind, id, hid, -, hpositive, h⟩ := h
  have hpayload := header_of_reads (by simpa using hmagic) hversion hkind hid
  have htwo : version ≠ legacyMvccVersion := fun heq => hlegacy (hversion.trans (congrArg some heq))
  have hnow : version = mvccVersion ∨ version = rowHistoryVersion := by
    by_contra hother
    exact hknown ⟨htwo, not_or.mp hother⟩
  unfold CanonicalValues announcedRows at hcanonical
  unfold decodeKind at h
  split_ifs at h with hcommit hprepare hhistory
  · simp only [bind_eq_ok, reject_eq_ok, Except.ok.injEq] at h
    obtain ⟨-, hlength, rfl⟩ := h
    have hnil : payload.drop 14 = [] := drop_eq_nil_of_le (not_not.mp hlength).le
    subst hcommit
    refine ⟨version, commitKind, [], hnil ▸ hpayload, ?_, hnow, iff_of_false (by decide) ?_⟩
    · rw [append_nil]
      rfl
    · exact show ¬mvccVersion = rowHistoryVersion by decide
  · subst hprepare
    rw [if_pos hkind] at hcanonical
    obtain ⟨snapshot, rfl, hencode⟩ := encodePrepare_decoded htwo hpositive h hcanonical
    refine ⟨version, prepareKind, _, hpayload, hencode, hnow, iff_of_false (by decide) ?_⟩
    exact show ¬mvccVersion = rowHistoryVersion by decide
  · subst hhistory
    rw [if_neg (by rw [hkind]; decide), if_pos hkind] at hcanonical
    obtain ⟨changes, rfl, hencode⟩ := encodeRowHistory_decoded hpositive h hcanonical
    exact ⟨version, rowHistoryKind, _, hpayload, hencode, hnow, iff_of_true rfl rfl⟩
  · cases h

/-- A well-formed record is written unless it has too many rows, and is read back as it was.  An
accepted payload in its present versions, with canonical row values, is written again byte for byte
exactly when its version is that of row histories for these records alone. -/
theorem mvcc_codec (record : MvccRecord) (hrecord : record.WellFormed) (payload : Bytes) :
    ((∃ written, record.encode = .ok written) ↔ record.changes.length < u32Size) ∧
      (∀ written, record.encode = .ok written → written.length < u64Size →
        decodeRecord written = .ok record) ∧
      ∀ read, decodeRecord payload = .ok read → payload[4]? ≠ some legacyMvccVersion →
        CanonicalValues payload →
        (read.encode = .ok payload ↔
          (payload[4]? = some rowHistoryVersion ↔ payload[5]? = some rowHistoryKind)) := by
  refine ⟨hrecord.encode_ok_iff, fun written => hrecord.decodeRecord_encode, ?_⟩
  intro read hread hlegacy hcanonical
  obtain ⟨version, kind, rest, hpayload, hencode, hversion, hkind⟩ :=
    encode_decoded hread hlegacy hcanonical
  have hfour : payload[4]? = some version := by rw [hpayload]; rfl
  have hfive : payload[5]? = some kind := by rw [hpayload]; rfl
  rw [hencode, hfour, hfive, Except.ok.injEq]
  nth_rewrite 1 [hpayload]
  rw [mvccHeader_inj, Option.some.injEq, Option.some.injEq, hkind]
  have hwritten : read.writtenVersion = mvccVersion ∨ read.writtenVersion = rowHistoryVersion := by
    cases read <;> simp [MvccRecord.writtenVersion]
  rcases hwritten with hwritten | hwritten <;>
    rcases hversion with rfl | rfl <;> rw [hwritten] <;> decide

end Canonical

/-- One row history of one row, and its bytes. -/
theorem mvcc_codec_row_history :
    letI := Serde.listed [] [] [] [[]]
    let record := MvccRecord.rowHistory 1 [⟨1, 1, true, []⟩]
    let payload := mvccHeader 3 2 1 ++ (toLeBytes 4 1 ++ (toLeBytes 8 1 ++ (toLeBytes 8 1 ++
      (1 :: (toLeBytes 8 2 ++ [0, 0])))))
    record.WellFormed ∧ CanonicalValues payload ∧ decodeRecord payload = .ok record ∧
      record.encode = .ok payload := by
  let := Serde.listed [] [] [] [[]]
  intro record payload
  have hrecord : record.WellFormed := by
    refine ⟨by decide, by decide, cons_ne_nil _ _, fun change hchange => ?_⟩
    cases mem_singleton.mp hchange
    exact ⟨⟨by decide, by decide⟩, by decide, _, rfl, rfl⟩
  have hcanonical : CanonicalValues payload := by
    intro row hrow
    cases (show decodeRowChange payload 18 = .ok (⟨1, 1, true, []⟩, 45) from rfl).symm.trans hrow
    exact ⟨rfl, trivial⟩
  have hall := mvcc_codec record hrecord payload
  have hread : decodeRecord payload = .ok record := hall.2.1 payload rfl (by decide)
  exact ⟨hrecord, hcanonical, hread, (hall.2.2 record hread (by decide) hcanonical).mpr (by decide)⟩

/-- A commit record under the version of row histories is accepted, and written as another one. -/
theorem commit_version_ignored :
    letI := Serde.refusing
    decodeRecord (mvccHeader 3 1 1) = .ok (.commit 1) ∧ CanonicalValues (mvccHeader 3 1 1) ∧
      (MvccRecord.commit 1).encode ≠ .ok (mvccHeader 3 1 1) := by
  refine ⟨rfl, trivial, fun h => ?_⟩
  cases h

end TxBase.Dbf
