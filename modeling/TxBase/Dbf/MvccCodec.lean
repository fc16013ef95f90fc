import TxBase.Dbf.RowMvcc

/-! The records of the MVCC history, `src/dbf/mvcc_codec.rs`. -/
namespace TxBase.Dbf
open Lib

inductive MvccRecord where
  | prepare (transactionId : Nat) (snapshot : Snapshot)
  | commit (transactionId : Nat)
  | rowHistory (transactionId : Nat) (changes : List RowChange)
  deriving DecidableEq

def mvccMagic : Bytes := [0x54, 0x58, 0x4d, 0x56]
def legacyMvccVersion : UInt8 := 1
def mvccVersion : UInt8 := 2
def rowHistoryVersion : UInt8 := 3
def prepareKind : UInt8 := 0
def commitKind : UInt8 := 1
def rowHistoryKind : UInt8 := 2
def noMemo : UInt8 := 0xff
def legacyPrepareHeaderSize : Nat := 39
def prepareHeaderSize : Nat := 51
def rowHistoryHeaderSize : Nat := 18
def rowChangeHeaderSize : Nat := 25
def commitRecordSize : Nat := 14

section Codec
variable [Serde]

def encodeRowChange (change : RowChange) : Checked Bytes := do
  reject (change.epoch = 0 ∨ change.recordNumber = 0)
    "MVCC row changes require positive epoch and record number"
  match Serde.valuesToVec change.values with
  | .error error => invalid s!"MVCC row-change encoding failed: {error}"
  | .ok values =>
      .ok (toLeBytes 8 change.epoch ++ (toLeBytes 8 change.recordNumber ++
        ((if change.deleted then 1 else 0) :: (toLeBytes 8 values.length ++ values))))

def appendRowChanges : List RowChange → Checked Bytes
  | [] => .ok []
  | change :: rest => do
      let encoded ← encodeRowChange change
      let others ← appendRowChanges rest
      .ok (encoded ++ others)

/-- The fourteen bytes that every record begins with. -/
def mvccHeader (version kind : UInt8) (transactionId : Nat) : Bytes :=
  mvccMagic ++ (version :: kind :: toLeBytes 8 transactionId)

def encodePrepare (transactionId : Nat) (snapshot : Snapshot) : Checked Bytes := do
  reject (transactionId = 0) "MVCC transaction ID must be positive"
  let memoTag := (snapshot.memo.map fun memo => memo.format.tag).getD noMemo
  let memoBytes := (snapshot.memo.map MemoSnapshot.bytes).getD []
  let schemaBytes := snapshot.schema.getD []
  let rowChanges := snapshot.rowChanges.getD []
  reject (u32Size ≤ rowChanges.length) "MVCC row-change count overflows u32"
  let encoded ← appendRowChanges rowChanges
  .ok (mvccHeader mvccVersion prepareKind transactionId ++ (toLeBytes 8 snapshot.dbf.length ++
    (memoTag :: (toLeBytes 8 memoBytes.length ++ (toLeBytes 8 schemaBytes.length ++
      (toLeBytes 8 (max snapshot.rowEpoch 1) ++ (toLeBytes 4 rowChanges.length ++
        (encoded ++ (snapshot.dbf ++ (memoBytes ++ schemaBytes))))))))))

def encodeRowHistory (transactionId : Nat) (changes : List RowChange) : Checked Bytes := do
  reject (transactionId = 0) "MVCC transaction ID must be positive"
  reject changes.isEmpty "MVCC row history must contain a change"
  reject (u32Size ≤ changes.length) "MVCC row-change count overflows u32"
  let encoded ← appendRowChanges changes
  .ok (mvccHeader rowHistoryVersion rowHistoryKind transactionId ++
    (toLeBytes 4 changes.length ++ encoded))

def encodeCommit (transactionId : Nat) : Bytes := mvccHeader mvccVersion commitKind transactionId

def readU64 (bytes : Bytes) (start : Nat) : Checked Nat := do
  reject (bytes.length < start + 8) "MVCC integer is truncated"
  .ok (fromLeBytes (slice bytes start (start + 8)))

def decodeDeleted (flag : Option UInt8) : Checked Bool :=
  match flag with
  | none => invalid "MVCC row-change header is truncated"
  | some flag =>
      if flag = 0 then .ok false
      else if flag = 1 then .ok true
      else invalid s!"MVCC row change has an invalid deletion flag {flag}"

/-- One row change at `cursor`, and where the next one begins. -/
def decodeRowChange (payload : Bytes) (cursor : Nat) : Checked (RowChange × Nat) := do
  let epoch ← readU64 payload cursor
  let recordNumber ← readU64 payload (cursor + 8)
  reject (epoch = 0 ∨ recordNumber = 0) "MVCC row change has a non-positive identity"
  let deleted ← decodeDeleted payload[cursor + 16]?
  let length ← readU64 payload (cursor + 17)
  reject (u64Size ≤ cursor + rowChangeHeaderSize + length) "MVCC row values length overflows"
  reject (payload.length < cursor + rowChangeHeaderSize + length) "MVCC row values are truncated"
  match Serde.valuesFromSlice (slice payload (cursor + rowChangeHeaderSize)
      (cursor + rowChangeHeaderSize + length)) with
  | .error error => invalid s!"invalid MVCC row values: {error}"
  | .ok values =>
      .ok (⟨epoch, recordNumber, deleted, values⟩, cursor + rowChangeHeaderSize + length)

def decodeRowChangesFrom (payload : Bytes) (cursor : Nat) :
    Nat → Checked (List RowChange × Nat)
  | 0 => .ok ([], cursor)
  | count + 1 => do
      let (change, next) ← decodeRowChange payload cursor
      let (changes, stop) ← decodeRowChangesFrom payload next count
      .ok (change :: changes, stop)

def decodeRowChanges (payload : Bytes) (cursor rowCount : Nat) :
    Checked (List RowChange × Nat) := do
  reject ((payload.length - cursor) / rowChangeHeaderSize < rowCount)
    "MVCC row-change count is unreasonable"
  decodeRowChangesFrom payload cursor rowCount

/-- The epoch and the row changes of a prepare record, and where its images begin. -/
def decodeRows (payload : Bytes) (version : UInt8) :
    Checked (Nat × Option (List RowChange) × Nat) :=
  if version = legacyMvccVersion then .ok (0, none, legacyPrepareHeaderSize)
  else do
    let rowEpoch ← readU64 payload legacyPrepareHeaderSize
    reject (rowEpoch = 0) "MVCC row epoch must be positive"
    let (changes, cursor) ← decodeRowChanges payload prepareHeaderSize
      (fromLeBytes (slice payload (legacyPrepareHeaderSize + 8) prepareHeaderSize))
    .ok (rowEpoch, some changes, cursor)

def decodeMemo (memoTag : UInt8) (bytes : Bytes) : Checked (Option MemoSnapshot) :=
  if memoTag = noMemo then do
    reject (!bytes.isEmpty) "MVCC memo tag is absent but memo bytes are present"
    .ok none
  else do
    let format ← MemoFormat.fromTag memoTag
    .ok (some ⟨format, bytes⟩)

def decodePrepare (payload : Bytes) (transactionId : Nat) (version : UInt8) :
    Checked MvccRecord := do
  let headerSize := if version = legacyMvccVersion then legacyPrepareHeaderSize
    else prepareHeaderSize
  reject (payload.length < headerSize) "MVCC prepare record header is truncated"
  let (rowEpoch, rowChanges, dataStart) ← decodeRows payload version
  let dbfLength ← readU64 payload 14
  let memoLength ← readU64 payload 23
  let schemaLength ← readU64 payload 31
  let dbfEnd := dataStart + dbfLength
  let memoEnd := dbfEnd + memoLength
  reject (u64Size ≤ memoEnd + schemaLength) "MVCC prepare record length overflows"
  reject (memoEnd + schemaLength ≠ payload.length) "MVCC prepare lengths do not match the record"
  let memo ← decodeMemo (payload.getD 22 0) (slice payload dbfEnd memoEnd)
  .ok (.prepare transactionId
    { dbf := slice payload dataStart dbfEnd
      memo := memo
      schema := if schemaLength = 0 then none else some (payload.drop memoEnd)
      rowEpoch := rowEpoch
      rowChanges := rowChanges })

def decodeRowHistory (payload : Bytes) (transactionId : Nat) (version : UInt8) :
    Checked MvccRecord := do
  reject (version ≠ rowHistoryVersion ∨ payload.length < rowHistoryHeaderSize)
    "MVCC row-history record header is invalid"
  let rowCount := fromLeBytes (slice payload 14 rowHistoryHeaderSize)
  reject (rowCount = 0) "MVCC row-history record must contain a change"
  let (changes, cursor) ← decodeRowChanges payload rowHistoryHeaderSize rowCount
  reject (cursor ≠ payload.length) "MVCC row-history record has trailing bytes"
  .ok (.rowHistory transactionId changes)

def decodeKind (payload : Bytes) (version kind : UInt8) (transactionId : Nat) :
    Checked MvccRecord :=
  if kind = commitKind then do
    reject (payload.length ≠ commitRecordSize) "MVCC commit record length is invalid"
    .ok (.commit transactionId)
  else if kind = prepareKind then decodePrepare payload transactionId version
  else if kind = rowHistoryKind then decodeRowHistory payload transactionId version
  else invalid s!"unknown MVCC record kind {kind}"

def decodeRecord (payload : Bytes) : Checked MvccRecord := do
  reject (!mvccMagic.isPrefixOf payload) "MVCC record has an invalid magic"
  let version ← required payload[4]? "MVCC record header is truncated"
  reject (version ≠ legacyMvccVersion ∧ version ≠ mvccVersion ∧ version ≠ rowHistoryVersion)
    s!"unknown MVCC record version {version}"
  let kind ← required payload[5]? "MVCC record kind is truncated"
  let transactionId ← readU64 payload 6
  reject (transactionId = 0) "MVCC transaction ID must be positive"
  decodeKind payload version kind transactionId

end Codec

end TxBase.Dbf
