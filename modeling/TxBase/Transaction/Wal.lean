import TxBase.Lib.Bytes

/-! The write-ahead log file of `src/transaction/wal.rs`: a sequence of frames,
each a magic, a payload length, an LSN and the payload.  Offsets, lengths and
LSNs are naturals with the source's checked additions written out. -/
namespace TxBase.Transaction
open Lib

abbrev Lsn := Nat

inductive TransactionError where
  | io (message : String)
  | unsupported
  | invalid (message : String)
  deriving DecidableEq

def walMagic : Bytes := [0x54, 0x58, 0x57, 0x4c]
def walHeaderSize : Nat := 16
def maxWalRecordSize : Nat := 16 * 1024 * 1024

def validateRecordSize (record : Bytes) : Except TransactionError Unit :=
  if record.length > maxWalRecordSize then
    .error (.invalid "WAL record exceeds the configured size limit")
  else .ok ()

def nextLsn : Option Lsn → Except TransactionError Lsn
  | some value =>
      match checkedAdd value 1 u64Size with
      | some lsn => .ok lsn
      | none => .error (.invalid "WAL LSN overflows")
  | none => .ok 0

/-- The sixteen header bytes that precede a payload of `length` bytes. -/
def frameHeader (length : Nat) (lsn : Lsn) : Bytes :=
  walMagic ++ toLeBytes 4 length ++ toLeBytes 8 lsn

def frame (lsn : Lsn) (record : Bytes) : Bytes :=
  frameHeader record.length lsn ++ record

structure ParsedWal where
  records : List (Lsn × Bytes)
  validBytes : Nat
  deriving DecidableEq

/-- The loop of `parse_wal`; `rest` is `bytes[offset..]`. -/
def parseWalFrom (rest : Bytes) (offset : Nat) (expectedLsn : Lsn)
    (records : List (Lsn × Bytes)) : Except TransactionError ParsedWal :=
  if rest.length < walHeaderSize then
    -- The end of the file, or a header cut short.
    .ok ⟨records, offset⟩
  else if slice rest 0 4 ≠ walMagic then
    .error (.invalid "WAL record has an invalid magic")
  else if fromLeBytes (slice rest 4 8) > maxWalRecordSize then
    .error (.invalid "WAL record exceeds the configured size limit")
  else if u64Size ≤ offset + walHeaderSize + fromLeBytes (slice rest 4 8) then
    .error (.invalid "WAL record length overflows")
  else if rest.length < walHeaderSize + fromLeBytes (slice rest 4 8) then
    -- `end > bytes.len()`: the payload was cut short.
    .ok ⟨records, offset⟩
  else if fromLeBytes (slice rest 8 16) ≠ expectedLsn then
    .error (.invalid s!"WAL LSN {fromLeBytes (slice rest 8 16)} is not the expected {expectedLsn}")
  else if u64Size ≤ expectedLsn + 1 then
    .error (.invalid "WAL LSN overflows")
  else
    let stop := walHeaderSize + fromLeBytes (slice rest 4 8)
    parseWalFrom (rest.drop stop) (offset + stop) (expectedLsn + 1)
      (records ++ [(expectedLsn, slice rest walHeaderSize stop)])
termination_by rest.length
decreasing_by simp only [List.length_drop, walHeaderSize] at *; omega

def parseWal (bytes : Bytes) : Except TransactionError ParsedWal :=
  parseWalFrom bytes 0 0 []

def encodeRecordsFrom (index : Nat) (bytes : Bytes) :
    List Bytes → Except TransactionError Bytes
  | [] => .ok bytes
  | record :: rest => do
      validateRecordSize record
      if u32Size ≤ record.length then
        throw (.invalid "WAL record length overflows")
      if u64Size ≤ index then
        throw (.invalid "WAL LSN overflows")
      encodeRecordsFrom (index + 1) (bytes ++ frame index record) rest

def encodeRecords (records : List Bytes) : Except TransactionError Bytes :=
  encodeRecordsFrom 0 [] records

/-- An open log: the file's bytes and the two in-memory copies of its state.
Every write seeks to the end first, so the file cursor is not part of it. -/
structure FileWal where
  file : Bytes
  records : List (Lsn × Bytes)
  lastLsn : Option Lsn
  deriving DecidableEq

def FileWal.payloads (wal : FileWal) : List Bytes := wal.records.map Prod.snd

/-- `FileWal::open` on a file that holds `bytes`; a torn tail is truncated. -/
def FileWal.open (bytes : Bytes) : Except TransactionError FileWal := do
  let parsed ← parseWal bytes
  .ok {
    file := if parsed.validBytes < bytes.length then bytes.take parsed.validBytes else bytes
    records := parsed.records
    lastLsn := parsed.records.getLast?.map Prod.fst }

/-- A device accepts `room` more bytes and then reports an error; `none` is a
device without a fault. -/
def fits (room : Option Nat) (length : Nat) : Bool :=
  match room with
  | none => true
  | some room => length ≤ room

structure Written where
  file : Bytes
  room : Option Nat
  ok : Bool

/-- `write_all` at the end of a file: all of `data`, or as much as there is room
for and an error. -/
def writeAll (file data : Bytes) (room : Option Nat) : Written :=
  if fits room data.length then ⟨file ++ data, room.map (· - data.length), true⟩
  else ⟨file ++ data.take (room.getD 0), some 0, false⟩

/-- `FileWal::append` on a device with a possible fault.  The bytes of a failed
write stay in the file, and the in-memory fields move only on success. -/
def FileWal.append (wal : FileWal) (record : Bytes) (room : Option Nat) :
    FileWal × Except TransactionError Lsn :=
  match validateRecordSize record with
  | .error error => (wal, .error error)
  | .ok () =>
    match nextLsn wal.lastLsn with
    | .error error => (wal, .error error)
    | .ok lsn =>
      if u32Size ≤ record.length then
        (wal, .error (.invalid "WAL record length overflows"))
      else
        let header := writeAll wal.file (frameHeader record.length lsn) room
        if !header.ok then ({ wal with file := header.file }, .error (.io "write failed"))
        else
          let payload := writeAll header.file record header.room
          if !payload.ok then ({ wal with file := payload.file }, .error (.io "write failed"))
          else
            ({ file := payload.file, records := wal.records ++ [(lsn, record)],
               lastLsn := some lsn }, .ok lsn)

end TxBase.Transaction
