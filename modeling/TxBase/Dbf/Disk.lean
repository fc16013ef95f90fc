import TxBase.Dbf.SchemaFields
import TxBase.Dbf.Memo
import TxBase.Dbf.WalPayload
import TxBase.Lib.Durable
import TxBase.Transaction.Wal

/-! The files of a table, seen from its path: the image and what lies beside it.  A log
file is what `FileWal::open` makes of it; the framing of its records and their LSNs are
the subject of `TxBase.Transaction`. -/
namespace TxBase.Dbf
open Lib Transaction
open Durable (ask step)

/-- `DbfError::Invalid(format!("WAL error: {error}"))`. -/
def transactionError (error : TransactionError) : DbfError :=
  .invalid ("WAL error: " ++ match error with
    | .io message => s!"transaction I/O error: {message}"
    | .unsupported => "transaction operation is unsupported"
    | .invalid message => s!"invalid transaction: {message}")

/-- A log file as it is opened. -/
inductive LogFile where
  | absent
  | unreadable (error : TransactionError)
  | records (payloads : List Bytes)
  deriving DecidableEq

namespace LogFile

/-- The payloads that `FileWal::open` gives; opening creates the file. -/
def payloads : LogFile → Checked (List Bytes)
  | .absent => .ok []
  | .unreadable error => .error (transactionError error)
  | .records payloads => .ok payloads

def created : LogFile → LogFile
  | .absent => .records []
  | log => log

/-- The file after a record; only a readable file is written to. -/
def append (payload : Bytes) : LogFile → LogFile
  | .absent => .records [payload]
  | .unreadable error => .unreadable error
  | .records payloads => .records (payloads ++ [payload])

end LogFile

/-- The memo file that `find_memo_path` finds: whether its extension is `fpt`, in any
case, and what it holds. -/
structure MemoSidecar where
  isFpt : Bool
  bytes : Bytes
  deriving DecidableEq

/-- The format under which `MemoFile::open` reads the file. -/
def MemoSidecar.format (sidecar : MemoSidecar) (version : UInt8) : MemoFormat :=
  if sidecar.isFpt then .foxPro else if version = 0x83 then .dbase3 else .dbase4

/-- The files that belong to a table: the image, `fpt` or `dbt`, `txschema.json`,
`txbase.state`, `txbase.wal`, `txbase.mvcc`, `txbase.cdc`, `txidx`, and the journal of a
schema export. -/
structure Disk where
  dbf : Option Bytes
  memo : Option MemoSidecar
  schema : Option Bytes
  state : Option Bytes
  wal : LogFile
  mvcc : LogFile
  cdc : LogFile
  index : Option Bytes
  exportJournal : LogFile
  deriving DecidableEq

abbrev Saving (α : Type) := Durable Disk DbfError α

def transactionStateMagic : Bytes := [0x54, 0x58, 0x54, 0x53]

def decodeTransactionState (bytes : Bytes) : Checked Nat := do
  let body ← required (afterMagic transactionStateMagic bytes)
    "transaction state header is invalid"
  reject (body.length ≠ 9) "transaction state payload is truncated"
  reject (body.headD 0 ≠ 1) s!"unknown transaction state version {body.headD 0}"
  reject (fromLeBytes (slice body 1 9) = 0) "transaction state ID must be positive"
  .ok (fromLeBytes (slice body 1 9))

def transactionStateBytes (transactionId : Nat) : Checked Bytes := do
  reject (transactionId = 0) "transaction state ID must be positive"
  .ok (transactionStateMagic ++ 1 :: toLeBytes 8 transactionId)

def nextTransactionId (current : Option Nat) : Checked Nat := do
  reject (u64Size ≤ current.getD 0 + 1) "transaction ID exhausted"
  .ok (current.getD 0 + 1)

namespace Disk

def readTransactionState (disk : Disk) : Checked (Option Nat) :=
  match disk.state with
  | none => .ok none
  | some bytes => do
      let transactionId ← decodeTransactionState bytes
      .ok (some transactionId)

def readSchemaMetadata [Serde] [Filters] (disk : Disk) :
    Checked (Option (SchemaMetadata × Bytes)) :=
  match disk.schema with
  | none => .ok none
  | some bytes => do
      let metadata ← SchemaMetadata.fromBytes bytes
      .ok (some (metadata, bytes))

def files (disk : Disk) : TableFiles := ⟨disk.dbf, disk.memo.map MemoSidecar.bytes⟩

/-- The memo file after `memo` was saved: the file that is there, or a new one whose
extension the format gives. -/
def withMemo (disk : Disk) (memo : MemoSnapshot) : Disk :=
  { disk with
    memo := match disk.memo with
      | some sidecar => some { sidecar with bytes := memo.bytes }
      | none => some ⟨memo.format = .foxPro, memo.bytes⟩ }

end Disk

/-- The files of a table that was never saved: its image, and the schema if it has one. -/
def Disk.fresh (dbf : Bytes) (memo : Option MemoSidecar) (schema : Option Bytes) : Disk :=
  ⟨some dbf, memo, schema, none, .absent, .absent, .absent, none, .absent⟩

/-- `FileWal::append` refuses a record over the limit. -/
def checkRecordSize (payload : Bytes) : Checked Unit :=
  match validateRecordSize payload with
  | .ok () => .ok ()
  | .error error => .error (transactionError error)

def replaceDbf (bytes : Bytes) : Saving Unit := step fun disk => { disk with dbf := some bytes }

def replaceMemo (memo : MemoSnapshot) : Saving Unit := step fun disk => disk.withMemo memo

def replaceIndex (bytes : Bytes) : Saving Unit :=
  step fun disk => { disk with index := some bytes }

def writeTransactionState (transactionId : Nat) : Saving Unit := do
  let bytes ← ask fun _ => Outcome.lift (transactionStateBytes transactionId)
  step fun disk => { disk with state := some bytes }

/-- An append to the open log, and its sync. -/
def appendWal (payload : Bytes) : Saving Unit := do
  ask fun _ => Outcome.lift (checkRecordSize payload)
  step fun disk => { disk with wal := disk.wal.append payload }

def openWal : Saving (List Bytes) := do
  let payloads ← ask fun disk => Outcome.lift disk.wal.payloads
  step fun disk => { disk with wal := disk.wal.created }
  pure payloads

/-- The log is emptied and then removed. -/
def removeWal : Saving Unit := do
  step fun disk => { disk with wal := .records [] }
  step fun disk => { disk with wal := .absent }

def appendMvcc (payload : Bytes) : Saving Unit := do
  let _ ← ask fun disk => Outcome.lift disk.mvcc.payloads
  step fun disk => { disk with mvcc := disk.mvcc.created }
  ask fun _ => Outcome.lift (checkRecordSize payload)
  step fun disk => { disk with mvcc := disk.mvcc.append payload }

end TxBase.Dbf
