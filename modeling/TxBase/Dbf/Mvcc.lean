import TxBase.Dbf.MvccCodec

/-! The MVCC history of a table, `src/dbf/mvcc.rs`: a commit is prepared, with the whole
image and what changed in its rows, before the table's files are replaced, and committed
after. -/
namespace TxBase.Dbf
open Lib Json
open Durable (ask)
open Outcome (lift)

def preparedSnapshot (records : List MvccRecord) (transactionId : Nat) : Option Snapshot :=
  records.reverse.findSome? fun
    | .prepare id snapshot => if id = transactionId then some snapshot else none
    | _ => none

/-- What was prepared, and which of it was committed, so far. -/
structure History where
  prepared : OrderedMap Nat Snapshot
  committed : OrderedMap Nat Unit

def History.note (history : History) : MvccRecord → Checked History
  | .prepare transactionId snapshot =>
      .ok { history with prepared := history.prepared.insert transactionId snapshot }
  | .commit transactionId => do
      reject (history.prepared.get? transactionId).isNone
        s!"MVCC commit {transactionId} has no prepare record"
      .ok { history with committed := history.committed.insert transactionId () }
  | .rowHistory _ _ => .ok history

def committedSnapshots (records : List MvccRecord) : Checked (OrderedMap Nat Snapshot) := do
  let history ← records.foldlM History.note ⟨[], []⟩
  .ok (history.committed.filterMap fun entry =>
    (history.prepared.get? entry.1).map fun snapshot => (entry.1, snapshot))

/-- The format of a memo file by its extension, or by the version of the image. -/
def historyFormat (sidecar : MemoSidecar) (version : UInt8) : Checked MemoFormat :=
  if sidecar.isFpt then .ok .foxPro
  else required (memoFormatForVersion version) "MVCC memo sidecar has an unsupported DBF version"

def currentMemoSnapshot (disk : Disk) (dbf : Bytes) : Checked (Option MemoSnapshot) :=
  match disk.memo with
  | none => .ok none
  | some sidecar => do
      let version ← required dbf.head? "MVCC DBF snapshot is empty"
      let format ← historyFormat sidecar version
      .ok (some ⟨format, sidecar.bytes⟩)

section History
variable [Serde]

def readMvccRecords (log : LogFile) : Checked (List MvccRecord) := do
  let payloads ← log.payloads
  payloads.mapM decodeRecord

variable [Runtime] [Filters]

/-- The record that a prepare appends; none if the transaction was prepared alike. -/
def planPrepare (transactionId : Nat) (dbf : Bytes) (memo : Option MemoSnapshot)
    (schema : Option Bytes) (forceNewEpoch : Bool) (log : LogFile) : Res (Option Bytes) := do
  let records ← lift (readMvccRecords log)
  let committed ← lift (committedSnapshots records)
  let previous := committed.getLast?.map Prod.snd
  let snapshot ← changesForCommit previous
    ⟨dbf, memo, schema, (previous.map Snapshot.rowEpoch).getD 1, some []⟩ forceNewEpoch
  match preparedSnapshot records transactionId with
  | some existing => do
      lift (reject (!existing.eqv snapshot)
        s!"MVCC prepare for transaction {transactionId} does not match")
      .ok none
  | none => do
      let record ← lift (encodePrepare transactionId snapshot)
      .ok (some record)

def prepareSnapshot (transactionId : Nat) (dbf : Bytes) (memo : Option MemoSnapshot)
    (schema : Option Bytes) (forceNewEpoch : Bool) : Saving Unit := do
  let record ← ask fun disk => planPrepare transactionId dbf memo schema forceNewEpoch disk.mvcc
  Durable.forSome record appendMvcc

def isCommitted (transactionId : Nat) (log : LogFile) : Checked Bool := do
  let records ← readMvccRecords log
  let committed ← committedSnapshots records
  .ok (committed.get? transactionId).isSome

def commitSnapshot (transactionId : Nat) (dbf : Bytes) (memo : Option MemoSnapshot)
    (schema : Option Bytes) (forceNewEpoch : Bool) : Saving Unit := do
  prepareSnapshot transactionId dbf memo schema forceNewEpoch
  let committed ← ask fun disk => lift (isCommitted transactionId disk.mvcc)
  Durable.when (!committed) (appendMvcc (encodeCommit transactionId))

def recoveredMemo (disk : Disk) (dbf : Bytes) (memo : Option MemoSnapshot) :
    Checked (Option MemoSnapshot) :=
  match memo with
  | some memo => .ok (some memo)
  | none => currentMemoSnapshot disk dbf

def commitRecoveredSnapshot (transactionId : Nat) (dbf : Bytes) (memo : Option MemoSnapshot)
    (forceNewEpoch : Bool) : Saving Unit := do
  let memo ← ask fun disk => lift (recoveredMemo disk dbf memo)
  let schema ← ask fun disk => .ok disk.schema
  commitSnapshot transactionId dbf memo schema forceNewEpoch

end History

end TxBase.Dbf
