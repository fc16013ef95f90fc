import TxBase.Catalog.Steps
import TxBase.Lib.Paths

/-! The history of a catalog, `src/catalog/mvcc.rs`: the images of all tables after each
transaction, in one file. -/
namespace TxBase.Catalog
open Lib

structure TableSnapshot where
  fileName : String
  dbf : Bytes
  memo : Option (UInt8 × Bytes)
  schema : Option Bytes
  deriving DecidableEq

structure Snapshot where
  transactionId : Nat
  tables : OrderedMap String TableSnapshot
  deriving DecidableEq

namespace History

def magic : Bytes := [0x54, 0x58, 0x43, 0x4d]

def version : UInt8 := 1

def noMemo : UInt8 := 0xff

abbrev Coded (α : Type) := Except CatalogError α

def refused {α : Type} (message : String) : Coded α := .error (.invalid message)

def refuseIf (condition : Prop) [Decidable condition] (message : String) : Coded Unit :=
  if condition then refused message else .ok ()

def stringBytes (value label : String) : Coded Bytes := do
  refuseIf (u32Size ≤ (utf8 value).length) s!"catalog MVCC {label} is too long"
  .ok (toLeBytes 4 (utf8 value).length ++ utf8 value)

def tableBytes (name : String) (table : TableSnapshot) : Coded Bytes := do
  let nameBytes ← stringBytes name "table name"
  let fileBytes ← stringBytes table.fileName "table filename"
  let (memoTag, memoBytes) := table.memo.getD (noMemo, [])
  refuseIf (memoTag ≠ noMemo ∧ memoTag > 2) s!"catalog MVCC memo format tag {memoTag} is invalid"
  let schemaBytes := table.schema.getD []
  .ok (nameBytes ++ fileBytes ++ toLeBytes 8 table.dbf.length ++ memoTag ::
    (toLeBytes 8 memoBytes.length ++ toLeBytes 8 schemaBytes.length ++ table.dbf ++ memoBytes ++
      schemaBytes))

def snapshotBytes (snapshot : Snapshot) : Coded Bytes := do
  refuseIf (snapshot.transactionId = 0) "catalog MVCC transaction ID must be positive"
  refuseIf (u32Size ≤ snapshot.tables.length) "catalog MVCC snapshot has too many tables"
  let tables ← snapshot.tables.mapM fun entry => tableBytes entry.1 entry.2
  .ok (toLeBytes 8 snapshot.transactionId ++ toLeBytes 4 snapshot.tables.length ++ tables.flatten)

def encode (history : List Snapshot) : Coded Bytes := do
  refuseIf (u32Size ≤ history.length) "catalog MVCC history has too many snapshots"
  let snapshots ← history.mapM snapshotBytes
  .ok (magic ++ version :: (toLeBytes 4 history.length ++ snapshots.flatten))

abbrev Reader (α : Type) := StateT Bytes (Except CatalogError) α

def taken (length : Nat) (label : String) : Reader Bytes := fun bytes =>
  if bytes.length < length then refused s!"catalog MVCC {label} is truncated"
  else .ok (bytes.take length, bytes.drop length)

def number (width : Nat) (label : String) : Reader Nat := do
  let bytes ← taken width label
  return fromLeBytes bytes

def string (label : String) : Reader String := do
  let length ← number 4 label
  let bytes ← taken length label
  match fromUtf8? bytes with
  | some text => return text
  | none => throw (.invalid s!"catalog MVCC {label} is not UTF-8")

/-- A length may not reach beyond the bytes that are left where it stands. -/
def length (label : String) : Reader Nat := do
  let value ← number 8 s!"{label} length"
  let rest ← get
  if rest.length < value then throw (.invalid s!"catalog MVCC {label} length is truncated")
  else return value

def hasSeparator (name : String) : Bool := name.toList.any fun c => c = '/' || c = '\\'

def validateTableIdentity (name fileName : String) : Coded Unit := do
  refuseIf (name.isEmpty || hasSeparator name) "catalog MVCC table name is invalid"
  refuseIf (fileName.isEmpty || hasSeparator fileName ||
      !(Paths.extension fileName).any (eqIgnoreAsciiCase · "dbf") || Paths.fileStem fileName ≠ name)
    "catalog MVCC table filename is invalid"

def table (tables : OrderedMap String TableSnapshot) : Reader (OrderedMap String TableSnapshot) := do
  let name ← string "table name"
  let fileName ← string "table filename"
  validateTableIdentity name fileName
  let dbfLength ← length "DBF"
  let memoTag ← number 1 "memo format tag"
  refuseIf (memoTag ≠ noMemo.toNat ∧ memoTag > 2)
    s!"catalog MVCC memo format tag {memoTag} is invalid"
  let memoLength ← length "memo"
  let schemaLength ← length "schema"
  let dbf ← taken dbfLength "DBF"
  let memo ← taken memoLength "memo"
  let schema ← taken schemaLength "schema"
  refuseIf (tables.get? name).isSome "catalog MVCC snapshot contains a duplicate table"
  return tables.insert name
    { fileName
      dbf
      memo := if memoTag ≠ noMemo.toNat then some (UInt8.ofNat memoTag, memo) else none
      schema := if schemaLength ≠ 0 then some schema else none }

def tables : Nat → OrderedMap String TableSnapshot → Reader (OrderedMap String TableSnapshot)
  | 0, found => return found
  | count + 1, found => do
      let found ← table found
      tables count found

def snapshots : Nat → Option Nat → Reader (List Snapshot)
  | 0, _ => return []
  | count + 1, last => do
      let transactionId ← number 8 "transaction ID"
      refuseIf (transactionId = 0) "catalog MVCC transaction ID must be positive"
      refuseIf (last.any fun last => transactionId ≤ last)
        "catalog MVCC transaction IDs are not strictly increasing"
      let tableCount ← number 4 "table count"
      let found ← tables tableCount []
      let rest ← snapshots count (some transactionId)
      return ⟨transactionId, found⟩ :: rest

def decode (bytes : Bytes) : Coded (List Snapshot) := do
  refuseIf (bytes.length < 9 ∨ bytes.take 4 ≠ magic) "catalog MVCC history header is invalid"
  let found := slice bytes 4 5
  refuseIf (found ≠ [version]) s!"unknown catalog MVCC history version {found.headD 0}"
  let (history, rest) ← (do
    let count ← number 4 "snapshot count"
    snapshots count none : Reader (List Snapshot)).run (bytes.drop 5)
  refuseIf (rest ≠ []) "catalog MVCC history has trailing bytes"
  .ok history

def readHistory (file : Option Bytes) : Coded (List Snapshot) :=
  match file with
  | none => .ok []
  | some bytes => decode bytes

def appendSnapshot (existing : Option Bytes) (snapshot : Snapshot) : Coded Bytes := do
  let history ← readHistory existing
  refuseIf (history.getLast?.any fun current => snapshot.transactionId ≤ current.transactionId)
    s!"catalog MVCC transaction ID {snapshot.transactionId} is not newer than the history"
  encode (history ++ [snapshot])

end History

end TxBase.Catalog
