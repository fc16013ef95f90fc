import TxBase.Catalog.Actions
import TxBase.Catalog.ChangeLog
import TxBase.Catalog.Journal
import TxBase.Catalog.Snapshots
import TxBase.Dbf.Recovery

/-! Catalog transactions, `src/catalog.rs` and `src/catalog/transaction.rs`, over the directory
of a catalog.  The files of a table are taken together, and the change of several files through
the journal is one operation: it takes effect as a whole or not at all, which is what the
modules on the journal show. -/
set_option linter.dupNamespace false

namespace TxBase.Catalog
open Lib Json Dbf
open Procedure (ask collect ofExcept)

structure CatalogDisk where
  /-- The files of each table, by its name. -/
  tables : String → Disk
  state : Option Bytes
  history : Option Bytes
  cdc : Option Bytes
  sidecars : String → Option Bytes

inductive Change where
  | dbf (table : String) (bytes : Bytes)
  | memo (table : String) (memo : MemoSnapshot)
  | index (table : String) (bytes : Bytes)
  /-- All files of a table, as the installation of a snapshot leaves them. -/
  | files (table : String) (files : Disk)
  | sidecar (name : String) (bytes : Option Bytes)
  | history (bytes : Bytes)
  | cdc (bytes : Bytes)
  | withoutCdc
  | state (bytes : Bytes)
  deriving DecidableEq

namespace CatalogDisk

def setTable (disk : CatalogDisk) (name : String) (files : Disk) : CatalogDisk :=
  { disk with tables := Function.update disk.tables name files }

def apply (disk : CatalogDisk) : Change → CatalogDisk
  | .dbf name bytes => disk.setTable name { disk.tables name with dbf := some bytes }
  | .memo name memo => disk.setTable name ((disk.tables name).withMemo memo)
  | .index name bytes => disk.setTable name { disk.tables name with index := some bytes }
  | .files name files => disk.setTable name files
  | .sidecar name bytes => { disk with sidecars := Function.update disk.sidecars name bytes }
  | .history bytes => { disk with history := some bytes }
  | .cdc bytes => { disk with cdc := some bytes }
  | .withoutCdc => { disk with cdc := none }
  | .state bytes => { disk with state := some bytes }

def applyAll (disk : CatalogDisk) (changes : List Change) : CatalogDisk := changes.foldl apply disk

end CatalogDisk

/-- What a catalog asks of its directory. -/
inductive CatalogOp where
  /-- The lock of the directory is taken, and a journal that was left behind recovered. -/
  | lock
  | readState
  | readSidecar (name : String)
  /-- `DbfTable::from_path`. -/
  | openTable (name path : String)
  /-- The files of a table are read. -/
  | readTable (name : String)
  | readHistory
  /-- `Path::exists` on the change log. -/
  | cdcExists
  /-- `FileWal::open` on the change log. -/
  | openCdc
  /-- `commit_files` of the journal. -/
  | commitFiles (changes : List Change)

@[reducible] def CatalogOp.Reply : CatalogOp → Type
  | .lock => Unit
  | .readState => Option Bytes
  | .readSidecar _ => Option Bytes
  | .openTable _ _ => Res DbfTable
  | .readTable _ => Disk
  | .readHistory => Option Bytes
  | .cdcExists => Bool
  | .openCdc => Except Transaction.TransactionError (List Bytes)
  | .commitFiles _ => Unit

abbrev Reading (α : Type) := Procedure CatalogOp CatalogOp.Reply IoError (Stop CatalogError) α

abbrev Committing (α : Type) :=
  Procedure CatalogOp CatalogOp.Reply IoError (Stop CatalogTransactionError) α

def mapStop {ε δ : Type} (f : ε → δ) : Stop ε → Stop δ
  | .err error => .err (f error)
  | .panic => .panic

def Reading.committing {α : Type} (program : Reading α) : Committing α :=
  program.mapError (mapStop CatalogTransactionError.catalog)

section Exec
variable [Runtime] [Filters] [Serde] [Indexing] [SchemaExport]

def CatalogOp.exec : (op : CatalogOp) → CatalogDisk → Except IoError op.Reply × CatalogDisk
  | .lock, disk => (.ok (), disk)
  | .readState, disk => (.ok disk.state, disk)
  | .readSidecar name, disk => (.ok (disk.sidecars name), disk)
  | .openTable name path, disk =>
      let run := DbfTable.fromPath path (disk.tables name)
      (.ok run.outcome, disk.setTable name run.last)
  | .readTable name, disk => (.ok (disk.tables name), disk)
  | .readHistory, disk => (.ok disk.history, disk)
  | .cdcExists, disk => (.ok disk.cdc.isSome, disk)
  | .openCdc, disk =>
      match Transaction.FileWal.open (disk.cdc.getD []) with
      | .ok wal => (.ok (.ok wal.payloads), { disk with cdc := some wal.file })
      | .error error => (.ok (.error error), disk)
  | .commitFiles changes, disk => (.ok (), disk.applyAll changes)

end Exec

structure CatalogTable where
  name : String
  fileName : String
  deriving DecidableEq

/-- A catalog as it was opened: its tables, and the snapshot it shows if it is historical. -/
structure Catalog where
  root : String
  tables : List CatalogTable
  historicalSnapshot : Option Snapshot
  /-- The tables stand in the order of their names, each once. -/
  ascending : tables.Pairwise fun left right => left.name < right.name

/-- `"\"name-{hash:016x}\""`. -/
def quotedTag (name : String) (hash : Nat) : String :=
  "\"" ++ name ++ "-" ++ hex (toBeBytes 8 hash) ++ "\""

def representationTag [Runtime] (schema : Value) : String :=
  quotedTag "txbase-catalog" (fnv1a schema.toVec)

def tableTag [Runtime] (table : DbfTable) : String := quotedTag "txbase" table.representationHash

def schemaDocument (transactionId : Option Nat) (tables : List Value) : Value :=
  .ofMembers
    [("format", .string "txbase-catalog"),
     ("transaction_id", (transactionId.map Value.ofNat).getD .null),
     ("tables", .array tables)]

def tableDocument [Runtime] [SchemaJson] (entry : CatalogTable) (table : DbfTable) : Value :=
  .ofMembers
    [("name", .string entry.name), ("file", .string entry.fileName), ("schema", table.schemaJson)]

namespace Catalog

def perform (op : CatalogOp) : Reading op.Reply := do
  match ← ask op with
  | .ok reply => .done reply
  | .error error => .fail (.err (.io error))

def performOn (name : String) (op : CatalogOp) : Reading op.Reply := do
  match ← ask op with
  | .ok reply => .done reply
  | .error error => .fail (.err (.table name (.io error.message)))

def entry? (catalog : Catalog) (name : String) : Option CatalogTable :=
  catalog.tables.find? fun entry => entry.name = name

def isHistorical (catalog : Catalog) : Bool := catalog.historicalSnapshot.isSome

def pathOf (catalog : Catalog) (entry : CatalogTable) : String :=
  catalog.root ++ "/" ++ entry.fileName

def readTransactionIdLocked : Reading (Option Nat) := do
  match ← perform .readState with
  | none => .done none
  | some bytes => do
      let transactionId ← ofExcept (Outcome.lift (decodeTransactionId bytes))
      .done (some transactionId)

def nextTransactionIdLocked : Reading Nat := do
  let state ← perform .readState
  ofExcept (Outcome.lift (nextTransactionId state))

def acquireLock : Reading Unit := do
  perform .lock
  let _ ← readTransactionIdLocked
  .done ()

def transactionId (catalog : Catalog) : Reading (Option Nat) :=
  match catalog.historicalSnapshot with
  | some snapshot => .done (some snapshot.transactionId)
  | none => do
      acquireLock
      readTransactionIdLocked

section Tables
variable [Runtime] [Filters] [Serde]

def openTableUnlocked (catalog : Catalog) (name : String) : Reading DbfTable := do
  match catalog.entry? name with
  | none => .fail (.err (.invalid s!"table not found: {name}"))
  | some entry =>
      match catalog.historicalSnapshot with
      | some snapshot =>
          match snapshot.tables.get? name with
          | none => .fail (.err (.invalid s!"table not found: {name}"))
          | some table => ofExcept (onTable entry.name
              (DbfTable.fromCatalogSnapshot table.dbf table.memo table.schema))
      | none => do
          let table ← performOn entry.name (.openTable entry.name (catalog.pathOf entry))
          ofExcept (onTable entry.name table)

def openTables (catalog : Catalog) : Reading Tables :=
  collect catalog.tables fun entry => do
    let table ← catalog.openTableUnlocked entry.name
    .done (entry.name, table)

variable [SchemaJson]

def schemaJsonUnlocked (catalog : Catalog) : Reading Value := do
  let transactionId ← (match catalog.historicalSnapshot with
    | some snapshot => .done (some snapshot.transactionId)
    | none => readTransactionIdLocked : Reading (Option Nat))
  let tables ← collect catalog.tables fun entry => do
    let table ← catalog.openTableUnlocked entry.name
    .done (tableDocument entry table)
  .done (schemaDocument transactionId tables)

def schemaRepresentationUnlocked (catalog : Catalog) : Reading (Value × String) := do
  let schema ← catalog.schemaJsonUnlocked
  .done (schema, representationTag schema)

def schemaRepresentation (catalog : Catalog) : Reading (Value × String) := do
  acquireLock
  catalog.schemaRepresentationUnlocked

end Tables

def readSidecarBytes (name : String) : Reading (Option Bytes) := do
  acquireLock
  perform (.readSidecar name)

def requireTransactionId (expected : Option Nat) : Committing Unit :=
  match expected with
  | none => .done ()
  | some expected => do
      let actual ← readTransactionIdLocked.committing
      if actual.getD 0 ≠ expected then
        .fail (.err (.transactionPreconditionFailed expected (actual.getD 0)))
      else .done ()

end Catalog

end TxBase.Catalog
