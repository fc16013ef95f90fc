import TxBase.Dbf.Load
import TxBase.Json.Equality

/-! Row versions, `src/dbf/row_mvcc.rs`: what a commit records of the rows of a table,
compared with the snapshot committed before it.  A snapshot is read back as a load
would read it, `from_snapshot` of `src/dbf/mvcc.rs`. -/
namespace TxBase.Dbf
open Lib Json
open Outcome (lift fail)

structure RowChange where
  epoch : Nat
  recordNumber : Nat
  deleted : Bool
  values : Map
  deriving DecidableEq

structure Snapshot where
  dbf : Bytes
  memo : Option MemoSnapshot
  schema : Option Bytes
  rowEpoch : Nat
  rowChanges : Option (List RowChange)
  deriving DecidableEq

def sameValues (left right : Map) : Bool := (Value.object left).eqv (.object right)

def RowChange.eqv (left right : RowChange) : Bool :=
  left.epoch = right.epoch && left.recordNumber = right.recordNumber &&
    left.deleted = right.deleted && sameValues left.values right.values

def eqvList {α : Type} (eqv : α → α → Bool) : List α → List α → Bool
  | [], [] => true
  | left :: lefts, right :: rights => eqv left right && eqvList eqv lefts rights
  | _, _ => false

def eqvOption {α : Type} (eqv : α → α → Bool) : Option α → Option α → Bool
  | none, none => true
  | some left, some right => eqv left right
  | _, _ => false

/-- The values of a row after every zero has lost its sign. -/
def canonicalValues (values : Map) : Value := (Value.object values).canonical

theorem sameValues_iff {left right : Map} :
    sameValues left right = true ↔ canonicalValues left = canonicalValues right :=
  Value.eqv_iff _ _

section Eqv
variable {α β : Type} {eqv : α → α → Bool} {canonical : α → β}

theorem eqvOption_iff (h : ∀ left right, eqv left right = true ↔ canonical left = canonical right)
    {left right : Option α} :
    eqvOption eqv left right = true ↔ left.map canonical = right.map canonical := by
  cases left <;> cases right <;> simp [eqvOption, h]

theorem eqvList_iff (h : ∀ left right, eqv left right = true ↔ canonical left = canonical right)
    {left right : List α} :
    eqvList eqv left right = true ↔ left.map canonical = right.map canonical := by
  induction left generalizing right with
  | nil => cases right <;> simp [eqvList]
  | cons head rest ih => cases right <;> simp [eqvList, h, ih]

end Eqv

def Snapshot.eqv (left right : Snapshot) : Bool :=
  left.dbf = right.dbf && left.memo = right.memo && left.schema = right.schema &&
    left.rowEpoch = right.rowEpoch &&
    eqvOption (eqvList RowChange.eqv) left.rowChanges right.rowChanges

def rowChange (record : DbfRecord) (epoch : Nat) : RowChange :=
  ⟨epoch, record.number, record.deleted, record.values⟩

def currentRows (table : DbfTable) (epoch : Nat) : List RowChange :=
  table.records.map fun record => rowChange record epoch

def previousRows (table : DbfTable) (epoch : Nat) : List RowChange :=
  table.records.map fun record => ⟨epoch, record.number, true, record.values⟩

def sameRow (left right : DbfRecord) : Bool :=
  left.deleted = right.deleted && sameValues left.values right.values

def withChanges (snapshot : Snapshot) (rowEpoch : Nat) (changes : List RowChange) : Snapshot :=
  { snapshot with rowEpoch := rowEpoch, rowChanges := some changes }

def effectiveEpoch (snapshot : Snapshot) : Nat := max snapshot.rowEpoch 1

/-- The rows that differ from the rows before, in order. -/
def changedRows (previous current : List DbfRecord) (epoch : Nat) : List RowChange :=
  (current.zipIdx.filter fun entry =>
    !(previous[entry.2]?.any fun old => sameRow old entry.1)).map fun entry =>
      rowChange entry.1 epoch

section Commit
variable [Runtime] [Filters] [Serde]

/-- The memo file of a snapshot; a table with memo fields needs one. -/
def openSnapshotMemo (memo : Option MemoSnapshot) (_version : UInt8) : Res (Option MemoFile) :=
  match memo with
  | none => fail (.invalid "MVCC snapshot is missing its memo sidecar")
  | some memo => do
      let file ← lift (MemoFile.fromBytes memo.bytes memo.format)
      .ok (some file)

def snapshotSchema (schema : Option Bytes) : Checked (Option SchemaMetadata) :=
  match schema with
  | none => .ok none
  | some bytes => do
      let metadata ← SchemaMetadata.fromBytes bytes
      .ok (some metadata)

def fromSnapshot (snapshot : Snapshot) : Res DbfTable := do
  let schema ← lift (snapshotSchema snapshot.schema)
  DbfTable.assemble snapshot.dbf (schema.bind SchemaMetadata.encoding) schema
    (openSnapshotMemo snapshot.memo)

/-- Whether the rows of a commit get a new epoch. -/
def startsEpoch (previous current : Snapshot) (previousTable currentTable : DbfTable)
    (forceNewEpoch : Bool) : Bool :=
  forceNewEpoch || previous.schema ≠ current.schema ||
    previousTable.fields ≠ currentTable.fields ||
    previousTable.header.recordLength ≠ currentTable.header.recordLength ||
    currentTable.records.length < previousTable.records.length

def changesBetween (previous current : Snapshot) (previousTable currentTable : DbfTable)
    (forceNewEpoch : Bool) : Checked Snapshot :=
  let previousEpoch := effectiveEpoch previous
  if startsEpoch previous current previousTable currentTable forceNewEpoch then do
    reject (u64Size ≤ previousEpoch + 1) "row MVCC epoch exhausted"
    .ok (withChanges current (previousEpoch + 1)
      (previousRows previousTable previousEpoch ++ currentRows currentTable (previousEpoch + 1)))
  else
    .ok (withChanges current previousEpoch
      (changedRows previousTable.records currentTable.records previousEpoch))

def changesForCommit (previous : Option Snapshot) (current : Snapshot) (forceNewEpoch : Bool) :
    Res Snapshot := do
  let currentTable ← fromSnapshot current
  match previous with
  | none => .ok (withChanges current 1 (currentRows currentTable 1))
  | some previous => do
      let previousTable ← fromSnapshot previous
      lift (changesBetween previous current previousTable currentTable forceNewEpoch)

end Commit

end TxBase.Dbf
