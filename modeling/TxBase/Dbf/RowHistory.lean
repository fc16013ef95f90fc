import Mathlib.Data.List.Sort
import TxBase.Dbf.Mvcc

/-! Reads of single rows and garbage collection, `src/dbf/row_mvcc.rs` and
`src/dbf/mvcc.rs`: the history tells what a row was at a transaction, and keeps only the
newest snapshots when it is collected, with some older versions of each row if asked. -/
namespace TxBase.Dbf
open Lib Json
open Outcome (lift)

structure RowId where
  epoch : Nat
  recordNumber : Nat
  deriving DecidableEq

/-- By epoch, then by record number. -/
instance : LinearOrder RowId where
  le left right := left.epoch < right.epoch ∨
    left.epoch = right.epoch ∧ left.recordNumber ≤ right.recordNumber
  lt left right := left.epoch < right.epoch ∨
    left.epoch = right.epoch ∧ left.recordNumber < right.recordNumber
  le_refl _ := .inr ⟨rfl, Nat.le_refl _⟩
  le_trans _ _ _ _ _ := by omega
  lt_iff_le_not_ge _ _ := by omega
  le_antisymm left right _ _ := by
    obtain ⟨epoch, recordNumber⟩ := left
    obtain ⟨otherEpoch, otherNumber⟩ := right
    simp only [RowId.mk.injEq] at *
    omega
  le_total _ _ := by omega
  toDecidableLE left right :=
    inferInstanceAs (Decidable (left.epoch < right.epoch ∨
      left.epoch = right.epoch ∧ left.recordNumber ≤ right.recordNumber))
  toDecidableLT left right :=
    inferInstanceAs (Decidable (left.epoch < right.epoch ∨
      left.epoch = right.epoch ∧ left.recordNumber < right.recordNumber))
  toDecidableEq := inferInstance

structure RowVersion where
  id : RowId
  transactionId : Nat
  deleted : Bool
  values : Map
  deriving DecidableEq

def RowChange.id (change : RowChange) : RowId := ⟨change.epoch, change.recordNumber⟩

def toVersion (transactionId : Nat) (change : RowChange) : RowVersion :=
  ⟨change.id, transactionId, change.deleted, change.values⟩

def validateRecordNumber (recordNumber : Nat) : Checked Unit :=
  reject (recordNumber = 0) "MVCC record number must be positive"

def validateId (id : RowId) : Checked Unit := do
  reject (id.epoch = 0) "MVCC row epoch must be positive"
  validateRecordNumber id.recordNumber

/-- The version after one change: a change of the row replaces it. -/
def noteChange (id : RowId) (transactionId : Nat) (current : Option RowVersion)
    (change : RowChange) : Option RowVersion :=
  if change.id = id then some (toVersion transactionId change) else current

/-- The last version among the changes up to a transaction. -/
def versionAt (changes : OrderedMap Nat (List RowChange)) (transactionId : Nat) (id : RowId) :
    Option RowVersion :=
  (changes.filter fun entry => entry.1 ≤ transactionId).foldl
    (fun current entry => entry.2.foldl (noteChange id entry.1) current) none

def rowAt (changes : OrderedMap Nat (List RowChange)) (transactionId : Nat) (id : RowId) :
    Checked (Option RowVersion) := do
  reject (transactionId = 0) "MVCC transaction ID must be positive"
  validateId id
  reject (changes.get? transactionId).isNone
    s!"MVCC row history transaction {transactionId} is not retained"
  .ok (versionAt changes transactionId id)

/-- The changes before a transaction by row, each list in the order of the commits. -/
def changesByRow (changes : OrderedMap Nat (List RowChange)) (firstRetained : Nat) :
    OrderedMap RowId (List (Nat × RowChange)) :=
  (changes.filter fun entry => entry.1 < firstRetained).foldl
    (fun byRow entry => entry.2.foldl
      (fun byRow change => byRow.push change.id (entry.1, change)) byRow) []

/-- The order of `(transaction_id, epoch, record_number)`. -/
def detachedBefore (left right : Nat × RowChange) : Prop :=
  left.1 < right.1 ∨ left.1 = right.1 ∧ left.2.id ≤ right.2.id

instance : DecidableRel detachedBefore := fun left right =>
  inferInstanceAs (Decidable (left.1 < right.1 ∨ left.1 = right.1 ∧ left.2.id ≤ right.2.id))

def detachedHistory (changes : OrderedMap Nat (List RowChange))
    (firstRetained keepLastPerRow : Nat) :
    OrderedMap Nat (List RowChange) :=
  let selected := (changesByRow changes firstRetained).flatMap fun entry =>
    entry.2.reverse.take keepLastPerRow
  (selected.insertionSort detachedBefore).foldl
    (fun detached entry => detached.push entry.1 entry.2) []

section History
variable [Runtime] [Filters] [Serde]

def changesForSnapshot (snapshot : Snapshot) : Res (List RowChange) :=
  match snapshot.rowChanges with
  | some changes => .ok changes
  | none => do
      let table ← fromSnapshot snapshot
      .ok (currentRows table (effectiveEpoch snapshot))

def snapshotChanges : OrderedMap Nat Snapshot → Res (OrderedMap Nat (List RowChange))
  | [] => .ok []
  | (transactionId, snapshot) :: rest => do
      let changes ← changesForSnapshot snapshot
      let others ← snapshotChanges rest
      .ok ((transactionId, changes) :: others)

/-- A row history stands for a transaction whose snapshot is gone. -/
def noteRowHistory (changes : OrderedMap Nat (List RowChange)) :
    MvccRecord → Checked (OrderedMap Nat (List RowChange))
  | .rowHistory transactionId rowChanges => do
      reject (changes.get? transactionId).isSome
        s!"MVCC row history transaction {transactionId} is duplicated"
      .ok (changes.insert transactionId rowChanges)
  | _ => .ok changes

def committedRowChanges (records : List MvccRecord) : Res (OrderedMap Nat (List RowChange)) := do
  let snapshots ← lift (committedSnapshots records)
  let changes ← snapshotChanges snapshots
  lift (records.foldlM noteRowHistory changes)

def mvccReadRow (transactionId : Nat) (id : RowId) (log : LogFile) : Res (Option RowVersion) := do
  let records ← lift (readMvccRecords log)
  let changes ← committedRowChanges records
  lift (rowAt changes transactionId id)

/-- The retained snapshots anew: the first is a baseline with all its rows. -/
def compactSnapshotsFrom (previous : Option Snapshot) :
    List (Nat × Snapshot) → Res (List (Nat × Snapshot))
  | [] => .ok []
  | (transactionId, current) :: rest => do
      let forceNewEpoch := previous.any fun previous =>
        current.rowEpoch ≠ 0 && current.rowEpoch ≠ effectiveEpoch previous
      let rebuilt ← changesForCommit previous current forceNewEpoch
      let others ← compactSnapshotsFrom (some rebuilt) rest
      .ok ((transactionId, rebuilt) :: others)

def compactSnapshots (snapshots : List (Nat × Snapshot)) : Res (List (Nat × Snapshot)) :=
  compactSnapshotsFrom none snapshots

def rowHistoryRecords : OrderedMap Nat (List RowChange) → Checked (List Bytes)
  | [] => .ok []
  | (transactionId, changes) :: rest => do
      let record ← encodeRowHistory transactionId changes
      checkRecordSize record
      let others ← rowHistoryRecords rest
      .ok (record :: others)

def snapshotRecords : List (Nat × Snapshot) → Checked (List Bytes)
  | [] => .ok []
  | (transactionId, snapshot) :: rest => do
      let prepare ← encodePrepare transactionId snapshot
      checkRecordSize prepare
      checkRecordSize (encodeCommit transactionId)
      let others ← snapshotRecords rest
      .ok (prepare :: encodeCommit transactionId :: others)

/-- The older versions that are kept beside the retained snapshots. -/
def detachedFor (keepRows : Option Nat) (retained : List (Nat × Snapshot))
    (changes : OrderedMap Nat (List RowChange)) : OrderedMap Nat (List RowChange) :=
  match keepRows, retained.head? with
  | some keepRows, some (firstRetained, _) => detachedHistory changes firstRetained keepRows
  | _, _ => []

/-- The transactions whose snapshots are retained, and the history that replaces the one
there was. -/
def gcWithRowRetention (keepLast : Nat) (keepRows : Option Nat) (log : LogFile) :
    Res (List Nat × LogFile) := do
  lift (reject (keepLast = 0) "MVCC GC keep count must be positive")
  lift (reject (keepRows = some 0) "MVCC row retention count must be positive")
  if log = .absent then .ok ([], .absent)
  else do
    let records ← lift (readMvccRecords log)
    let snapshots ← lift (committedSnapshots records)
    let changes ← committedRowChanges records
    let retained ← compactSnapshots (snapshots.reverse.take keepLast).reverse
    let detached ← lift (rowHistoryRecords (detachedFor keepRows retained changes))
    let images ← lift (snapshotRecords retained)
    .ok (retained.map Prod.fst, .records (detached ++ images))

end History

end TxBase.Dbf
