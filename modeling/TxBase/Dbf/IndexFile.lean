import TxBase.Dbf.Load

/-! The index sidecar of a table as a save meets it, `src/index/commit.rs` and
`src/index/storage.rs`: it is rebuilt when its source or its entries no longer fit, and
carries fingerprints of the files it was built from.  What an index holds is a parameter. -/
namespace TxBase.Dbf
open Lib
open Durable (ask forSome)
open Outcome (lift)

structure FileFingerprint where
  length : Nat
  hash : Nat
  deriving DecidableEq

structure SourceFingerprint where
  dbf : FileFingerprint
  memo : Option FileFingerprint
  deriving DecidableEq

def fnv1a (bytes : Bytes) : Nat :=
  bytes.foldl (fun hash byte => (hash ^^^ byte.toNat) * 1099511628211 % u64Size)
    14695981039346656037

def fingerprintBytes (bytes : Bytes) : FileFingerprint := ⟨bytes.length, fnv1a bytes⟩

/-- An index file: its source, and the definitions, entries and statistics that the
module `index` builds, reads and writes; its errors are texts. -/
class Indexing where
  File : Type
  source : File → SourceFingerprint
  toVecPretty : File → Except String Bytes
  fromSlice : Bytes → Except String File
  validateShape : File → Except String Unit
  rebuild : File → List FieldDescriptor → List DbfRecord → SourceFingerprint → Except String File
  sameIndexes : File → File → Bool

/-- The index of a table that has none. -/
@[reducible] def Indexing.none : Indexing where
  File := Empty
  source file := nomatch file
  toVecPretty file := nomatch file
  fromSlice _ := .error "refused"
  validateShape file := nomatch file
  rebuild file := nomatch file
  sameIndexes file := nomatch file

def indexSnapshotMagic : Bytes := [0x54, 0x58, 0x44, 0x49]

def indexed {α : Type} : Except String α → Checked α
  | .ok value => .ok value
  | .error message => invalid s!"index sidecar error: {message}"

def fileFingerprint (file : Option Bytes) : Except String FileFingerprint :=
  match file with
  | some bytes => .ok (fingerprintBytes bytes)
  | none => .error "index I/O error: No such file or directory"

namespace Disk

def sourceFingerprint (disk : Disk) : Except String SourceFingerprint := do
  let dbf ← fileFingerprint disk.dbf
  .ok ⟨dbf, disk.memo.map fun memo => fingerprintBytes memo.bytes⟩

/-- The source of an index for an image that is about to be written. -/
def sourceFingerprintFor (disk : Disk) (dbf : Bytes) (memo : Option Bytes) : SourceFingerprint :=
  ⟨fingerprintBytes dbf, disk.memo.map fun sidecar => fingerprintBytes (memo.getD sidecar.bytes)⟩

end Disk

section Index
variable [Indexing]

def readSidecar (bytes : Bytes) : Except String Indexing.File := do
  let index ← Indexing.fromSlice bytes
  Indexing.validateShape index
  .ok index

/-- The index with its definitions and the rows of the table; none if it fits already. -/
def refreshedIndex (disk : Disk) (table : DbfTable) (dbf : Bytes) (memo : Option Bytes) :
    Except String (Option Indexing.File) :=
  match disk.index with
  | none => .ok none
  | some bytes => do
      let existing ← readSidecar bytes
      let source := disk.sourceFingerprintFor dbf memo
      let index ← Indexing.rebuild existing table.fields table.records source
      .ok (if Indexing.source existing = source && Indexing.sameIndexes existing index then none
        else some index)

/-- The index that a save has to write, as its file will hold it. -/
def refreshedBytes (disk : Disk) (table : DbfTable) (dbf : Bytes) (memo : Option Bytes) :
    Except String (Option Bytes) := do
  match ← refreshedIndex disk table dbf memo with
  | none => .ok none
  | some index => do
      let bytes ← Indexing.toVecPretty index
      .ok (some bytes)

def pendingSnapshotPayload (disk : Disk) (table : DbfTable) (dbf : Bytes) (memo : Option Bytes) :
    Except String (Option Bytes) := do
  let bytes ← refreshedBytes disk table dbf memo
  .ok (bytes.map (indexSnapshotMagic ++ ·))

def decodeSnapshotPayload (payload : Bytes) : Except String (Option Bytes) :=
  match afterMagic indexSnapshotMagic payload with
  | none => .ok none
  | some bytes => do
      let _ ← readSidecar bytes
      .ok (some bytes)

/-- The bytes that applying a payload writes, beside the files as they are. -/
def planApply (payload : Bytes) (disk : Disk) : Except String (Option Bytes) := do
  match ← decodeSnapshotPayload payload with
  | none => .ok none
  | some bytes => do
      let index ← Indexing.fromSlice bytes
      let source ← disk.sourceFingerprint
      if Indexing.source index ≠ source then .error "index sidecar is stale"
      else .ok (some bytes)

def applySnapshotPayload (payload : Bytes) : Saving Unit := do
  let bytes ← ask fun disk => lift (indexed (planApply payload disk))
  forSome bytes replaceIndex

def refreshIfPresent (table : DbfTable) : Saving Unit := do
  let bytes ← ask fun disk => lift (indexed (refreshedBytes disk table table.bytes none))
  forSome bytes replaceIndex

end Index

end TxBase.Dbf
