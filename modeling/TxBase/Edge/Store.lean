import TxBase.Lib.OrderedMap
import TxBase.Lib.Procedure

/-! The objects of a table in an object store, after `src/edge/protocol.rs` and
`src/edge/page_manifest.rs`, and the operations of `src/edge/store.rs` as `src/edge/memory.rs`
executes them.  An object that the source keeps as JSON text is the value of that text: the texts
of two values are equal when the values are. -/
namespace TxBase.Edge
open Lib
open Procedure (pass)

/-- The keys of a table, behind the prefix of its namespace. -/
inductive Key where
  | manifest
  | wal (generation : Nat)
  | legacy (generation : Nat)
  | root (generation : Nat)
  | page (generation index : Nat)
  deriving DecidableEq

namespace Key

def text : Key → String
  | .manifest => "manifest.json"
  | .wal generation => s!"wal/{generation}.json"
  | .legacy generation => s!"snapshots/{generation}.xbf"
  | .root generation => s!"snapshots/{generation}.pages.json"
  | .page generation index => s!"pages/{generation}/{index}.bin"

instance : LT Key := ⟨fun left right => left.text < right.text⟩

instance : DecidableLT Key := fun left right => inferInstanceAs (Decidable (left.text < right.text))

/-- Roots and pages, which are never overwritten. -/
def isData : Key → Bool
  | .legacy _ | .root _ | .page _ _ => true
  | .manifest | .wal _ => false

end Key

inductive ObjectStoreError where
  | invalid (message : String)
  | conflict (message : String)
  | missing (message : String)
  deriving DecidableEq

abbrev Checked (α : Type) := Except ObjectStoreError α

def refuse (condition : Prop) [Decidable condition] (message : String) : Checked Unit :=
  if condition then .error (.invalid message) else .ok ()

structure PageReference where
  generation : Nat
  length : Nat
  crc32c : Nat
  deriving DecidableEq

structure PageManifest where
  version : Nat
  generation : Nat
  snapshotLength : Nat
  pageSize : Nat
  pages : List PageReference
  deriving DecidableEq

structure Manifest where
  version : Nat
  generation : Nat
  root : Key
  walHead : Nat
  history : List Nat
  deriving DecidableEq

structure PendingCommit where
  version : Nat
  baseGeneration : Option Nat
  targetGeneration : Nat
  root : Key
  walHead : Nat
  pageManifest : Option PageManifest
  deriving DecidableEq

/-- What a key holds: the value of a JSON text, or bytes that are none. -/
inductive Object where
  | manifest (manifest : Manifest)
  | pending (pending : PendingCommit)
  | pageManifest (pageManifest : PageManifest)
  | bytes (bytes : Bytes)
  deriving DecidableEq

/-- XBF tables and their encoding under limits, the checksum, and the texts of JSON. -/
class Formats where
  Table : Type
  Limits : Type
  maxFileSize : Limits → Nat
  generation : Table → Nat
  encode : Limits → Table → Except String Bytes
  decode : Limits → Bytes → Except String Table
  crc32c : Bytes → Nat
  /-- The length of the text of an object. -/
  textLength : Object → Nat
  jsonError : Object → String

def pageSize : Nat := 4 * 1024 * 1024
def pageManifestVersion : Nat := 1
def pageManifestBytesLimit : Nat := 16 * 1024 * 1024
def manifestVersion : Nat := 2
def pendingVersion : Nat := 2

section Texts
variable [Formats]

def unreadable {α : Type} (object : Object) : Checked α :=
  .error (.invalid s!"JSON encoding failed: {Formats.jsonError object}")

namespace PageManifest

/-- The length of a page, which only the last one does not fill. -/
def expectedLength (manifest : PageManifest) (index : Nat) : Nat :=
  if index + 1 = manifest.pages.length then manifest.snapshotLength - Edge.pageSize * index
    else Edge.pageSize

def validate (manifest : PageManifest) (generation maxFileSize : Nat) : Checked Unit := do
  refuse (manifest.version ≠ pageManifestVersion)
    s!"unsupported page-manifest version {manifest.version}"
  refuse (manifest.generation ≠ generation)
    s!"page-manifest generation {manifest.generation} does not match root generation {generation}"
  refuse (manifest.pageSize ≠ Edge.pageSize) s!"unsupported page size {manifest.pageSize}"
  refuse (manifest.snapshotLength = 0 ∨ maxFileSize < manifest.snapshotLength)
    "page-manifest snapshot length is outside the configured limit"
  refuse (manifest.snapshotLength / Edge.pageSize +
      (if manifest.snapshotLength % Edge.pageSize = 0 then 0 else 1) ≠ manifest.pages.length)
    "page-manifest page count does not match snapshot length"
  match manifest.pages.zipIdx.find? fun (page, index) =>
      page.length ≠ manifest.expectedLength index ∨ generation < page.generation with
  | some (_, index) =>
      .error (.invalid s!"page-manifest entry {index} has an invalid length or generation")
  | none => .ok ()

def checkLength (object : Object) : Checked Unit :=
  refuse (pageManifestBytesLimit < Formats.textLength object)
    "page manifest exceeds the configured metadata limit"

/-- The limit on the snapshot length is `u64::MAX` here. -/
def toBytes (manifest : PageManifest) : Checked Object := do
  manifest.validate manifest.generation (2 ^ 64 - 1)
  checkLength (.pageManifest manifest)
  .ok (.pageManifest manifest)

def fromBytes (object : Object) (generation maxFileSize : Nat) : Checked PageManifest := do
  checkLength object
  match object with
  | .pageManifest manifest => do
      manifest.validate generation maxFileSize
      .ok manifest
  | _ => unreadable object

end PageManifest

/-- `ends_with(".xbf")` and `ends_with(".pages.json")` of a root. -/
def Key.isLegacy : Key → Bool
  | .legacy _ => true
  | _ => false

def Key.isRoot : Key → Bool
  | .root _ => true
  | _ => false

namespace Manifest

def validate (manifest : Manifest) : Checked Unit := do
  refuse (manifest.version ≠ 1 ∧ manifest.version ≠ manifestVersion)
    s!"unsupported manifest version {manifest.version}"
  refuse (manifest.version = 1 ∧ ¬ manifest.root.isLegacy ∨
      manifest.version = manifestVersion ∧ ¬ manifest.root.isLegacy ∧ ¬ manifest.root.isRoot)
    s!"manifest root is incompatible with version {manifest.version}"
  if manifest.history ≠ [] then do
    refuse (¬ manifest.history.IsChain (· < ·)) "manifest history must be strictly increasing"
    refuse (manifest.history.getLast? ≠ some manifest.generation)
      "manifest history must end at the current generation"
  else .ok ()

def toBytes (manifest : Manifest) : Checked Object := do
  manifest.validate
  .ok (.manifest manifest)

def fromBytes : Object → Checked Manifest
  | .manifest manifest => do
      manifest.validate
      .ok manifest
  | object => unreadable object

end Manifest

namespace PendingCommit

def validate (pending : PendingCommit) : Checked Unit := do
  refuse (pending.version ≠ 1 ∧ pending.version ≠ pendingVersion)
    s!"unsupported pending commit version {pending.version}"
  refuse (pending.baseGeneration.any fun base => pending.targetGeneration ≤ base)
    "pending commit generation is not newer than its base"
  match pending.version, pending.pageManifest with
  | 1, none =>
      refuse (¬ pending.root.isLegacy) "pending commit root does not match its page manifest version"
  | 2, some manifest =>
      if pending.root.isRoot ∧ manifest.generation = pending.targetGeneration then do
        let _ ← manifest.toBytes
        .ok ()
      else .error (.invalid "pending commit root does not match its page manifest version")
  | _, _ => .error (.invalid "pending commit root does not match its page manifest version")

def toBytes (pending : PendingCommit) : Checked Object := do
  pending.validate
  .ok (.pending pending)

def fromBytes : Object → Checked PendingCommit
  | .pending pending => do
      pending.validate
      .ok pending
  | object => unreadable object

end PendingCommit

end Texts

def manifestHistory (manifest : Manifest) : List Nat :=
  if manifest.history = [] then [manifest.generation] else manifest.history

def historyWithGeneration (current : Option Manifest) (generation : Nat) : Checked (List Nat) := do
  let history := current.elim [] manifestHistory
  refuse (history.getLast?.any fun previous => generation ≤ previous)
    s!"XBF generation {generation} is not newer than the manifest history"
  .ok (history ++ [generation])

abbrev Store := OrderedMap Key Object

/-- The prefixes that are listed. -/
inductive Area where
  | wal
  | snapshots
  | pages
  | generation (generation : Nat)

def Area.holds : Area → Key → Bool
  | .wal, .wal _ => true
  | .snapshots, .legacy _ | .snapshots, .root _ => true
  | .pages, .page _ _ => true
  | .generation listed, .legacy other | .generation listed, .root other => decide (other = listed)
  | _, _ => false

inductive StoreOp where
  | get (key : Key)
  | putIfAbsent (key : Key) (object : Object)
  | compareAndSwap (key : Key) (expected : Option Object) (replacement : Object)
  | delete (key : Key)
  | list (area : Area)

abbrev StoreOp.Reply : StoreOp → Type
  | .get _ => Option Object
  | .list _ => List Key
  | _ => Unit

def exec : (op : StoreOp) → Store → Checked op.Reply × Store
  | .get key, store => (.ok (store.get? key), store)
  | .putIfAbsent key object, store =>
      match store.get? key with
      | none => (.ok (), store.insert key object)
      | some existing =>
          if existing = object then (.ok (), store)
          else (.error (.conflict s!"object already exists with different bytes: {key.text}"), store)
  | .compareAndSwap key expected replacement, store =>
      if store.get? key = expected then (.ok (), store.insert key replacement)
      else (.error (.conflict s!"compare-and-swap precondition failed: {key.text}"), store)
  | .delete key, store => (.ok (), store.erase key)
  | .list area, store => (.ok (store.keys.filter area.holds), store)

abbrev Storing (α : Type) := Procedure StoreOp StoreOp.Reply ObjectStoreError ObjectStoreError α

namespace ObjectStore

def get (key : Key) : Storing (Option Object) := pass (StoreOp.get key)

def putIfAbsent (key : Key) (object : Object) : Storing (Checked Unit) :=
  Procedure.ask (StoreOp.putIfAbsent key object)

def compareAndSwap (key : Key) (expected : Option Object) (replacement : Object) : Storing Unit :=
  pass (StoreOp.compareAndSwap key expected replacement)

def delete (key : Key) : Storing Unit := pass (StoreOp.delete key)

def list (area : Area) : Storing (List Key) := pass (StoreOp.list area)

end ObjectStore

end TxBase.Edge
