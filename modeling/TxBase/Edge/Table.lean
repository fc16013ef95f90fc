import TxBase.Edge.Store
import TxBase.Lib.Searching

/-! A table in an object store: `src/edge/table.rs` with the pages of `src/edge/pages.rs`. -/
namespace TxBase.Edge
open Lib
open Procedure (ofExcept collect forEach)
open ObjectStore (get putIfAbsent compareAndSwap delete list)

variable [Formats]

def putIfAbsentOrMatching (key : Key) (object : Object) : Storing Unit := do
  match ← putIfAbsent key object with
  | .ok () => pure ()
  | .error (.conflict message) =>
      if (← get key) = some object then pure () else .fail (.conflict message)
  | .error error => .fail error

def chunks (snapshot : Bytes) : List Bytes :=
  (List.range ((snapshot.length + pageSize - 1) / pageSize)).map fun index =>
    (snapshot.drop (pageSize * index)).take pageSize

def loadPreviousManifest : Option Key → Storing (Option PageManifest)
  | some (.root generation) => do
      match ← get (.root generation) with
      | none => .fail (.missing (Key.root generation).text)
      | some object => some <$> ofExcept (PageManifest.fromBytes object generation (2 ^ 64 - 1))
  | _ => pure none

def reusedGeneration (previous : Option PageManifest) (index : Nat) (bytes : Bytes) :
    Storing (Option Nat) :=
  match previous.bind (·.pages[index]?) with
  | none => pure none
  | some page =>
      if page.length = bytes.length then do
        match ← get (.page page.generation index) with
        | none => .fail (.missing (Key.page page.generation index).text)
        | some old => pure (if old = .bytes bytes then some page.generation else none)
      else pure none

def planPage (generation : Nat) (previous : Option PageManifest)
    (entry : Bytes × Nat) : Storing PageReference := do
  let reused ← reusedGeneration previous entry.2 entry.1
  pure ⟨reused.getD generation, entry.1.length, Formats.crc32c entry.1⟩

def makeManifest (generation : Nat) (previousRoot : Option Key) (snapshot : Bytes) :
    Storing PageManifest := do
  let previous ← loadPreviousManifest previousRoot
  let pages ← collect (chunks snapshot).zipIdx (planPage generation previous)
  pure ⟨pageManifestVersion, generation, snapshot.length, pageSize, pages⟩

/-- A page of the own generation is stored, any other one is there already. -/
def publishPage (generation : Nat) (entry : (PageReference × Bytes) × Nat) : Storing Unit :=
  if entry.1.1.generation = generation then
    putIfAbsentOrMatching (.page entry.1.1.generation entry.2) (.bytes entry.1.2)
  else pure ()

def publishPages (manifest : PageManifest) (snapshot : Bytes) : Storing Unit := do
  let _ ← collect (manifest.pages.zip (chunks snapshot)).zipIdx (publishPage manifest.generation)
  putIfAbsentOrMatching (.root manifest.generation) (← ofExcept manifest.toBytes)

def loadManifest (generation maxFileSize : Nat) : Storing (Option PageManifest) := do
  match ← get (.root generation) with
  | none => pure none
  | some object => some <$> ofExcept (PageManifest.fromBytes object generation maxFileSize)

def validatePageBytes (page : PageReference) (index : Nat) : Object → Checked Bytes
  | .bytes bytes =>
      if bytes.length ≠ page.length ∨ Formats.crc32c bytes ≠ page.crc32c then
        .error (.invalid s!"page {index} does not match its manifest length or CRC-32C")
      else .ok bytes
  | _ => .error (.invalid s!"page {index} does not match its manifest length or CRC-32C")

def readPage (page : PageReference) (index : Nat) : Storing Bytes := do
  match ← get (.page page.generation index) with
  | none => .fail (.missing (Key.page page.generation index).text)
  | some object => ofExcept (validatePageBytes page index object)

def gatherPages (allowMissing : Bool) : List (PageReference × Nat) → Bytes → Storing (Option Bytes)
  | [], snapshot => pure (some snapshot)
  | (page, index) :: rest, snapshot => do
      match ← (readPage page index).attempt with
      | .ok bytes => gatherPages allowMissing rest (snapshot ++ bytes)
      | .error (.missing message) => if allowMissing then pure none else .fail (.missing message)
      | .error error => .fail error

def missingSnapshot (root : Key) (allowMissing : Bool) : Storing (Option Bytes) :=
  if allowMissing then pure none else .fail (.missing root.text)

def validateSnapshotRoot (root : Key) (generation : Nat) : Checked Unit := do
  refuse (¬ root.isLegacy ∧ ¬ root.isRoot)
    s!"manifest root is outside the table namespace: {root.text}"
  refuse (root ≠ .legacy generation ∧ root ≠ .root generation)
    s!"snapshot root does not match generation {generation}: {root.text}"

def readSnapshotBytes (root : Key) (generation maxFileSize : Nat) (allowMissing : Bool) :
    Storing (Option Bytes) := do
  ofExcept (validateSnapshotRoot root generation)
  match ← get root with
  | none => missingSnapshot root allowMissing
  | some object =>
      if root.isLegacy then
        match object with
        | .bytes bytes => do
            ofExcept (refuse (maxFileSize < bytes.length)
              "snapshot exceeds the configured file-size limit")
            pure (some bytes)
        | _ => ofExcept (unreadable object)
      else do
        let manifest ← ofExcept (PageManifest.fromBytes object generation maxFileSize)
        match ← gatherPages allowMissing manifest.pages.zipIdx [] with
        | none => pure none
        | some snapshot => do
            ofExcept (refuse (snapshot.length ≠ manifest.snapshotLength)
              "reassembled snapshot length does not match its page manifest")
            pure (some snapshot)

inductive CommitResult where
  | committed (generation : Nat)
  | alreadyCommitted (generation : Nat)
  deriving DecidableEq

namespace ObjectTable

def currentManifest : Storing (Option Object × Option Manifest) := do
  match ← get .manifest with
  | none => pure (none, none)
  | some object => do
      let manifest ← ofExcept (Manifest.fromBytes object)
      pure (some object, some manifest)

def validateManifestRoot (manifest : Manifest) : Checked Unit :=
  validateSnapshotRoot manifest.root manifest.generation

def validateCurrent : Option Manifest → Storing Unit
  | none => pure ()
  | some manifest => ofExcept (validateManifestRoot manifest)

variable (limits : Formats.Limits)

def decodeSnapshot (snapshot : Bytes) (generation : Nat) : Checked Formats.Table := do
  let table ← (Formats.decode limits snapshot).mapError .invalid
  refuse (Formats.generation table ≠ generation)
    s!"snapshot generation {Formats.generation table} does not match manifest generation {generation}"
  .ok table

def readSnapshot (root : Key) (generation : Nat) : Storing Formats.Table := do
  ofExcept (validateSnapshotRoot root generation)
  match ← readSnapshotBytes root generation (Formats.maxFileSize limits) false with
  | none => .fail (.missing root.text)
  | some snapshot => ofExcept (decodeSnapshot limits snapshot generation)

def validatePending (key : Key) (pending : PendingCommit) : Checked Unit := do
  refuse (key ≠ .wal pending.targetGeneration)
    s!"pending commit key does not match generation {pending.targetGeneration}: {key.text}"
  validateSnapshotRoot pending.root pending.targetGeneration
  match pending.pageManifest with
  | some manifest =>
      if pending.root = .root pending.targetGeneration ∧
        manifest.generation = pending.targetGeneration then do
        let _ ← manifest.toBytes
        .ok ()
      else .error (.invalid "pending commit root does not match its page manifest")
  | none =>
      refuse (pending.root ≠ .legacy pending.targetGeneration)
        "pending commit root does not match its page manifest"

def readPending (key : Key) : Storing (Option PendingCommit) := do
  match ← get key with
  | none => pure none
  | some object => do
      let pending ← ofExcept (PendingCommit.fromBytes object)
      ofExcept (validatePending key pending)
      pure (some pending)

def snapshotRootForGeneration (generation : Nat) : Storing (Option Key) := do
  let roots ← list (.generation generation)
  if Key.root generation ∈ roots then
    if Key.legacy generation ∈ roots then
      .fail (.invalid s!"multiple snapshot roots found for generation {generation}")
    else pure (some (.root generation))
  else pure (if Key.legacy generation ∈ roots then some (.legacy generation) else none)

/-- Whether the root of a pending commit is there; it has to be the one that was planned. -/
def rootPublished (pending : PendingCommit) : Storing Bool :=
  match pending.pageManifest with
  | none => pure true
  | some expected => do
      match ← get pending.root with
      | none => pure false
      | some stored => do
          ofExcept (refuse (stored ≠ (← ofExcept expected.toBytes))
            "pending page manifest differs from its published root")
          pure true

/-- Whether the snapshot of a pending commit is complete: `read_pending_snapshot`, whose table its
caller drops. -/
def readPendingSnapshot (pending : PendingCommit) : Storing Bool := do
  if ← rootPublished pending then
    match ← readSnapshotBytes pending.root pending.targetGeneration (Formats.maxFileSize limits)
        true with
    | none => pure false
    | some snapshot => do
        let _ ← ofExcept (decodeSnapshot limits snapshot pending.targetGeneration)
        pure true
  else pure false

def publishPending (expected : Option Object) (current : Option Manifest) (key : Key)
    (pending : PendingCommit) :
    Storing Bool := do
  let history ← ofExcept (historyWithGeneration current pending.targetGeneration)
  let manifest : Manifest :=
    ⟨manifestVersion, pending.targetGeneration, pending.root, pending.walHead, history⟩
  compareAndSwap .manifest expected (← ofExcept manifest.toBytes)
  delete key
  pure true

def recoverPending (key : Key) (pending : PendingCommit) : Storing Bool := do
  let (expected, current) ← currentManifest
  validateCurrent current
  if current.any fun manifest =>
      decide (manifest.generation = pending.targetGeneration ∧ manifest.root = pending.root) then do
    delete key
    pure true
  else
    match current.map Manifest.generation, pending.baseGeneration with
    | none, none => publishPending expected current key pending
    | some generation, some base =>
        if generation = base then publishPending expected current key pending
        else if base < generation then do
          delete key
          pure false
        else .fail (.conflict
          s!"pending generation {pending.targetGeneration} no longer follows the current manifest")
    | some _, none => do
        delete key
        pure false
    | none, some _ => .fail (.conflict
        s!"pending generation {pending.targetGeneration} no longer follows the current manifest")

def completePending (key : Key) : Storing (Option (Key × PendingCommit)) := do
  match ← readPending key with
  | none => pure none
  | some pending => do
      let complete ← readPendingSnapshot limits pending
      pure (if complete then some (key, pending) else none)

def recover : Storing Nat := do
  let pending ← collect (← list .wal) (completePending limits)
  let recovered ← collect (sortBy (fun left right =>
    compare left.2.targetGeneration right.2.targetGeneration)
    (pending.filterMap id)) fun (key, pending) => recoverPending key pending
  pure (recovered.count true)

def read : Storing (Option Formats.Table) := do
  let _ ← recover limits
  match (← currentManifest).2 with
  | none => pure none
  | some manifest => some <$> readSnapshot limits manifest.root manifest.generation

def readAt (generation : Nat) : Storing (Option Formats.Table) := do
  let _ ← recover limits
  match (← currentManifest).2 with
  | none => pure none
  | some manifest => do
      ofExcept (validateManifestRoot manifest)
      if generation ∈ manifestHistory manifest then
        match ← snapshotRootForGeneration generation with
        | none => pure none
        | some root => some <$> readSnapshot limits root generation
      else pure none

def rejectIncompatiblePending (baseGeneration : Option Nat) (targetGeneration : Nat) :
    Storing Unit := do
  let _ ← collect (← list .wal) fun key => do
    match ← readPending key with
    | none => pure ()
    | some pending =>
        if pending.baseGeneration = baseGeneration ∧ pending.targetGeneration ≠ targetGeneration then
          .fail (.conflict
            s!"generation {pending.targetGeneration} is pending from the current base")
        else pure ()

/-- The publication of a table behind the manifest that was read: WAL, pages, root, manifest. -/
def publish (expected : Option Object) (current : Option Manifest) (generation : Nat)
    (snapshot : Bytes) :
    Storing CommitResult := do
  let pageManifest ← makeManifest generation (current.map Manifest.root) snapshot
  let pending : PendingCommit :=
    ⟨pendingVersion, current.map Manifest.generation, generation, .root generation,
    generation, some pageManifest⟩
  putIfAbsentOrMatching (.wal generation) (← ofExcept pending.toBytes)
  match ← (publishPages pageManifest snapshot).attempt with
  | .error (.conflict message) => do
      let _ ← (delete (.wal generation)).attempt
      .fail (.conflict message)
  | .error error => .fail error
  | .ok () => do
      let history ← ofExcept (historyWithGeneration current generation)
      let manifest : Manifest := ⟨manifestVersion, generation, .root generation, generation, history⟩
      match ← (compareAndSwap .manifest expected (← ofExcept manifest.toBytes)).attempt with
      | .ok () => do
          delete (.wal generation)
          pure (.committed generation)
      | .error (.conflict message) => do
          let _ ← (delete (.wal generation)).attempt
          .fail (.conflict message)
      | .error error => .fail error

def commit (table : Formats.Table) : Storing CommitResult := do
  let _ ← recover limits
  let snapshot ← ofExcept ((Formats.encode limits table).mapError .invalid)
  let generation := Formats.generation table
  let (expected, current) ← currentManifest
  let continue_ : Storing CommitResult := do
    rejectIncompatiblePending (current.map Manifest.generation) generation
    publish expected current generation snapshot
  match current with
  | none => continue_
  | some manifest => do
      ofExcept (validateManifestRoot manifest)
      ofExcept (refuse (generation < manifest.generation)
        s!"XBF generation {generation} is older than the manifest generation {manifest.generation}")
      if generation = manifest.generation then
        match ← readSnapshotBytes manifest.root manifest.generation (Formats.maxFileSize limits)
            false with
        | none => .fail (.missing manifest.root.text)
        | some currentSnapshot =>
            if currentSnapshot = snapshot then pure (.alreadyCommitted generation)
            else .fail (.conflict
              s!"generation {generation} is already committed with different bytes")
      else continue_

/-- The roots and pages that a cleanup keeps. -/
structure Retained where
  roots : List Key
  pages : List Key

def pageKeys (manifest : PageManifest) : List Key :=
  manifest.pages.zipIdx.map fun (page, index) => .page page.generation index

def retainPageManifest (manifest : PageManifest) (retained : Retained) : Checked Retained := do
  let _ ← manifest.toBytes
  .ok { retained with pages := pageKeys manifest ++ retained.pages }

def retainRootPages (root : Key) (retained : Retained) : Storing Retained := do
  let retained := { retained with roots := root :: retained.roots }
  match root with
  | .root generation => do
      match ← loadManifest generation (Formats.maxFileSize limits) with
      | none => .fail (.missing root.text)
      | some manifest => ofExcept (retainPageManifest manifest retained)
  | _ => pure retained

def rootInHistory (manifest : Manifest) (generation : Nat) : Storing (Option Key) :=
  if generation = manifest.generation then pure (some manifest.root)
    else snapshotRootForGeneration generation

def retainHistory (manifest : Manifest) : List Nat → Retained → Storing Retained
  | [], retained => pure retained
  | generation :: rest, retained => do
      match ← rootInHistory manifest generation with
      | none => retainHistory manifest rest retained
      | some root => do retainHistory manifest rest (← retainRootPages limits root retained)

def retainCurrent : Option Manifest → Storing Retained
  | none => pure ⟨[], []⟩
  | some manifest => retainHistory limits manifest (manifestHistory manifest) ⟨[], []⟩

def retainPending (currentGeneration : Option Nat) : List Key → Retained → List Key →
    Storing (Retained × List Key)
  | [], retained, removed => pure (retained, removed)
  | key :: rest, retained, removed => do
      match ← readPending key with
      | none => retainPending currentGeneration rest retained removed
      | some pending =>
          if currentGeneration = pending.baseGeneration then do
            let retained := { retained with roots := pending.root :: retained.roots }
            let retained ← match pending.pageManifest with
              | some manifest => ofExcept (retainPageManifest manifest retained)
              | none => pure retained
            retainPending currentGeneration rest retained removed
          else do
            delete key
            retainPending currentGeneration rest retained (removed ++ [key])

def sweep (kept : List Key) (area : Area) : Storing (List Key) := do
  let keys := (← list area).filter (· ∉ kept)
  forEach keys delete
  pure keys

def cleanupOrphans : Storing (List Key) := do
  let current := (← currentManifest).2
  validateCurrent current
  let retained ← retainCurrent limits current
  let (retained, removed) ← retainPending (current.map Manifest.generation) (← list .wal) retained []
  let snapshots ← sweep retained.roots .snapshots
  let pages ← sweep retained.pages .pages
  pure (sortBy (fun left right => compare left.text right.text) (removed ++ snapshots ++ pages))

def retainGenerations (keepLast : Nat) : Storing (List Key) := do
  ofExcept (refuse (keepLast = 0) "object-store retention count must be positive")
  let _ ← recover limits
  match ← currentManifest with
  | (expected, some manifest) => do
      ofExcept (validateManifestRoot manifest)
      -- the history is increasing, so its last generations are the set that is kept
      let compacted : Manifest :=
        { manifest with history := ((manifestHistory manifest).reverse.take keepLast).reverse }
      compareAndSwap .manifest expected (← ofExcept compacted.toBytes)
      cleanupOrphans limits
  | (_, none) => pure []

end ObjectTable

end TxBase.Edge
