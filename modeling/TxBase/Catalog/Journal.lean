import TxBase.Catalog.Files
import TxBase.Dbf.WalPayload

/-! The journal of a catalog, `src/catalog/journal.rs`: the old and the new contents are staged,
a prepared manifest is published, the targets are replaced, and a committed manifest makes the
change final.  A recovery rolls a prepared change back and a committed one forward. -/
namespace TxBase.Catalog
open Lib Json
open Procedure (ask attempt forEach ofExcept)

abbrev Path := List FileName

structure FileChange where
  target : Path
  before : Option Bytes
  after : Option Bytes
  deriving DecidableEq

inductive Phase where
  | prepared | committed
  deriving DecidableEq

structure ManifestChange where
  target : String
  before : Option String
  after : Option String
  deriving DecidableEq

structure Manifest where
  phase : Phase
  changes : List ManifestChange
  deriving DecidableEq

class ManifestSerde where
  toVec : Manifest → Except String Bytes
  fromSlice : Bytes → Except String Manifest

abbrev Cataloguing (α : Type) := Procedure FsOp FsOp.Reply IoError CatalogError α

def transactionState : FileName := utf8 ".txbase.catalog.state"

def transactionStateMagic : Bytes := [0x54, 0x58, 0x43, 0x53]

def transactionStateVersion : UInt8 := 1

section Operations

def tryTo (op : FsOp) : Cataloguing (Except IoError op.Reply) := ask op

def perform (op : FsOp) : Cataloguing op.Reply := do
  match ← tryTo op with
  | .ok reply => pure reply
  | .error error => .fail (.io error)

/-- `Path::exists`, which takes a failure for absence. -/
def exists? (entry : Entry) : Cataloguing Bool := do
  match ← tryTo (.present entry) with
  | .ok found => pure found
  | .error _ => pure false

def writeSynced (path : FilePath) (bytes : Bytes) : Cataloguing Unit := do
  perform (.createFile path)
  perform (.writeAll path bytes)
  perform (.syncFile path)

def removeIfExists (path : FilePath) : Cataloguing Unit := do
  match ← tryTo (.removeFile path) with
  | .ok () => pure ()
  | .error error => if error.notFound then pure () else .fail (.io error)

def removeManifest : Cataloguing Unit := removeIfExists .manifest

def removeEntry (entry : Entry) : Cataloguing Unit :=
  match entry with
  | .file path => perform (.removeFile path)
  | .directory directory => do
      let entries ← perform (.readDir directory)
      forEach entries fun entry =>
        match entry with
        | .file path => perform (.removeFile path)
        | .directory directory => perform (.removeDir directory)
      perform (.removeDir directory)

def removeJournal : Cataloguing Unit := do
  let entries ← perform (.readDir .journal)
  forEach entries removeEntry
  perform (.removeDir .journal)

def temporaryName (pid : Nat) (name : FileName) : FileName :=
  name ++ utf8 s!".txbase-catalog-{pid}.tmp"

def writeTarget (pid : Nat) (name : FileName) (bytes : Bytes) : Cataloguing Unit := do
  let draft := FilePath.target (temporaryName pid name)
  let result ← attempt (do
    writeSynced draft bytes
    perform (.rename draft (.target name))
    perform (.syncDirectory none) : Cataloguing Unit)
  match result with
  | .ok () => pure ()
  | .error error => do
      let _ ← tryTo (.removeFile draft)
      .fail error

def ManifestChange.staged (change : ManifestChange) : Side → Option String
  | .before => change.before
  | .after => change.after

def applyChange (pid : Nat) (change : ManifestChange) (side : Side) : Cataloguing Unit :=
  match change.staged side with
  | some name => do
      let bytes ← perform (.readFile (.staged side name))
      writeTarget pid (utf8 change.target) bytes
  | none => removeIfExists (.target (utf8 change.target))

variable [ManifestSerde]

def encodeManifest (manifest : Manifest) : Except CatalogError Bytes :=
  match ManifestSerde.toVec manifest with
  | .ok bytes => .ok bytes
  | .error error => .error (.invalid s!"catalog transaction encoding failed: {error}")

def writeManifest (manifest : Manifest) : Cataloguing Unit := do
  let bytes ← ofExcept (encodeManifest manifest)
  writeSynced .temporary bytes
  perform (.rename .temporary .manifest)
  perform (.syncDirectory (some .journal))

end Operations

section Recovery
variable [ManifestSerde]

def readManifest : Cataloguing Manifest := do
  let bytes ← perform (.readFile .manifest)
  match ManifestSerde.fromSlice bytes with
  | .ok manifest => pure manifest
  | .error error => .fail (.invalid s!"invalid catalog transaction journal: {error}")

def replayManifest (pid : Nat) (manifest : Manifest) : Cataloguing Unit :=
  match manifest.phase with
  | .prepared => forEach manifest.changes.reverse fun change => applyChange pid change .before
  | .committed => forEach manifest.changes fun change => applyChange pid change .after

def recoverLocked (pid : Nat) : Cataloguing Unit := do
  if ← exists? (.directory .journal) then
    if ← exists? (.file .manifest) then
      let manifest ← readManifest
      replayManifest pid manifest
      removeManifest
      removeJournal
      perform (.syncDirectory none)
    else
      removeJournal
      perform (.syncDirectory none)
  else pure ()

end Recovery

section Commit
variable [Runtime]

def stripRoot : (root target : Path) → Option Path
  | [], target => some target
  | _ :: _, [] => none
  | component :: root, head :: target => if component = head then stripRoot root target else none

/-- The name of a target as the manifest has it, which is lossy. -/
def targetName (root : Path) (change : FileChange) : Except CatalogError String :=
  match stripRoot root change.target with
  | none => .error (.invalid "catalog transaction target escapes root")
  | some [name] => .ok (fromUtf8Lossy name)
  | some _ => .error (.invalid "catalog transaction targets must be direct children")

def targetNames (root : Path) (seen : List String) :
    List FileChange → Except CatalogError (List String)
  | [] => .ok []
  | change :: rest => do
      let name ← targetName root change
      if name ∈ seen then .error (.invalid "catalog transaction contains a duplicate target")
      let names ← targetNames root (name :: seen) rest
      .ok (name :: names)

def stageSide (path : FilePath) (content : Option Bytes) : Cataloguing Unit :=
  match content with
  | some bytes => writeSynced path bytes
  | none => pure ()

def stageChange (index : Nat) (name : String) (change : FileChange) :
    Cataloguing ManifestChange := do
  stageSide (.staged .before (toString index)) change.before
  stageSide (.staged .after (toString index)) change.after
  pure ⟨name, change.before.map fun _ => toString index, change.after.map fun _ => toString index⟩

def stageChanges (index : Nat) : List (String × FileChange) → Cataloguing (List ManifestChange)
  | [] => pure []
  | (name, change) :: rest => do
      let first ← stageChange index name change
      let others ← stageChanges (index + 1) rest
      pure (first :: others)

def stageFiles (named : List (String × FileChange)) : Cataloguing (List ManifestChange) := do
  perform (.createDir .journal)
  perform (.createDir (.staged .before))
  perform (.createDir (.staged .after))
  stageChanges 0 named

variable [ManifestSerde]

/-- From the directory of the journal to the prepared manifest. -/
def prepareJournal (named : List (String × FileChange)) : Cataloguing (List ManifestChange) := do
  let changes ← stageFiles named
  writeManifest ⟨.prepared, changes⟩
  pure changes

/-- The journal of a committed change goes away; a failure leaves it to a recovery. -/
def closeJournal : Cataloguing Unit := do
  match ← attempt (removeManifest : Cataloguing Unit) with
  | .ok () => do
      let _ ← attempt (δ := CatalogError) removeJournal
      pure ()
  | .error _ => pure ()
  perform (.syncDirectory none)

def commitFiles (pid : Nat) (root : Path) (changes : List FileChange) : Cataloguing Unit := do
  if changes.isEmpty then pure ()
  else
    if ← exists? (.directory .journal) then
      .fail (.invalid "catalog transaction journal already exists")
    else
      let names ← ofExcept (targetNames root [] changes)
      let staged ← prepareJournal (names.zip changes)
      forEach staged fun change => applyChange pid change .after
      writeManifest ⟨.committed, staged⟩
      closeJournal

end Commit

section Identifiers

def transactionStateBytes (transactionId : Nat) : Bytes :=
  transactionStateMagic ++ transactionStateVersion :: toLeBytes 8 transactionId

def decodeTransactionId (bytes : Bytes) : Except CatalogError Nat :=
  match Dbf.afterMagic transactionStateMagic bytes with
  | none => .error (.invalid "catalog transaction state header is invalid")
  | some body =>
      if body.length ≠ 9 then .error (.invalid "catalog transaction state payload is truncated")
      else if body.headD 0 ≠ transactionStateVersion then
        let version := body.headD 0
        .error (.invalid s!"unknown catalog transaction state version {version}")
      else if fromLeBytes (slice body 1 9) = 0 then
        .error (.invalid "catalog transaction ID must be positive")
      else .ok (fromLeBytes (slice body 1 9))

def currentTransactionId (state : Option Bytes) : Except CatalogError Nat :=
  match state with
  | some bytes => decodeTransactionId bytes
  | none => .ok 0

def nextTransactionId (state : Option Bytes) : Except CatalogError Nat := do
  let current ← currentTransactionId state
  if u64Size ≤ current + 1 then .error (.invalid "catalog transaction ID exhausted")
  else .ok (current + 1)

def readOptional (path : FilePath) : Cataloguing (Option Bytes) := do
  match ← tryTo (.readFile path) with
  | .ok bytes => pure (some bytes)
  | .error error => if error.notFound then pure none else .fail (.io error)

def readTransactionIdLocked : Cataloguing (Option Nat) := do
  match ← readOptional (.target transactionState) with
  | none => pure none
  | some bytes => do
      let transactionId ← ofExcept (decodeTransactionId bytes)
      pure (some transactionId)

variable [Runtime] [ManifestSerde]

def stateChange (root : Path) (state : Option Bytes) (transactionId : Nat) : FileChange :=
  ⟨root ++ [transactionState], state, some (transactionStateBytes transactionId)⟩

def checkNewer (transactionId : Nat) (state : Option Bytes) : Except CatalogError Unit := do
  let current ← currentTransactionId state
  if transactionId ≤ current then
    .error (.invalid s!"catalog transaction ID {transactionId} is not newer than {current}")
  else .ok ()

def commitAt (pid : Nat) (root : Path) (transactionId : Nat) (changes : List FileChange) :
    Cataloguing Nat := do
  if transactionId = 0 then .fail (.invalid "catalog transaction ID must be positive")
  else if ← exists? (.directory .journal) then
    .fail (.invalid "catalog transaction journal already exists")
  else
    let state ← readOptional (.target transactionState)
    ofExcept (checkNewer transactionId state)
    commitFiles pid root (changes ++ [stateChange root state transactionId])
    pure transactionId

end Identifiers

end TxBase.Catalog
