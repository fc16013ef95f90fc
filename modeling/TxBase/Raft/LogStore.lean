import TxBase.Lib.Frames
import TxBase.Lib.Procedure
import TxBase.Raft.LogRecords

/-! The store of the Raft log: `src/replication/raft/log_store.rs` and `log_store/journal.rs`.  The
journal is written byte by byte, so that a write can fail or be stopped after any of them. -/
namespace TxBase.Raft
open Lib
open Procedure (attempt forEach ofExcept pass)

/-- `serde_json` on the records of the journal, and SHA-256. -/
class JournalSerde (P V : Type) where
  toVec : JournalRecord P V → Except String Bytes
  fromSlice : Bytes → Except String (JournalRecord P V)
  digest : Bytes → Bytes
  digest_length : ∀ payload, (digest payload).length = 32

def journalMagic : Bytes := [0x54, 0x58, 0x52, 0x4c, 0x01]

def frameHeaderBytes : Nat := 4 + 32

def maxJsonInputBytes : Nat := 1024 * 1024

def maxRecordBytes : Nat := maxJsonInputBytes + 16 * 1024

/-- A journal, or the file in which a new one is written. -/
inductive File where
  | journal (generation : Nat)
  | temporary (generation : Nat)
  deriving DecidableEq

/-- The directory of a store: `raft-log-N.journal` and `raft-log-N.tmp` for the generations `N`. -/
structure Directory where
  journals : OrderedMap Nat Bytes := []
  temporaries : OrderedMap Nat Bytes := []
  deriving DecidableEq

namespace Directory

def get (directory : Directory) : File → Option Bytes
  | .journal generation => OrderedMap.get? generation directory.journals
  | .temporary generation => OrderedMap.get? generation directory.temporaries

def set (directory : Directory) (file : File) (content : Bytes) : Directory :=
  match file with
  | .journal generation =>
      { directory with journals := OrderedMap.insert generation content directory.journals }
  | .temporary generation =>
      { directory with temporaries := OrderedMap.insert generation content directory.temporaries }

def remove (directory : Directory) : File → Directory
  | .journal generation =>
      { directory with journals := OrderedMap.erase generation directory.journals }
  | .temporary generation =>
      { directory with temporaries := OrderedMap.erase generation directory.temporaries }

end Directory

inductive FileOp where
  | createDirAll
  | tryLockExclusive
  | readDir
  | exists (file : File)
  | open (file : File)
  | read (file : File)
  | length (file : File)
  | seekEnd (file : File)
  | write (file : File) (byte : UInt8)
  | setLen (file : File) (length : Nat)
  | syncAll (file : File)
  | create (file : File)
  | rename (source target : File)
  | remove (file : File)
  | syncDirectory
  deriving DecidableEq

/-- What an operation answers; `readDir` gives the generations of the journals. -/
def FileOp.Reply : FileOp → Type
  | .readDir => List Nat
  | .exists _ => Bool
  | .read _ => Bytes
  | .length _ => Nat
  | _ => Unit

def noSuchFile : IoError := ⟨.notFound, "No such file or directory"⟩

def resized (content : Bytes) (length : Nat) : Bytes :=
  content.take length ++ List.replicate (length - content.length) 0

def exec : (op : FileOp) → Directory → Except IoError op.Reply × Directory
  | .createDirAll, directory => (.ok (), directory)
  | .tryLockExclusive, directory => (.ok (), directory)
  | .readDir, directory => (.ok directory.journals.keys, directory)
  | .exists file, directory => (.ok (directory.get file).isSome, directory)
  | .open file, directory =>
      (if (directory.get file).isSome then .ok () else .error noSuchFile, directory)
  | .read file, directory =>
      (match directory.get file with
        | some content => .ok content
        | none => .error noSuchFile, directory)
  | .length file, directory =>
      (match directory.get file with
        | some content => .ok content.length
        | none => .error noSuchFile, directory)
  | .seekEnd _, directory => (.ok (), directory)
  | .write file byte, directory =>
      (.ok (), match directory.get file with
        | some content => directory.set file (content ++ [byte])
        | none => directory)
  | .setLen file length, directory =>
      (.ok (), match directory.get file with
        | some content => directory.set file (resized content length)
        | none => directory)
  | .syncAll _, directory => (.ok (), directory)
  | .create file, directory => (.ok (), directory.set file [])
  | .rename source target, directory =>
      match directory.get source with
      | some content => (.ok (), (directory.set target content).remove source)
      | none => (.error noSuchFile, directory)
  | .remove file, directory =>
      (if (directory.get file).isSome then .ok () else .error noSuchFile, directory.remove file)
  | .syncDirectory, directory => (.ok (), directory)

abbrev Storing := Procedure FileOp FileOp.Reply IoError IoError

def tryIo (op : FileOp) : Storing (Except IoError op.Reply) := Procedure.ask op

def io (op : FileOp) : Storing op.Reply := pass op

def writeAll (file : File) (bytes : Bytes) : Storing Unit :=
  forEach bytes fun byte => io (.write file byte)

variable {P V : Type}

section Journal
variable [JournalSerde P V]

def encodePayload (record : JournalRecord P V) : Except IoError Bytes := do
  let payload ← (JournalSerde.toVec record).mapError invalidData
  if payload.isEmpty || maxRecordBytes < payload.length then
    .error (invalidData "Raft log journal record exceeds its size limit")
  else if u32Size ≤ payload.length then
    .error (invalidData "Raft log journal record length overflows")
  else .ok payload

def writeRecord (file : File) (record : JournalRecord P V) : Storing Unit := do
  let payload ← ofExcept (encodePayload record)
  writeAll file (toLeBytes 4 payload.length)
  writeAll file (JournalSerde.digest P V payload)
  writeAll file payload

/-- What `recover` finds at an offset of the journal. -/
def recordHead (bytes : Bytes) : Frames.Head IoError (JournalRecord P V) :=
  if bytes.length < 4 then .torn
  else
    let recordLength := fromLeBytes (slice bytes 0 4)
    if recordLength = 0 || maxRecordBytes < recordLength then
      .corrupt (invalidData "Raft log journal record length is invalid")
    else if bytes.length < frameHeaderBytes + recordLength then .torn
    else
      let payload := slice bytes frameHeaderBytes (frameHeaderBytes + recordLength)
      if slice bytes 4 frameHeaderBytes ≠ JournalSerde.digest P V payload then
        .corrupt (invalidData "Raft log journal checksum does not match")
      else
        match JournalSerde.fromSlice payload with
        | .error message => .corrupt (invalidData message)
        | .ok record => .record record (frameHeaderBytes + recordLength)

end Journal

/-- Writes a journal aside and moves it to its place. -/
def createGeneration (generation : Nat) (write : Storing Unit) : Storing Unit := do
  io (.create (.temporary generation))
  let result ← attempt do
    writeAll (.temporary generation) journalMagic
    write
    io (.syncAll (.temporary generation))
    io (.rename (.temporary generation) (.journal generation))
    io .syncDirectory
  match result with
  | .ok () => .done ()
  | .error error => do
      let _ ← tryIo (.remove (.temporary generation))
      .fail error

def latestGeneration (generations : List Nat) : Option Nat :=
  generations.foldl (fun latest generation => some (latest.elim generation (max · generation))) none

/-- The part of `open` up to the recovery: the generation of the newest journal. -/
def openJournal : Storing Nat := do
  io .createDirAll
  io .tryLockExclusive
  let generations : List Nat ← io .readDir
  let generation := (latestGeneration generations).getD 0
  -- `Path::exists` counts an error as absence
  let present : Except IoError Bool ← tryIo (.exists (.journal generation))
  if present.toOption = some true then do
    io (.open (.journal generation))
    .done generation
  else if generation = 0 then do
    createGeneration generation (.done ())
    .done generation
  else .fail ⟨.notFound, "latest Raft log generation is missing"⟩

structure StoreInner (P V : Type) where
  generation : Nat
  state : LogStateData P V
  poisoned : Bool
  deriving DecidableEq

/-- What is left in memory, and what the call returns. -/
abbrev Returned (P V : Type) := StoreInner P V × Except IoError Unit

def unusable : IoError := ⟨.other, "Raft log store is unusable after a storage error"⟩

namespace StoreInner
variable [JournalSerde P V]

def recover [LT V] [DecidableLT V] (file : File) : Storing (LogStateData P V) := do
  let content ← io (.read file)
  if content.length < journalMagic.length then
    .fail (invalidData "Raft log journal header is truncated")
  else if content.take journalMagic.length ≠ journalMagic then
    .fail (invalidData "Raft log journal header is invalid")
  else do
    let (state, valid) ← ofExcept (Frames.scan recordHead
      (fun state record => LogStateData.applyRecord state record) content.length
      (content.drop journalMagic.length) journalMagic.length {})
    if valid < content.length then do
      -- `truncate_torn_tail`
      io (.setLen file valid)
      io (.syncAll file)
    else .done ()
    .done state

def removeOldGenerations (generation : Nat) : Storing Unit := do
  match ← tryIo .readDir with
  | .error _ => .done ()
  | .ok (generations : List Nat) =>
      forEach (generations.filter (· < generation)) fun old => do
        let _ ← tryIo (.remove (.journal old))
        .done ()

def «open» [LT V] [DecidableLT V] : Storing (StoreInner P V) := do
  let generation ← openJournal
  let state ← recover (.journal generation)
  removeOldGenerations generation
  .done { generation, state, poisoned := false }

def persistRecords (store : StoreInner P V) (records : List (JournalRecord P V)) :
    Storing (Returned P V) := do
  if store.poisoned then .done (store, .error unusable)
  else
    let journal := File.journal store.generation
    let prepared ← attempt do
      let originalLength ← io (.length journal)
      io (.seekEnd journal)
      .done originalLength
    match prepared with
    | .error error => .done (store, .error error)
    | .ok originalLength => do
        let result ← attempt do
          forEach records fun record => writeRecord journal record
          io (.syncAll journal)
        match result with
        | .ok () => .done (store, .ok ())
        | .error error => do
            let rollback ← attempt do
              io (.setLen journal originalLength)
              io (.syncAll journal)
            match rollback with
            | .ok () => .done (store, .error error)
            | .error rollbackError => .done ({ store with poisoned := true }, .error rollbackError)

def compact (store : StoreInner P V) : Storing (Returned P V) := do
  if store.poisoned then .done (store, .error unusable)
  else
    match checkedAdd store.generation 1 u64Size with
    | none => .done (store, .error (invalidData "Raft log generation overflow"))
    | some nextGeneration => do
        let created ← attempt (createGeneration nextGeneration
          (forEach store.state.snapshot fun record =>
            writeRecord (.temporary nextGeneration) record))
        match created with
        | .error error => .done ({ store with poisoned := true }, .error error)
        | .ok () => do
            let _ ← tryIo (.remove (.journal store.generation))
            let _ ← tryIo .syncDirectory
            .done ({ store with generation := nextGeneration }, .ok ())

/-- Writes what a call has to write, and then changes the state in memory. -/
def journaled (store : StoreInner P V) (checked : Except IoError (Option (Change P V))) :
    Storing (Returned P V) :=
  match checked with
  | .error error => .done (store, .error error)
  | .ok none => .done (store, .ok ())
  | .ok (some change) => do
      match ← store.persistRecords change.records with
      | (store, .error error) => .done (store, .error error)
      | (store, .ok ()) => .done ({ store with state := change.next }, .ok ())

def appendEntries (store : StoreInner P V) (entries : List (Entry P)) : Storing (Returned P V) :=
  store.journaled (store.state.checkAppend entries)

def saveVote [DecidableEq V] [LT V] [DecidableLT V] (store : StoreInner P V) (vote : V) :
    Storing (Returned P V) :=
  store.journaled (store.state.checkVote vote)

def saveCommitted (store : StoreInner P V) (committed : Option LogId) : Storing (Returned P V) :=
  store.journaled (store.state.checkCommitted committed)

def truncate (store : StoreInner P V) (logId : LogId) : Storing (Returned P V) :=
  store.journaled (store.state.checkTruncate logId)

/-- A purge that has changed the log starts a new journal. -/
def purge (store : StoreInner P V) (logId : LogId) : Storing (Returned P V) :=
  match store.state.checkPurge logId with
  | .ok (some change) => do
      match ← store.journaled (.ok (some change)) with
      | (store, .error error) => .done (store, .error error)
      | (store, .ok ()) => store.compact
  | checked => store.journaled checked

def perform [DecidableEq V] [LT V] [DecidableLT V] (store : StoreInner P V) :
    Call P V → Storing (Returned P V)
  | .appendEntries entries => store.appendEntries entries
  | .saveVote vote => store.saveVote vote
  | .saveCommitted committed => store.saveCommitted committed
  | .truncate logId => store.truncate logId
  | .purge logId => store.purge logId

end StoreInner

end TxBase.Raft
