import TxBase.Lib.Bytes
import TxBase.Lib.OrderedMap

/-! The state of the Raft log of `src/replication/raft/log_store.rs`, the records of its journal, and
what each call checks and writes.  Commands and votes are those of the consensus library: `P` is the
payload of an entry, and votes are only compared. -/
namespace TxBase.Raft
open Lib

inductive ErrorKind where
  | invalidData | notFound | other
  deriving DecidableEq

structure IoError where
  kind : ErrorKind
  message : String
  deriving DecidableEq

def invalidData (message : String) : IoError := ⟨.invalidData, message⟩

/-- The index is a `u64`. -/
structure LogId where
  term : Nat
  index : Nat
  index_lt : index < u64Size := by decide
  deriving DecidableEq

structure Entry (P : Type) where
  logId : LogId
  payload : P
  deriving DecidableEq

inductive JournalRecord (P V : Type) where
  | append (entry : Entry P)
  | vote (vote : V)
  | committed (committed : Option LogId)
  | truncate (logId : LogId)
  | purge (logId : LogId)
  deriving DecidableEq

structure LogStateData (P V : Type) where
  entries : OrderedMap Nat (Entry P) := []
  lastPurged : Option LogId := none
  committed : Option LogId := none
  vote : Option V := none
  deriving DecidableEq

/-- The calls of the store that change it. -/
inductive Call (P V : Type) where
  | appendEntries (entries : List (Entry P))
  | saveVote (vote : V)
  | saveCommitted (committed : Option LogId)
  | truncate (logId : LogId)
  | purge (logId : LogId)
  deriving DecidableEq

/-- What a call writes to the journal, and the state it leaves. -/
structure Change (P V : Type) where
  records : List (JournalRecord P V)
  next : LogStateData P V

def splitOff {α : Type} (index : Nat) (entries : OrderedMap Nat α) : OrderedMap Nat α :=
  entries.filter fun entry => entry.1 < index

/-- `index` is not behind the given position. -/
def covers (position : Option LogId) (index : Nat) : Bool :=
  position.any fun logId => index ≤ logId.index

variable {P V : Type}

def checkContiguous : Option Nat → List (Entry P) → Except IoError Unit
  | _, [] => .ok ()
  | none, entry :: rest => checkContiguous (some entry.logId.index) rest
  | some previous, entry :: rest =>
      match checkedAdd previous 1 u64Size with
      | none => .error (invalidData "Raft log index overflow")
      | some expected =>
          if entry.logId.index ≠ expected then
            .error (invalidData
              s!"Raft log append expected index {expected}, got {entry.logId.index}")
          else checkContiguous (some entry.logId.index) rest

namespace LogStateData
variable (state : LogStateData P V)

def lastLogIndex : Option Nat :=
  (state.entries.getLast?.map Prod.fst).or (state.lastPurged.map LogId.index)

/-- The entry at `index` may replace one of the log or follow its last one. -/
def checkNext (source : String) (index : Nat) : Except IoError Unit :=
  match state.lastLogIndex with
  | none => .ok ()
  | some last =>
      if last < index then
        match checkedAdd last 1 u64Size with
        | none => .error (invalidData "Raft log index overflow")
        | some next =>
            if index ≠ next then
              .error (invalidData s!"Raft log {source} expected index {next}, got {index}")
            else .ok ()
      else .ok ()

/-- `apply_record`: one record of the journal when it is read again. -/
def applyRecord [LT V] [DecidableLT V] : JournalRecord P V → Except IoError (LogStateData P V)
  | .append entry =>
      if covers state.lastPurged entry.logId.index || covers state.committed entry.logId.index then
        .error (invalidData "Raft journal replaces a purged or committed entry")
      else do
        state.checkNext "journal" entry.logId.index
        .ok { state with entries :=
          OrderedMap.insert entry.logId.index entry (splitOff entry.logId.index state.entries) }
  | .vote vote =>
      if state.vote.any fun current => vote < current then
        .error (invalidData "Raft journal contains a backwards vote")
      else .ok { state with vote := some vote }
  | .committed committed =>
      if state.committed.all fun current =>
          committed.any fun next => current.index < next.index || next = current then
        .ok { state with committed }
      else .error (invalidData "Raft journal contains a backwards committed log id")
  | .truncate logId =>
      if covers state.lastPurged logId.index || covers state.committed logId.index then
        .error (invalidData "Raft journal truncates a protected log entry")
      else .ok { state with entries := splitOff logId.index state.entries }
  | .purge logId =>
      if state.lastPurged.any fun purged => logId.index ≤ purged.index && logId ≠ purged then
        .error (invalidData "Raft journal contains a backwards purge")
      else .ok {
        state with
        entries := state.entries.filter fun entry => logId.index < entry.1
        lastPurged := some logId }

def replay [LT V] [DecidableLT V] (records : List (JournalRecord P V)) :
    Except IoError (LogStateData P V) :=
  records.foldlM (fun state record => state.applyRecord record) state

/-- The entries of an append that have not been purged. -/
def unpurged (entries : List (Entry P)) : List (Entry P) :=
  match state.lastPurged with
  | some purged => entries.dropWhile fun entry => entry.logId.index ≤ purged.index
  | none => entries

/-- What `append_entries` writes when nothing stands against it. -/
def appended (first : Entry P) (rest : List (Entry P)) : Change P V where
  records := (first :: rest).map .append
  next := {
    state with
    entries := (first :: rest).foldl
      (fun entries entry => OrderedMap.insert entry.logId.index entry entries)
      (splitOff first.logId.index state.entries) }

def checkAppend (entries : List (Entry P)) : Except IoError (Option (Change P V)) := do
  checkContiguous none entries
  match state.unpurged entries with
  | [] => .ok none
  | first :: rest =>
      match state.committed.filter fun committed => first.logId.index ≤ committed.index with
      | some committed =>
          .error (invalidData (s!"Raft log append index {first.logId.index} " ++
            s!"cannot replace committed index {committed.index}"))
      | none => do
          state.checkNext "append" first.logId.index
          .ok (some (state.appended first rest))

def checkVote [DecidableEq V] [LT V] [DecidableLT V] (vote : V) :
    Except IoError (Option (Change P V)) :=
  if state.vote = some vote then .ok none
  else if state.vote.any fun current => vote < current then
    .error (invalidData "Raft vote must not move backwards")
  else .ok (some { records := [.vote vote], next := { state with vote := some vote } })

def checkCommitted (committed : Option LogId) : Except IoError (Option (Change P V)) :=
  if state.committed = committed then .ok none
  else
    match state.committed, committed with
    | some current, some next =>
        if current.index < next.index then
          .ok (some { records := [.committed committed], next := { state with committed } })
        else if next = current then .ok none
        else .error (invalidData "committed Raft log id must not move backwards")
    | some _, none => .error (invalidData "committed Raft log id must not move backwards")
    | none, _ => .ok (some { records := [.committed committed], next := { state with committed } })

def checkTruncate (logId : LogId) : Except IoError (Option (Change P V)) :=
  if covers state.lastPurged logId.index || !state.entries.any fun entry =>
    logId.index ≤ entry.1 then
    .ok none
  else if covers state.committed logId.index then
    .error (invalidData "cannot truncate a committed Raft log entry")
  else .ok (some {
    records := [.truncate logId]
    next := { state with entries := splitOff logId.index state.entries } })

/-- What `purge` writes when nothing stands against it. -/
def purged (logId : LogId) : Change P V where
  records := [.purge logId]
  next := {
    state with
    entries := state.entries.filter fun entry => logId.index < entry.1
    lastPurged := some logId }

def checkPurge (logId : LogId) : Except IoError (Option (Change P V)) :=
  match state.lastPurged with
  | none => .ok (some (state.purged logId))
  | some purged =>
      if logId.index < purged.index then .ok none
      else if logId.index = purged.index then
        if logId = purged then .ok none
        else .error (invalidData "Raft purge conflicts with the existing log id")
      else .ok (some (state.purged logId))

def check [DecidableEq V] [LT V] [DecidableLT V] : Call P V → Except IoError (Option (Change P V))
  | .appendEntries entries => state.checkAppend entries
  | .saveVote vote => state.checkVote vote
  | .saveCommitted committed => state.checkCommitted committed
  | .truncate logId => state.checkTruncate logId
  | .purge logId => state.checkPurge logId

/-- The records with which a new journal starts. -/
def snapshot : List (JournalRecord P V) :=
  (state.lastPurged.map .purge).toList ++ (state.vote.map .vote).toList ++
    state.entries.map (fun entry => .append entry.2) ++
    (state.committed.map fun committed => .committed (some committed)).toList

end LogStateData

end TxBase.Raft
