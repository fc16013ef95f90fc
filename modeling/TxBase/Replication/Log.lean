import TxBase.Replication.Entry

/-! The log of replication entries, `src/replication.rs`, with the positions its followers have
acknowledged, `src/replication/progress.rs`: the data, their checks, and their sidecars. -/
namespace TxBase.Replication
open Lib Json Dbf

structure ReplicationProgress where
  version : Nat
  followerId : String
  term : Nat
  index : Nat
  transactionId : Nat
  schemaTag : String
  deriving DecidableEq

abbrev FollowerWatermarks := OrderedMap String ReplicationProgress

structure ReplicationLog where
  formatVersion : Nat
  term : Nat
  baseIndex : Nat
  baseTransactionId : Nat
  entries : List ReplicationEntry
  followerWatermarks : FollowerWatermarks
  deriving DecidableEq

def serialized {α : Type} (result : Except String α) : Replicated α :=
  result.mapError ReplicationError.serialization

def replicationLogVersion : Nat := 1

def replicationSidecarName : String := ".txbase.replication"

def next (value : Nat) (name : String) : Replicated Nat :=
  if value + 1 < u64Size then .ok (value + 1) else refused s!"{name} is exhausted"

theorem next_eq_ok {value result : Nat} {name : String} :
    next value name = .ok result ↔ value + 1 < u64Size ∧ result = value + 1 := by
  unfold next refused
  split <;> simp [*, eq_comm]

namespace ReplicationLog

def lastIndex (log : ReplicationLog) : Nat := log.baseIndex + log.entries.length

def lastTransactionId (log : ReplicationLog) : Nat := log.baseTransactionId + log.entries.length

/-- The entries follow the position before them. -/
def validateEntries (term : Nat) : Nat → Nat → List ReplicationEntry → Replicated Unit
  | _, _, [] => .ok ()
  | index, transactionId, entry :: rest => do
      entry.validate
      let expectedIndex ← next index "index"
      let expectedTransactionId ← next transactionId "transaction_id"
      raise (entry.term ≠ term) (.termMismatch term entry.term)
      raise (entry.index ≠ expectedIndex) (.indexGap expectedIndex entry.index)
      raise (entry.transactionId ≠ expectedTransactionId)
        (.transactionGap expectedTransactionId entry.transactionId)
      validateEntries term expectedIndex expectedTransactionId rest

def validate (log : ReplicationLog) : Replicated Unit := do
  refuse (log.formatVersion ≠ replicationLogVersion)
    s!"unsupported replication log version: {log.formatVersion}"
  refuse (log.term = 0) "term must be positive"
  validateEntries log.term log.baseIndex log.baseTransactionId log.entries

structure Placed (term index transactionId : Nat) (entry : ReplicationEntry) : Prop where
  valid : entry.validate = .ok ()
  term_eq : entry.term = term
  index_eq : entry.index = index
  transactionId_eq : entry.transactionId = transactionId
  index_lt : index < u64Size
  transactionId_lt : transactionId < u64Size

theorem validateEntries_eq_ok {term index txn : Nat} {entries : List ReplicationEntry} :
    validateEntries term index txn entries = .ok () ↔
      ∀ position entry, entries[position]? = some entry →
        Placed term (index + position + 1) (txn + position + 1) entry := by
  induction entries generalizing index txn with
  | nil => simp [validateEntries]
  | cons first rest ih =>
    simp only [validateEntries, bind_eq_ok, next_eq_ok, raise_eq_ok, not_not, exists_const]
    constructor
    · rintro ⟨⟨⟩, hvalid, _, ⟨hindex, rfl⟩, _, ⟨htransaction, rfl⟩, hterm, hfirst, hsecond, hrest⟩
      intro position entry hentry
      cases position with
      | zero =>
        cases hentry
        exact ⟨hvalid, hterm, hfirst, hsecond, hindex, htransaction⟩
      | succ position =>
        have hplaced := ih.mp hrest position entry hentry
        rw [Nat.add_right_comm index, Nat.add_right_comm txn] at hplaced
        exact hplaced
    · intro h
      have hfirst := h 0 first rfl
      refine ⟨(), hfirst.valid, _, ⟨hfirst.index_lt, rfl⟩, _, ⟨hfirst.transactionId_lt, rfl⟩,
        hfirst.term_eq, hfirst.index_eq, hfirst.transactionId_eq, ih.mpr ?_⟩
      intro position entry hentry
      have hplaced := h (position + 1) entry hentry
      rw [← Nat.add_assoc, Nat.add_right_comm index, ← Nat.add_assoc,
        Nat.add_right_comm txn] at hplaced
      exact hplaced

/-- What `validate` asks of a log. -/
structure Valid (log : ReplicationLog) : Prop where
  version : log.formatVersion = replicationLogVersion
  term : log.term ≠ 0
  placed : ∀ position entry, log.entries[position]? = some entry →
    Placed log.term (log.baseIndex + position + 1) (log.baseTransactionId + position + 1) entry

theorem validate_eq_ok {log : ReplicationLog} : log.validate = .ok () ↔ log.Valid := by
  simp only [validate, bind_eq_ok, refuse_eq_ok, not_not, exists_const, validateEntries_eq_ok]
  exact ⟨fun h => ⟨h.1, h.2.1, h.2.2⟩, fun h => ⟨h.version, h.term, h.placed⟩⟩

def ensureCatalogPosition (log : ReplicationLog) (actual : Nat) : Replicated Unit :=
  raise (actual ≠ log.lastTransactionId) (.catalogStateMismatch log.lastTransactionId actual)

def magic : Bytes := [0x54, 0x58, 0x52, 0x50]

def sidecarVersion : UInt8 := 1

variable [Runtime]

def text (log : ReplicationLog) : Bytes :=
  structText
    [("format_version", natText log.formatVersion),
     ("term", natText log.term),
     ("base_index", natText log.baseIndex),
     ("base_transaction_id", natText log.baseTransactionId),
     ("entries", arrayText (log.entries.map entryText))]

def toSidecarBytes (log : ReplicationLog) : Replicated Bytes := do
  log.validate
  .ok (magic ++ sidecarVersion :: log.text)

end ReplicationLog

end TxBase.Replication
