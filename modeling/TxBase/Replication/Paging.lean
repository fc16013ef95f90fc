import TxBase.Replication.Transport

/-! A log is shipped in pages.  Each page holds at least one entry, so the pages end; whether
there is a page at all is up to the length of its first entry. -/
namespace TxBase.Replication
open Lib Json List
variable {limit : Nat} {batch : ReplicationEntryBatch}

namespace ReplicationLog
variable {log : ReplicationLog} {afterIndex : Nat}

/-- The position of a log is in machine words. -/
structure Sized (log : ReplicationLog) : Prop where
  term : log.term < u64Size
  baseIndex : log.baseIndex < u64Size
  baseTransactionId : log.baseTransactionId < u64Size

theorem Valid.last_lt (hvalid : log.Valid) (hsized : log.Sized) :
    log.lastIndex < u64Size ∧ log.lastTransactionId < u64Size := by
  unfold lastIndex lastTransactionId
  by_cases hempty : log.entries.length = 0
  · rw [hempty]
    exact ⟨hsized.baseIndex, hsized.baseTransactionId⟩
  · have hlast : log.entries.length - 1 < log.entries.length := by omega
    have hplaced := hvalid.placed _ _ (getElem?_eq_getElem hlast)
    have hindex := hplaced.index_lt
    have htransaction := hplaced.transactionId_lt
    omega

def after (log : ReplicationLog) (afterIndex : Nat) : List ReplicationEntry :=
  log.entries.drop (afterIndex - log.baseIndex)

theorem length_after (hafter : log.baseIndex ≤ afterIndex) :
    (log.after afterIndex).length = log.lastIndex - afterIndex := by
  unfold after lastIndex
  rw [length_drop]
  omega

theorem Valid.placed_after (hvalid : log.Valid) (hafter : log.baseIndex ≤ afterIndex)
    {position : Nat}
    {entry : ReplicationEntry} (h : (log.after afterIndex)[position]? = some entry) :
    Placed log.term (afterIndex + position + 1)
      (log.baseTransactionId + (afterIndex - log.baseIndex) + position + 1) entry := by
  unfold after at h
  rw [getElem?_drop] at h
  have hplaced := hvalid.placed _ _ h
  rw [← Nat.add_assoc, Nat.add_sub_of_le hafter, ← Nat.add_assoc] at hplaced
  exact hplaced

end ReplicationLog

namespace ReplicationEntryBatch
open ReplicationLog (Placed)

theorem checkedAdd_eq {left right : Nat} (h : left + right < u64Size) :
    checkedAdd left right = some (left + right) := if_pos h

theorem validateEntries_eq_ok {index txn : Nat} {entries : List ReplicationEntry}
    (hplaced : ∀ position entry, entries[position]? = some entry →
      Placed batch.term (index + position + 1) (txn + position + 1) entry)
    (hindex : index + entries.length ≤ batch.lastIndex)
    (htransaction : txn + entries.length ≤ batch.lastTransactionId) :
    batch.validateEntries (checkedAdd index 1) (checkedAdd txn 1) entries = .ok () := by
  induction entries generalizing index txn with
  | nil => rfl
  | cons entry rest ih =>
    rw [length_cons] at hindex htransaction
    have hfirst := hplaced 0 entry rfl
    simp only [Nat.add_zero] at hfirst
    unfold validateEntries
    rw [hfirst.valid, checkedAdd_eq hfirst.index_lt, checkedAdd_eq hfirst.transactionId_lt]
    simp only [bind_eq_ok, raise_eq_ok, refuse_eq_ok, exists_const, not_not, not_lt,
      Option.some.injEq]
    rw [hfirst.term_eq, hfirst.index_eq, hfirst.transactionId_eq]
    refine ⟨trivial, rfl, rfl, by omega, rfl, by omega, ih ?_ (by omega) (by omega)⟩
    intro position other hother
    have hnext := hplaced (position + 1) other hother
    rw [← Nat.add_assoc, Nat.add_right_comm index, ← Nat.add_assoc,
      Nat.add_right_comm txn] at hnext
    exact hnext

theorem validate_eq_ok {expected : Nat}
    (hversion : batch.transportVersion = replicationTransportVersion)
    (hterm : batch.term ≠ 0) (hafter : batch.baseIndex ≤ batch.afterIndex)
    (hlast : batch.afterIndex ≤ batch.lastIndex)
    (htransaction : batch.lastTransactionId =
      batch.baseTransactionId + (batch.lastIndex - batch.baseIndex))
    (hbound : batch.lastTransactionId < u64Size)
    (hlength : batch.entries.length ≤ maxReplicationEntryBatch)
    (hsome : batch.entries = [] → batch.afterIndex = batch.lastIndex)
    (hcount : batch.afterIndex + batch.entries.length ≤ batch.lastIndex)
    (hexpected : expected = batch.baseTransactionId + (batch.afterIndex - batch.baseIndex))
    (hplaced : ∀ position entry, batch.entries[position]? = some entry →
      Placed batch.term (batch.afterIndex + position + 1) (expected + position + 1) entry)
    (hnext : batch.nextAfter = continuation batch.entries batch.lastIndex) :
    batch.validate = .ok () := by
  have hentries := validateEntries_eq_ok hplaced hcount (by omega)
  have hlt : expected < u64Size := by omega
  unfold validate
  rw [checkedAdd_eq (htransaction ▸ hbound), ← htransaction,
    @checkedAdd_eq batch.baseTransactionId _ (hexpected ▸ hlt), Option.bind_some, ← hexpected]
  simp only [bind_eq_ok, refuse_eq_ok, raise_eq_ok, exists_const, not_not, not_or, not_lt, not_and]
  refine ⟨hversion, ⟨hterm, hafter, hlast, by omega⟩, trivial, hlength, ?_, (), hentries, hnext⟩
  intro hempty
  exact (hsome hempty).ge

variable {log : ReplicationLog} {afterIndex : Nat} {entries : List ReplicationEntry}

theorem validate_ofEntries (hvalid : log.Valid) (hsized : log.Sized)
    (hafter : log.baseIndex ≤ afterIndex)
    (hlast : afterIndex ≤ log.lastIndex) (hentries : entries <+: log.after afterIndex)
    (hlength : entries.length ≤ maxReplicationEntryBatch)
    (hsome : entries = [] → afterIndex = log.lastIndex) :
    (ofEntries log afterIndex entries).validate = .ok () := by
  have hcount : afterIndex + entries.length ≤ log.lastIndex := by
    have hle := hentries.length_le
    rw [ReplicationLog.length_after hafter] at hle
    omega
  have htransaction : log.lastTransactionId =
      log.baseTransactionId + (log.lastIndex - log.baseIndex) := by
    unfold ReplicationLog.lastIndex ReplicationLog.lastTransactionId
    omega
  refine validate_eq_ok rfl hvalid.term hafter hlast htransaction
    (hvalid.last_lt hsized).2 hlength hsome
    hcount rfl ?_ rfl
  intro position entry hentry
  refine hvalid.placed_after hafter ?_
  obtain ⟨rest, hrest⟩ := hentries
  obtain ⟨hlt, _⟩ := List.getElem?_eq_some_iff.mp hentry
  rw [← hrest]
  exact (List.getElem?_append_left hlt).trans hentry

section Pages
theorem continuation_take (hvalid : log.Valid) (hafter : log.baseIndex ≤ afterIndex) {count : Nat}
    (hpositive : 0 < count) (hcount : count ≤ (log.after afterIndex).length) :
    continuation ((log.after afterIndex).take count) log.lastIndex =
      if afterIndex + count < log.lastIndex then some (afterIndex + count) else none := by
  have hlt : count - 1 < (log.after afterIndex).length := by omega
  have hplaced := hvalid.placed_after hafter (getElem?_eq_getElem hlt)
  have hlast : ((log.after afterIndex).take count).getLast? =
      some (log.after afterIndex)[count - 1] := by
    rw [getLast?_eq_getElem?, length_take, Nat.min_eq_left hcount,
      getElem?_take_of_lt (by omega), getElem?_eq_getElem hlt]
  have hindex := hplaced.index_eq
  rw [show afterIndex + (count - 1) + 1 = afterIndex + count by omega] at hindex
  unfold continuation
  rw [hlast, Option.bind_some, hindex]

variable [Runtime]

def Fits (log : ReplicationLog) (afterIndex : Nat) (entries : List ReplicationEntry) : Prop :=
  (ofEntries log afterIndex entries).text.length ≤ maxReplicationEntryBatchBytes

theorem gather_cons {entry : ReplicationEntry} {rest : List ReplicationEntry}
    (hcandidate : (ofEntries log afterIndex (entries ++ [entry])).validate = .ok ()) :
    gather log afterIndex entries (entry :: rest) =
      if maxReplicationEntryBatchBytes < (ofEntries log afterIndex
        (entries ++ [entry])).text.length then
        if entries.isEmpty then
          refused
            s!"one replication entry exceeds the {maxReplicationEntryBatchBytes}-byte batch response limit"
        else .ok entries
      else gather log afterIndex (entries ++ [entry]) rest := by
  simp only [gather, hcandidate, bind, Except.bind]

theorem gather_eq_ok {rest : List ReplicationEntry} (hvalid : log.Valid) (hsized : log.Sized)
    (hafter : log.baseIndex ≤ afterIndex) (hlast : afterIndex ≤ log.lastIndex)
    (hentries : entries ++ rest <+: log.after afterIndex)
    (hlength : entries.length + rest.length ≤ maxReplicationEntryBatch)
    (hfits : Fits log afterIndex entries)
    (hfirst : entries = [] → ∀ entry, rest.head? = some entry → Fits log afterIndex [entry]) :
    ∃ count, gather log afterIndex entries rest = .ok (entries ++ rest.take count) ∧
      Fits log afterIndex (entries ++ rest.take count) ∧
      (rest ≠ [] → entries ++ rest.take count ≠ []) := by
  induction rest generalizing entries with
  | nil => exact ⟨0, by simp [gather], by simpa using hfits, by simp⟩
  | cons entry rest ih =>
    have hpage : entries ++ [entry] <+: log.after afterIndex := by
      refine List.IsPrefix.trans ?_ hentries
      exact ⟨rest, by simp⟩
    have hpageLength : (entries ++ [entry]).length ≤ maxReplicationEntryBatch := by
      rw [length_append]
      simp only [length_cons, length_nil] at hlength ⊢
      omega
    have hcandidate := validate_ofEntries hvalid hsized hafter hlast hpage hpageLength (by simp)
    have hstep := @gather_cons log afterIndex entries _ entry rest hcandidate
    by_cases hlong : maxReplicationEntryBatchBytes < (ofEntries log afterIndex
      (entries ++ [entry])).text.length
    · cases entries with
      | nil => exact absurd (hfirst rfl entry rfl) (not_le.mpr hlong)
      | cons first others =>
        rw [if_pos hlong] at hstep
        exact ⟨0, by simpa using hstep, by simpa using hfits, by simp⟩
    · obtain ⟨count, hrun, hresult, hsome⟩ := @ih (entries ++ [entry]) (by simpa using hentries)
        (by simp only [length_append, length_cons, length_nil] at hlength ⊢; omega)
        (not_lt.mp hlong) (by simp)
      refine ⟨count + 1, ?_, by simpa using hresult, by simp⟩
      rw [hstep, if_neg hlong, hrun]
      simp

theorem fits_nil (hvalid : log.Valid) (hsized : log.Sized) (hlast : afterIndex ≤ log.lastIndex) :
    Fits log afterIndex [] := by
  have hbound := hvalid.last_lt hsized
  have hafter := natText_length_le (lt_of_le_of_lt hlast hbound.1)
  have hterm := natText_length_le hsized.term
  have hbaseIndex := natText_length_le hsized.baseIndex
  have hbase := natText_length_le hsized.baseTransactionId
  have hlastIndex := natText_length_le hbound.1
  have htransaction := natText_length_le hbound.2
  have hnames : ∀ name ∈ ["transport_version", "term", "base_index", "base_transaction_id",
    "after_index",
      "last_index", "last_transaction_id", "entries", "next_after"], (quoted name).length ≤ 30 := by
    decide +kernel
  unfold Fits text
  refine (@structText_length_le 110 _ ?_).trans (show 9 * (110 + 2) + 2 ≤ _ by decide)
  simp only [forall_mem_cons, not_mem_nil, false_imp_iff, implies_true, and_true] at hnames ⊢
  have hfixed : (natText replicationTransportVersion).length = 1 := by decide
  have hempty : (arrayText []).length = 2 := by decide
  have hnull : (optionText none).length = 4 := by decide
  simp only [ofEntries, continuation, map_nil, Option.map_none, getLast?_nil, Option.bind_none]
  omega

end Pages

end ReplicationEntryBatch

namespace ReplicationLog
open ReplicationEntryBatch
variable [Runtime] {log : ReplicationLog} {afterIndex : Nat}

theorem entryBatch_eq_ok (hvalid : log.Valid) (hsized : log.Sized)
    (hafter : log.baseIndex ≤ afterIndex)
    (hlast : afterIndex ≤ log.lastIndex) (hlimit : 1 ≤ limit)
    (hmax : limit ≤ maxReplicationEntryBatch)
    (hfirst : ∀ entry, (log.after afterIndex).head? = some entry → Fits log afterIndex [entry]) :
    ∃ count ≤ (log.after afterIndex).length, count ≤ limit ∧
      (afterIndex < log.lastIndex → 0 < count) ∧
      log.entryBatch afterIndex limit = .ok
        (ofEntries log afterIndex ((log.after afterIndex).take count)) ∧
      (ofEntries log afterIndex ((log.after afterIndex).take count)).validate = .ok () ∧
      Fits log afterIndex ((log.after afterIndex).take count) := by
  have hlength := length_after hafter
  obtain ⟨count, hgather, hfits, hsome⟩ := @gather_eq_ok log afterIndex [] _
    ((log.after afterIndex).take limit) hvalid hsized hafter hlast (List.take_prefix _ _)
    (by rw [length_take, length_nil]; omega) (fits_nil hvalid hsized hlast) (by
      intro _ entry hentry
      refine hfirst entry ?_
      rw [← hentry, head?_take, if_neg (by omega)])
  rw [take_take] at hgather hfits hsome
  have hprefix : (log.after afterIndex).take (min count limit) <+: log.after afterIndex :=
    take_prefix _ _
  have hempty : (log.after afterIndex).take (min count limit) = [] → afterIndex = log.lastIndex := by
    intro hnil
    by_contra hne
    refine hsome ?_ hnil
    intro htake
    have hzero := congrArg List.length htake
    rw [length_take, length_nil] at hzero
    omega
  have hbatch := validate_ofEntries hvalid hsized hafter hlast hprefix
    (by rw [length_take]; omega) hempty
  have htake : (log.after afterIndex).take (min (min count limit) (log.after afterIndex).length) =
      (log.after afterIndex).take (min count limit) := by
    rw [← take_take, take_length]
  refine ⟨min (min count limit) (log.after afterIndex).length, Nat.min_le_right ..,
    (Nat.min_le_left ..).trans (Nat.min_le_right ..), ?_, ?_⟩
  · intro hlt
    by_contra hzero
    have hnil : (log.after afterIndex).take (min count limit) = [] := by
      rw [← htake, Nat.eq_zero_of_not_pos hzero, take_zero]
    exact absurd (hempty hnil) hlt.ne
  · rw [htake]
    refine ⟨?_, hbatch, hfits⟩
    unfold entryBatch fromLog
    rw [validate_eq_ok.mpr hvalid, show log.entries.drop (afterIndex - log.baseIndex) =
      log.after afterIndex
      from rfl, hgather]
    simp only [bind_eq_ok, refuse_eq_ok, raise_eq_ok, exists_const, not_or, not_lt]
    exact ⟨⟨hlimit, hmax⟩, trivial, hafter, hlast, _, rfl, (), hbatch, rfl⟩

section Shipping
theorem fits_of_entryBatch {entry : ReplicationEntry} (hvalid : log.Valid) (hsized : log.Sized)
    (hafter : log.baseIndex ≤ afterIndex) (hentry : (log.after afterIndex).head? = some entry)
    (h : log.entryBatch afterIndex 1 = .ok batch) : Fits log afterIndex [entry] := by
  have hlength := @length_after log _ hafter
  obtain ⟨rest, hrest⟩ := head?_eq_some_iff.mp hentry
  have hlast : afterIndex ≤ log.lastIndex := by
    rw [hrest, length_cons] at hlength
    omega
  have hcandidate : (ofEntries log afterIndex ([] ++ [entry])).validate = .ok () :=
    validate_ofEntries hvalid hsized hafter hlast (by rw [hrest]; simp)
      (by simp [maxReplicationEntryBatch])
      (by simp)
  unfold entryBatch fromLog at h
  simp only [bind_eq_ok] at h
  obtain ⟨_, _, _, _, _, _, _, _, entries, hgather, _⟩ := h
  rw [show log.entries.drop (afterIndex - log.baseIndex) = entry :: rest from hrest, take_succ_cons,
    gather_cons hcandidate] at hgather
  refine not_lt.mp fun hlong => ?_
  rw [nil_append] at hgather
  rw [if_pos hlong] at hgather
  cases hgather

variable [BatchSerde]

/-- A page is written within the limit and read back. -/
def Transported (batch : ReplicationEntryBatch) : Prop :=
  ∃ bytes, batch.toJson = .ok bytes ∧ bytes.length ≤ maxReplicationEntryBatchBytes ∧
    fromJson bytes = .ok batch

/-- From every index on the pages end, hold the entries behind it, and are transported. -/
def Ships (log : ReplicationLog) : Prop :=
  ∀ afterIndex limit, log.baseIndex ≤ afterIndex → afterIndex ≤ log.lastIndex → 1 ≤ limit →
    limit ≤ maxReplicationEntryBatch →
    ∃ batches, Pages log limit afterIndex batches ∧
      batches.flatMap ReplicationEntryBatch.entries = log.entries.drop (afterIndex - log.baseIndex) ∧
      ∀ batch ∈ batches, Transported batch

/-- The page behind an index is read back from its text. -/
def ReadsBack (log : ReplicationLog) (afterIndex : Nat) (entries : List ReplicationEntry) : Prop :=
  BatchSerde.batchFromSlice (ofEntries log afterIndex entries).text =
    .ok (ofEntries log afterIndex entries)

/-- A page of the log is read back exactly when each of its entries is, on a page of its own.  The
entries of a page are read one after the other, at the same depth. -/
def ReadsPages (log : ReplicationLog) : Prop :=
  ∀ afterIndex entries, log.baseIndex ≤ afterIndex → afterIndex ≤ log.lastIndex →
    entries <+: log.after afterIndex →
    (ReadsBack log afterIndex entries ↔
      ∀ position entry, entries[position]? = some entry →
        ReadsBack log (afterIndex + position) [entry])

theorem transported_iff {entries : List ReplicationEntry}
    (hbatch : (ofEntries log afterIndex entries).validate = .ok ())
    (hfits : Fits log afterIndex entries) :
    Transported (ofEntries log afterIndex entries) ↔ ReadsBack log afterIndex entries := by
  have hjson : (ofEntries log afterIndex entries).toJson =
      .ok (ofEntries log afterIndex entries).text := by
    unfold toJson
    simp only [bind_eq_ok, refuse_eq_ok, exists_const, not_lt]
    exact ⟨(), hbatch, hfits, trivial⟩
  constructor
  · rintro ⟨bytes, hbytes, _, hread⟩
    rw [hjson] at hbytes
    cases hbytes
    unfold fromJson serialized at hread
    simp only [bind_eq_ok, refuse_eq_ok, exists_const] at hread
    obtain ⟨_, batch, hparse, _, _, hresult⟩ := hread
    cases hresult
    unfold ReadsBack
    cases hslice : BatchSerde.batchFromSlice (ofEntries log afterIndex entries).text with
    | error error => rw [hslice] at hparse; cases hparse
    | ok found => rw [hslice] at hparse; cases hparse; rfl
  · intro hread
    refine ⟨_, hjson, hfits, ?_⟩
    unfold fromJson serialized
    rw [show BatchSerde.batchFromSlice _ = _ from hread]
    simp only [bind_eq_ok, refuse_eq_ok, exists_const, not_lt]
    exact ⟨hfits, _, rfl, (), hbatch, rfl⟩

theorem pages_of_fits (hvalid : log.Valid) (hsized : log.Sized) (hserde : ReadsPages log)
    (hentries : ∀ position entry, log.entries[position]? = some entry →
      Fits log (log.baseIndex + position) [entry] ∧ ReadsBack log (log.baseIndex + position) [entry])
    (hafter : log.baseIndex ≤ afterIndex) (hlast : afterIndex ≤ log.lastIndex) (hlimit : 1 ≤ limit)
    (hmax : limit ≤ maxReplicationEntryBatch) :
    ∃ batches, Pages log limit afterIndex batches ∧
      batches.flatMap ReplicationEntryBatch.entries = log.after afterIndex ∧
      ∀ batch ∈ batches, Transported batch := by
  induction hleft : log.lastIndex - afterIndex using Nat.strong_induction_on
    generalizing afterIndex with
  | _ left ih =>
    have hfirst : ∀ entry, (log.after afterIndex).head? = some entry →
        Fits log afterIndex [entry] := by
      intro entry hentry
      rw [after, head?_drop] at hentry
      have hfits := (hentries _ _ hentry).1
      rwa [Nat.add_sub_of_le hafter] at hfits
    obtain ⟨count, hcount, _, hpositive, hbatch, hbatchValid, hfits⟩ :=
      entryBatch_eq_ok hvalid hsized hafter hlast hlimit hmax hfirst
    have hread : Transported (ofEntries log afterIndex ((log.after afterIndex).take count)) := by
      refine (transported_iff hbatchValid hfits).mpr
        ((hserde _ _ hafter hlast (List.take_prefix _ _)).mpr ?_)
      intro position entry hentry
      rw [getElem?_take, Option.ite_none_right_eq_some, after, getElem?_drop] at hentry
      have hreads := (hentries _ _ hentry.2).2
      rwa [← Nat.add_assoc, Nat.add_sub_of_le hafter] at hreads
    have hlength := @length_after log _ hafter
    by_cases hend : afterIndex + count < log.lastIndex
    · have hzero := hpositive (by omega)
      have hnext := continuation_take hvalid hafter hzero hcount
      rw [if_pos hend] at hnext
      -- the entries left are fewer, as the page has taken at least one
      obtain ⟨rest, hpages, hshipped, htransported⟩ :=
        ih (log.lastIndex - (afterIndex + count)) (by omega) (by omega) hend.le rfl
      refine ⟨_, .more hbatch hnext hpages, ?_, ?_⟩
      · rw [flatMap_cons, hshipped, after, after, Nat.sub_add_comm hafter, ← drop_drop]
        exact take_append_drop ..
      · exact forall_mem_cons.mpr ⟨hread, htransported⟩
    · have hall : (log.after afterIndex).take count = log.after afterIndex :=
        take_of_length_le (by omega)
      refine ⟨_, .last hbatch ?_, by simpa [ofEntries] using hall, by simpa using hread⟩
      show continuation ((log.after afterIndex).take count) log.lastIndex = none
      by_cases hzero : count = 0
      · rw [hzero]
        rfl
      · rw [continuation_take hvalid hafter (Nat.pos_of_ne_zero hzero) hcount, if_neg hend]

/-- A log is shipped exactly if each of its entries alone fits a page and is read back. -/
theorem ships_iff (hvalid : log.Valid) (hsized : log.Sized) (hserde : ReadsPages log) :
    Ships log ↔ ∀ position entry, log.entries[position]? = some entry →
      Fits log (log.baseIndex + position) [entry] ∧
        ReadsBack log (log.baseIndex + position) [entry] := by
  constructor
  · intro h position entry hentry
    have hlt := (List.getElem?_eq_some_iff.mp hentry).1
    have hhead : (log.after (log.baseIndex + position)).head? = some entry := by
      rw [after, head?_drop, Nat.add_sub_cancel_left]
      exact hentry
    obtain ⟨batches, hpages, hshipped, htransported⟩ := h (log.baseIndex + position) 1
      (Nat.le_add_right ..) (Nat.add_le_add_left hlt.le _) le_rfl (by decide)
    have hbatch : ∃ batch, log.entryBatch (log.baseIndex + position) 1 = .ok batch := by
      cases hpages with
      | last hbatch _ => exact ⟨_, hbatch⟩
      | more hbatch _ _ => exact ⟨_, hbatch⟩
    obtain ⟨batch, hbatch⟩ := hbatch
    have hfits := fits_of_entryBatch hvalid hsized (Nat.le_add_right ..) hhead hbatch
    refine ⟨hfits, ?_⟩
    -- with the limit 1 the first page is that of the entry alone
    obtain ⟨count, hcount, hone, hpositive, hpage, hpageValid, hpageFits⟩ :=
      entryBatch_eq_ok hvalid hsized
      (Nat.le_add_right ..) (Nat.add_le_add_left hlt.le _) le_rfl (by decide) fun other hother => by
        cases hhead.symm.trans hother
        exact hfits
    obtain rfl : count = 1 := le_antisymm hone (hpositive (Nat.add_lt_add_left hlt _))
    have hentries : (log.after (log.baseIndex + position)).take 1 = [entry] := by
      obtain ⟨rest, hrest⟩ := head?_eq_some_iff.mp hhead
      rw [hrest, take_succ_cons, take_zero]
    rw [hentries] at hpage hpageValid hpageFits
    have hfirst : ofEntries log (log.baseIndex + position) [entry] ∈ batches := by
      cases hpages with
      | last hbatch _ =>
        cases hpage.symm.trans hbatch
        exact mem_singleton_self _
      | more hbatch _ _ =>
        cases hpage.symm.trans hbatch
        exact mem_cons_self
    have hread := (transported_iff hpageValid hpageFits).mp (htransported _ hfirst)
    refine (hserde _ _ (Nat.le_add_right ..) (Nat.add_le_add_left hlt.le _) ?_).mp hread 0 entry rfl
    rw [← hentries]
    exact take_prefix _ _
  · intro h afterIndex limit hafter hlast hlimit hmax
    exact pages_of_fits hvalid hsized hserde h hafter hlast hlimit hmax

end Shipping

end ReplicationLog

end TxBase.Replication
