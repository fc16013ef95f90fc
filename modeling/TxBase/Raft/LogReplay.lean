import TxBase.Lib.Outcome
import TxBase.Raft.LogRecords

/-! Reading the journal again leads to the state that the calls have left in memory: the rules of
`apply_record` accept what the checks of the calls have accepted. -/
namespace TxBase.Raft
open Lib List
open LogStateData (applyRecord lastLogIndex snapshot unpurged appended)

variable {P V : Type} {index : Nat} {next : LogStateData P V} {record : JournalRecord P V}
  {call : Call P V}
  {records : List (JournalRecord P V)}

/-- The entries stand at consecutive indexes from `first` on. -/
def Consecutive : Nat → OrderedMap Nat (Entry P) → Prop
  | _, [] => True
  | first, entry :: rest =>
      entry.1 = first ∧ entry.2.logId.index = first ∧ Consecutive (first + 1) rest

/-- The log has no gap, also none behind what was purged. -/
def Dense (state : LogStateData P V) : Prop :=
  ∃ first, Consecutive first state.entries ∧
    ∀ purged, state.lastPurged = some purged → first = purged.index + 1

section Entries
variable {first : Nat} {entries : OrderedMap Nat (Entry P)}

section
variable (h : Consecutive first entries)
include h

theorem Consecutive.splitOff : splitOff index entries = entries.take (index - first) := by
  induction entries generalizing first with
  | nil => simp [Raft.splitOff]
  | cons entry rest ih =>
    obtain ⟨hkey, -, hrest⟩ := h
    rw [Raft.splitOff, filter_cons]
    by_cases hlt : first < index
    · rw [if_pos (by simpa [hkey] using hlt), show index - first = index - (first + 1) + 1 by omega,
        take_succ_cons]
      exact congrArg _ (ih hrest)
    · rw [if_neg (by simpa [hkey] using hlt), show index - first = 0 by omega, take_zero]
      have hempty := ih hrest
      rwa [show index - (first + 1) = 0 by omega, take_zero] at hempty

theorem Consecutive.purge :
    entries.filter (fun entry => index < entry.1) = entries.drop (index + 1 - first) := by
  induction entries generalizing first with
  | nil => simp
  | cons entry rest ih =>
    obtain ⟨hkey, -, hrest⟩ := h
    rw [filter_cons, ih hrest]
    by_cases hlt : index < first
    · rw [if_pos (by simpa [hkey] using hlt), show index + 1 - first = 0 by omega,
        show index + 1 - (first + 1) = 0 by omega, drop_zero, drop_zero]
    · rw [if_neg (by simpa [hkey] using hlt),
        show index + 1 - first = index + 1 - (first + 1) + 1 by omega, drop_succ_cons]

theorem Consecutive.take (count : Nat) : Consecutive first (entries.take count) := by
  induction entries generalizing first count with
  | nil => simpa using h
  | cons entry rest ih =>
    cases count with
    | zero => trivial
    | succ count => exact ⟨h.1, h.2.1, ih h.2.2 count⟩

theorem Consecutive.drop (count : Nat) : Consecutive (first + count) (entries.drop count) := by
  induction entries generalizing first count with
  | nil =>
    rw [drop_nil]
    trivial
  | cons entry rest ih =>
    cases count with
    | zero => exact h
    | succ count =>
      have hrest := ih h.2.2 count
      rwa [show first + 1 + count = first + (count + 1) by omega] at hrest

end

theorem Consecutive.append {more : OrderedMap Nat (Entry P)} (h : Consecutive first entries)
    (hmore : Consecutive (first + entries.length) more) : Consecutive first (entries ++ more) := by
  induction entries generalizing first with
  | nil => exact hmore
  | cons entry rest ih =>
    refine ⟨h.1, h.2.1, ih h.2.2 ?_⟩
    rwa [length_cons, show first + (rest.length + 1) = first + 1 + rest.length by omega] at hmore

theorem Consecutive.last (h : Consecutive first entries) {entry : Nat × Entry P}
    (hlast : entries.getLast? = some entry) : entry.1 + 1 = first + entries.length := by
  induction entries generalizing first with
  | nil => cases hlast
  | cons head rest ih =>
    cases rest with
    | nil =>
      have hsame : head = entry := Option.some.inj hlast
      rw [← hsame, h.1]
      rfl
    | cons next rest =>
      have hrest := ih h.2.2 hlast
      simp only [length_cons] at hrest ⊢
      omega

theorem insert_splitOff (index : Nat) (entry : Entry P) (entries : OrderedMap Nat (Entry P)) :
    OrderedMap.insert index entry (Raft.splitOff index entries) =
      Raft.splitOff index entries ++ [(index, entry)] := by
  apply OrderedMap.insert_last
  intro other hmem
  simpa using (mem_filter.mp hmem).2

end Entries

section Rules
variable {state : LogStateData P V}

/-- An entry at `index` leaves no gap behind the last one. -/
def Follows (state : LogStateData P V) (index : Nat) : Prop :=
  ∀ last, state.lastLogIndex = some last → index ≤ last + 1

theorem checkNext_eq_ok {source : String} (hindex : index < u64Size) :
    state.checkNext source index = .ok () ↔ Follows state index := by
  unfold LogStateData.checkNext Follows
  cases hlast : state.lastLogIndex with
  | none => simp
  | some last =>
    simp only [Option.some.injEq, forall_eq']
    by_cases hlt : last < index
    · rw [if_pos hlt, checkedAdd, if_pos (by omega)]
      by_cases heq : index = last + 1
      · simp [heq]
      · simp only [ne_eq, heq, not_false_eq_true, if_true, reduceCtorEq, false_iff]
        omega
    · rw [if_neg hlt]
      simp only [true_iff]
      omega

variable [LT V] [DecidableLT V]

theorem applyRecord_append {entry : Entry P} :
    state.applyRecord (.append entry) = .ok next ↔
      (covers state.lastPurged entry.logId.index = false ∧
        covers state.committed entry.logId.index = false) ∧ Follows state entry.logId.index ∧
      next = {
        state with
        entries := splitOff entry.logId.index state.entries ++ [(entry.logId.index, entry)] } := by
  rw [applyRecord, insert_splitOff]
  split
  · rename_i h
    refine ⟨nofun, fun hnot => ?_⟩
    rw [hnot.1.1, hnot.1.2] at h
    exact absurd h Bool.false_ne_true
  · rename_i h
    simp only [Bool.or_eq_true, not_or, Bool.not_eq_true] at h
    simp only [bind_eq_ok, checkNext_eq_ok entry.logId.index_lt, Except.ok.injEq, h,
      and_self, true_and,
      exists_const]
    exact and_congr_right fun _ => eq_comm

theorem Dense.append {entry : Entry P} (h : Dense state)
    (happly : state.applyRecord (.append entry) = .ok next) : Dense next := by
  obtain ⟨first, hentries, hpurged⟩ := h
  obtain ⟨⟨hcovers, -⟩, hfollows, rfl⟩ := applyRecord_append.mp happly
  generalize hindex : entry.logId.index = index at hcovers hfollows ⊢
  have hbehind : ∀ purged, state.lastPurged = some purged → first ≤ index := by
    intro purged hsome
    rw [hsome] at hcovers
    have hlt : purged.index < index := by simpa [covers] using hcovers
    rw [hpurged purged hsome]
    exact hlt
  rw [hentries.splitOff]
  by_cases hstart : first ≤ index ∧ index ≤ first + state.entries.length
  · refine ⟨first, (hentries.take _).append ?_, hpurged⟩
    rw [length_take, show first + min (index - first) state.entries.length = index by omega]
    exact ⟨rfl, hindex, trivial⟩
  · -- the entry stands alone: it replaces all, or the log was empty and nothing is purged
    have hnone : state.lastPurged = none ∧ state.entries.take (index - first) = [] := by
      cases hlast : state.entries.getLast? with
      | none =>
        have hempty := getLast?_eq_none_iff.mp hlast
        refine ⟨?_, by rw [hempty, take_nil]⟩
        cases hsome : state.lastPurged with
        | none => rfl
        | some purged =>
          have hle := hbehind purged hsome
          have hfirst := hpurged purged hsome
          have hnext := hfollows purged.index
          rw [lastLogIndex, hlast, hsome] at hnext
          have hnext := hnext rfl
          rw [hempty, length_nil] at hstart
          omega
      | some last =>
        have hend := hentries.last hlast
        have hnext := hfollows last.1
        rw [lastLogIndex, hlast] at hnext
        have hnext := hnext rfl
        refine ⟨?_, by rw [show index - first = 0 by omega, take_zero]⟩
        cases hsome : state.lastPurged with
        | none => rfl
        | some purged =>
          have hle := hbehind purged hsome
          omega
    refine ⟨index, ?_, fun purged hsome => absurd (hnone.1.symm.trans hsome) nofun⟩
    rw [hnone.2]
    exact ⟨rfl, hindex, trivial⟩

/-- The log starts no later than right behind `logId`. -/
def ReachesBack (state : LogStateData P V) (logId : LogId) : Prop :=
  state.lastPurged = none → ∀ entry, state.entries.head? = some entry → entry.1 ≤ logId.index + 1

theorem Dense.purge {logId : LogId} (h : Dense state) (hreaches : ReachesBack state logId)
    (happly : state.applyRecord (.purge logId) = .ok next) : Dense next := by
  obtain ⟨first, hentries, hpurged⟩ := h
  rw [applyRecord] at happly
  split at happly
  · cases happly
  · rename_i hbackwards
    cases happly
    refine ⟨logId.index + 1, ?_, fun purged hsome => by cases hsome; rfl⟩
    show Consecutive (logId.index + 1) (state.entries.filter fun entry => logId.index < entry.1)
    rw [hentries.purge]
    by_cases hle : first ≤ logId.index + 1
    · have hrest := hentries.drop (logId.index + 1 - first)
      rwa [show first + (logId.index + 1 - first) = logId.index + 1 by omega] at hrest
    · -- a purge before the first entry is a purge of an empty log
      rw [show logId.index + 1 - first = 0 by omega, drop_zero]
      cases hhead : state.entries with
      | nil => trivial
      | cons entry rest =>
        cases hsome : state.lastPurged with
        | none =>
          have hfirst := hreaches hsome entry (by rw [hhead]; rfl)
          rw [hhead] at hentries
          have := hentries.1
          omega
        | some purged =>
          have hfirst := hpurged purged hsome
          rw [hsome] at hbackwards
          simp only [Option.any_some, Bool.and_eq_true, decide_eq_true_eq, not_and,
            not_not] at hbackwards
          have hsame := hbackwards (by omega)
          rw [hsame] at hle
          omega

/-- The records that leave no gap. -/
def Admits (state : LogStateData P V) : JournalRecord P V → Prop
  | .purge logId => ReachesBack state logId
  | _ => True

theorem Dense.applyRecord (h : Dense state) (hadmits : Admits state record)
    (happly : state.applyRecord record = .ok next) : Dense next := by
  cases record with
  | append entry => exact h.append happly
  | purge logId => exact h.purge hadmits happly
  | vote vote =>
    rw [applyRecord] at happly
    split at happly
    · cases happly
    · cases happly
      exact h
  | committed committed =>
    rw [applyRecord] at happly
    split at happly
    · cases happly
      exact h
    · cases happly
  | truncate logId =>
    rw [applyRecord] at happly
    split at happly
    · cases happly
    · cases happly
      obtain ⟨first, hentries, hpurged⟩ := h
      refine ⟨first, ?_, hpurged⟩
      show Consecutive first (splitOff logId.index state.entries)
      rw [hentries.splitOff]
      exact hentries.take _

end Rules

section Calls
variable {state : LogStateData P V} {entries rest : List (Entry P)} {first : Entry P}

def Numbered : Nat → List (Entry P) → Prop
  | _, [] => True
  | index, entry :: rest => entry.logId.index = index ∧ Numbered (index + 1) rest

theorem checkContiguous_eq_ok {previous : Nat} :
    checkContiguous (some previous) entries = .ok () ↔ Numbered (previous + 1) entries := by
  induction entries generalizing previous with
  | nil => simp [checkContiguous, Numbered]
  | cons entry rest ih =>
    rw [checkContiguous, Numbered, checkedAdd]
    by_cases heq : entry.logId.index = previous + 1
    · have hroom := entry.logId.index_lt
      rw [if_pos (by omega)]
      simp only [heq, ne_eq, not_true_eq_false, if_false, true_and]
      exact ih
    · by_cases hroom : previous + 1 < u64Size
      · simp [heq, hroom]
      · simp [heq, hroom]

theorem Numbered.dropWhile (h : Numbered index entries) (skipped : Entry P → Bool)
    (heq : entries.dropWhile skipped = first :: rest) : Numbered (first.logId.index + 1) rest := by
  induction entries generalizing index with
  | nil => cases heq
  | cons entry others ih =>
    rw [dropWhile_cons] at heq
    split at heq
    · exact ih h.2 heq
    · cases heq
      rw [h.1]
      exact h.2

def keyed (entries : List (Entry P)) : OrderedMap Nat (Entry P) :=
  entries.map fun entry => (entry.logId.index, entry)

theorem insert_numbered (entries : List (Entry P)) (log : OrderedMap Nat (Entry P))
    (hnumbered : Numbered index entries) (hlog : ∀ entry ∈ log, entry.1 < index) :
    entries.foldl (fun log entry => OrderedMap.insert entry.logId.index entry log) log =
      log ++ keyed entries := by
  induction entries generalizing log index with
  | nil => simp [keyed]
  | cons entry rest ih =>
    obtain ⟨hindex, hrest⟩ := hnumbered
    rw [foldl_cons, OrderedMap.insert_last (by rwa [hindex]),
      ih _ hrest ?_, append_assoc]
    · rfl
    · intro other hmem
      rcases mem_append.mp hmem with hmem | hmem
      · have := hlog other hmem
        omega
      · rw [mem_singleton.mp hmem]
        exact hindex ▸ Nat.lt_succ_self _

theorem not_covers {position : Option LogId} (h : covers position index = false) {later : Nat}
    (hle : index ≤ later) : covers position later = false := by
  cases position with
  | none => rfl
  | some logId =>
    simp only [covers, Option.any_some, decide_eq_false_iff_not] at h ⊢
    omega

theorem unpurged_cons (hcontiguous : checkContiguous none entries = .ok ())
    (h : state.unpurged entries = first :: rest) :
    covers state.lastPurged first.logId.index = false ∧ Numbered (first.logId.index + 1) rest ∧
      ∀ entry ∈ first :: rest, entry ∈ entries := by
  unfold unpurged at h
  cases entries with
  | nil =>
    split at h
    · cases h
    · cases h
  | cons head others =>
    have hothers := checkContiguous_eq_ok.mp hcontiguous
    cases hsome : state.lastPurged with
    | none =>
      rw [hsome] at h
      cases h
      exact ⟨rfl, hothers, fun _ hmem => hmem⟩
    | some purged =>
      rw [hsome] at h
      dsimp only at h
      have hall : Numbered head.logId.index (head :: others) := ⟨rfl, hothers⟩
      refine ⟨?_, hall.dropWhile _ h, fun entry hmem => ?_⟩
      · have hkept := head?_dropWhile_not
          (fun entry : Entry P => decide (entry.logId.index ≤ purged.index)) (head :: others)
        rw [h] at hkept
        simpa [covers] using hkept
      · exact (dropWhile_sublist _).subset (h ▸ hmem)

variable [LT V] [DecidableLT V]

theorem replay_append (hpurged : covers state.lastPurged first.logId.index = false)
    (hcommitted : covers state.committed first.logId.index = false)
    (hfollows : Follows state first.logId.index) (hrest : Numbered (first.logId.index + 1) rest) :
    state.replay ((first :: rest).map .append) = .ok {
      state with
      entries := splitOff first.logId.index state.entries ++ keyed (first :: rest) } := by
  induction rest generalizing state first with
  | nil =>
    show (do .ok (← state.applyRecord (.append first))) = _
    rw [applyRecord_append.mpr ⟨⟨hpurged, hcommitted⟩, hfollows, rfl⟩]
    rfl
  | cons entry rest ih =>
    obtain ⟨hindex, hrest⟩ := hrest
    generalize hnext : ({ state with entries := splitOff first.logId.index state.entries ++
      [(first.logId.index, first)] } : LogStateData P V) = next
    have happly : state.applyRecord (.append first) = .ok next :=
      applyRecord_append.mpr ⟨⟨hpurged, hcommitted⟩, hfollows, hnext.symm⟩
    have hkept : splitOff entry.logId.index next.entries = next.entries := by
      refine filter_eq_self.mpr fun other hmem => ?_
      rw [← hnext] at hmem
      rcases mem_append.mp hmem with hmem | hmem
      · have := of_decide_eq_true (mem_filter.mp hmem).2
        simp only [hindex, decide_eq_true_eq]
        omega
      · rw [mem_singleton.mp hmem]
        simp [hindex]
    have hlast : Follows next entry.logId.index := by
      intro last heq
      rw [lastLogIndex, ← hnext] at heq
      simp only [getLast?_concat, Option.map_some, Option.some_or, Option.some.injEq] at heq
      omega
    show (do (← state.applyRecord (.append first)).replay ((entry :: rest).map .append)) = _
    rw [happly]
    show next.replay _ = _
    rw [ih ?_ ?_ hlast (by rwa [hindex]), hkept]
    · subst hnext
      simp [keyed]
    · rw [← hnext]
      exact not_covers hpurged (by omega)
    · rw [← hnext]
      exact not_covers hcommitted (by omega)

variable {change : Change P V}

theorem checkAppend_replays (h : state.checkAppend entries = .ok (some change)) :
    state.replay change.records = .ok change.next ∧ ∀ record ∈ change.records,
      ∃ entry ∈ entries, record = .append entry := by
  rw [LogStateData.checkAppend, bind_eq_ok] at h
  obtain ⟨⟨⟩, hcontiguous, h⟩ := h
  cases hentries : state.unpurged entries with
  | nil =>
    rw [hentries] at h
    cases h
  | cons first rest =>
    obtain ⟨hpurged, hnumbered, hsub⟩ := unpurged_cons hcontiguous hentries
    rw [hentries] at h
    dsimp only at h
    split at h
    · cases h
    · rename_i hfilter
      rw [bind_eq_ok] at h
      obtain ⟨⟨⟩, hnext, h⟩ := h
      cases h
      have hcommitted : covers state.committed first.logId.index = false := by
        cases hsome : state.committed with
        | none => rfl
        | some committed =>
          rw [hsome] at hfilter
          simpa [covers, Option.filter] using hfilter
      refine ⟨?_, fun record hmem => ?_⟩
      · have hinsert := insert_numbered (first :: rest) (splitOff first.logId.index state.entries)
          ⟨rfl, hnumbered⟩ fun entry hmem => of_decide_eq_true (mem_filter.mp hmem).2
        rw [appended, hinsert]
        exact replay_append hpurged hcommitted ((checkNext_eq_ok first.logId.index_lt).mp hnext)
          hnumbered
      · obtain ⟨entry, hentry, rfl⟩ := mem_map.mp hmem
        exact ⟨entry, hsub entry hentry, rfl⟩

/-- The journal record that a call of one record writes. -/
def Call.record? : Call P V → Option (JournalRecord P V)
  | .appendEntries _ => none
  | .saveVote vote => some (.vote vote)
  | .saveCommitted committed => some (.committed committed)
  | .truncate logId => some (.truncate logId)
  | .purge logId => some (.purge logId)

theorem replay_single (record : JournalRecord P V) :
    state.replay [record] = state.applyRecord record := by
  show (do .ok (← state.applyRecord record)) = _
  cases state.applyRecord record <;> rfl

theorem checkCommitted_applies {committed : Option LogId}
    (h : state.checkCommitted committed = .ok (some change)) :
    change.records = [.committed committed] ∧
      state.applyRecord (.committed committed) = .ok change.next := by
  unfold LogStateData.checkCommitted at h
  rw [applyRecord]
  cases hcurrent : state.committed with
  | none =>
    rw [hcurrent] at h
    split at h
    · cases h
    · cases h
      exact ⟨rfl, rfl⟩
  | some current =>
    rw [hcurrent] at h
    split at h
    · cases h
    · cases committed with
      | none => cases h
      | some later =>
        dsimp only at h
        split at h
        · rename_i hlt
          cases h
          exact ⟨rfl, if_pos (by simp [hlt])⟩
        · split at h
          · cases h
          · cases h

theorem Dense.replay (h : Dense state) (hpurges : ∀ logId, .purge logId ∉ records)
    (hreplay : state.replay records = .ok next) : Dense next := by
  induction records generalizing state with
  | nil =>
    cases hreplay
    exact h
  | cons record rest ih =>
    obtain ⟨middle, happly, hrest⟩ := bind_eq_ok.mp hreplay
    refine ih (h.applyRecord ?_ happly) (fun logId hmem => hpurges logId (mem_cons_of_mem _ hmem))
      hrest
    cases record with
    | purge logId => exact absurd mem_cons_self (hpurges logId)
    | _ => trivial

theorem replay_take (h : state.replay records = .ok next) (kept : Nat) :
    ∃ middle, state.replay (records.take kept) = .ok middle := by
  unfold LogStateData.replay at h
  rw [← take_append_drop kept records, foldlM_append] at h
  obtain ⟨middle, hfirst, -⟩ := bind_eq_ok.mp h
  exact ⟨middle, hfirst⟩

variable [DecidableEq V]

theorem check_applies (hrecord : call.record? = some record)
    (h : state.check call = .ok (some change)) :
    change.records = [record] ∧ state.applyRecord record = .ok change.next := by
  cases call with
  | appendEntries entries => cases hrecord
  | saveVote vote =>
    cases hrecord
    rw [LogStateData.check, LogStateData.checkVote] at h
    split at h
    · cases h
    · split at h
      · cases h
      · rename_i hforward
        cases h
        exact ⟨rfl, if_neg hforward⟩
  | saveCommitted committed =>
    cases hrecord
    exact checkCommitted_applies h
  | truncate logId =>
    cases hrecord
    rw [LogStateData.check, LogStateData.checkTruncate] at h
    split at h
    · cases h
    · rename_i hkept
      split at h
      · cases h
      · rename_i hcommitted
        cases h
        refine ⟨rfl, if_neg ?_⟩
        simp only [Bool.or_eq_true, not_or] at hkept ⊢
        exact ⟨hkept.1, hcommitted⟩
  | purge logId =>
    cases hrecord
    rw [LogStateData.check, LogStateData.checkPurge] at h
    rw [applyRecord]
    split at h
    · rename_i hnone
      cases h
      exact ⟨rfl, if_neg (by simp [hnone])⟩
    · rename_i purged hsome
      split at h
      · cases h
      · split at h
        · split at h
          · cases h
          · cases h
        · cases h
          refine ⟨rfl, if_neg ?_⟩
          simp only [hsome, Option.any_some, Bool.and_eq_true, decide_eq_true_eq, not_and]
          omega

theorem check_replays (h : state.check call = .ok (some change)) :
    state.replay change.records = .ok change.next := by
  cases hrecord : call.record? with
  | none =>
    cases call with
    | appendEntries entries => exact (checkAppend_replays h).1
    | _ => cases hrecord
  | some record =>
    obtain ⟨hrecords, happly⟩ := check_applies hrecord h
    rw [hrecords, replay_single, happly]

/-- The calls that leave no gap: a purge starts no earlier than the log. -/
def Call.Admitted (state : LogStateData P V) : Call P V → Prop
  | .purge logId => ReachesBack state logId
  | _ => True

theorem check_dense (hdense : Dense state) (hadmitted : call.Admitted state)
    (h : state.check call = .ok (some change)) (kept : Nat) :
    ∃ middle, state.replay (change.records.take kept) = .ok middle ∧ Dense middle := by
  obtain ⟨middle, hmiddle⟩ := replay_take (check_replays h) kept
  refine ⟨middle, hmiddle, ?_⟩
  by_cases hpurge : ∃ logId, call = .purge logId
  · obtain ⟨logId, rfl⟩ := hpurge
    obtain ⟨hrecords, happly⟩ := check_applies rfl h
    rw [hrecords] at hmiddle
    cases kept with
    | zero =>
      cases hmiddle
      exact hdense
    | succ kept =>
      rw [take_succ_cons, take_nil, replay_single] at hmiddle
      exact hdense.purge hadmitted hmiddle
  · refine hdense.replay (fun logId hmem => ?_) hmiddle
    have hmem := mem_of_mem_take hmem
    cases hrecord : call.record? with
    | none =>
      cases call with
      | appendEntries entries =>
        obtain ⟨entry, -, heq⟩ := (checkAppend_replays h).2 _ hmem
        cases heq
      | _ => cases hrecord
    | some record =>
      rw [(check_applies hrecord h).1] at hmem
      obtain rfl := mem_singleton.mp hmem
      cases call with
      | purge other => exact hpurge ⟨other, rfl⟩
      | _ => cases hrecord

end Calls

section Snapshot
variable {state : LogStateData P V}

theorem Consecutive.numbered {first : Nat} {entries : OrderedMap Nat (Entry P)}
    (h : Consecutive first entries) :
    Numbered first (entries.map Prod.snd) ∧ keyed (entries.map Prod.snd) = entries := by
  induction entries generalizing first with
  | nil => exact ⟨trivial, rfl⟩
  | cons entry rest ih =>
    obtain ⟨hkey, hindex, hrest⟩ := h
    obtain ⟨hnumbered, hkeyed⟩ := ih hrest
    refine ⟨⟨hindex, hnumbered⟩, ?_⟩
    rw [map_cons, keyed, map_cons, hindex, ← hkey]
    exact congrArg _ hkeyed

theorem mem_snapshot : record ∈ state.snapshot ↔
    (∃ purged, state.lastPurged = some purged ∧ .purge purged = record) ∨
      (∃ vote, state.vote = some vote ∧ .vote vote = record) ∨
      (∃ entry ∈ state.entries, .append entry.2 = record) ∨
      ∃ committed, state.committed = some committed ∧ .committed (some committed) = record := by
  simp only [snapshot, mem_append, Option.mem_toList, Option.map_eq_some_iff,
    mem_map, or_assoc]

variable [LT V] [DecidableLT V]

theorem replay_append_list (left right : List (JournalRecord P V)) :
    state.replay (left ++ right) = (do (← state.replay left).replay right) :=
  foldlM_append

theorem replay_snapshot (h : Dense state) : LogStateData.replay {} state.snapshot = .ok state := by
  obtain ⟨first, hentries, hpurged⟩ := h
  obtain ⟨hnumbered, hkeyed⟩ := hentries.numbered
  obtain ⟨entries, lastPurged, committed, vote⟩ := state
  dsimp only at hentries hpurged hnumbered hkeyed
  have hstart : LogStateData.replay ({} : LogStateData P V)
      ((lastPurged.map .purge).toList ++ (vote.map .vote).toList) =
        .ok { lastPurged := lastPurged, vote := vote } := by
    cases lastPurged <;> cases vote <;> rfl
  have hmiddle : LogStateData.replay
      ({ lastPurged := lastPurged, vote := vote } : LogStateData P V)
      (entries.map fun entry => .append entry.2) =
        .ok { lastPurged := lastPurged, vote := vote, entries := entries } := by
    cases entries with
    | nil => rfl
    | cons entry rest =>
      obtain ⟨hindex, hrest⟩ := hnumbered
      have hreplay := @replay_append P V { lastPurged := lastPurged, vote := vote }
        (rest.map Prod.snd) entry.2 _ _ ?_ rfl ?_ (by rwa [hindex])
      · rw [show (fun entry : Nat × Entry P => (.append entry.2 : JournalRecord P V)) =
          JournalRecord.append ∘ Prod.snd from rfl, ← map_map, map_cons, hreplay]
        exact congrArg (fun entries => Except.ok (LogStateData.mk entries _ _ _)) hkeyed
      · cases hsome : lastPurged with
        | none => rfl
        | some purged =>
          have := hpurged purged hsome
          simp only [covers, Option.any_some, decide_eq_false_iff_not]
          omega
      · intro last hlast
        cases hsome : lastPurged with
        | none =>
          rw [hsome] at hlast
          cases hlast
        | some purged =>
          have := hpurged purged hsome
          rw [hsome] at hlast
          cases hlast
          omega
  rw [snapshot, replay_append_list, replay_append_list, hstart]
  show (do (← LogStateData.replay _ _).replay _) = _
  rw [hmiddle]
  cases committed <;> rfl

theorem mem_snapshot_applyRecord {other : JournalRecord P V}
    (happly : state.applyRecord record = .ok next)
    (hmem : other ∈ next.snapshot) :
    other ∈ state.snapshot ∨ other = record := by
  simp only [mem_snapshot] at hmem ⊢
  cases record with
  | append entry =>
    obtain ⟨-, -, rfl⟩ := applyRecord_append.mp happly
    rcases hmem with hmem | hmem | ⟨kept, hkept, rfl⟩ | hmem
    · exact .inl (.inl hmem)
    · exact .inl (.inr (.inl hmem))
    · rcases mem_append.mp hkept with hkept | hkept
      · exact .inl (.inr (.inr (.inl ⟨kept, (mem_filter.mp hkept).1, rfl⟩)))
      · exact .inr (by rw [mem_singleton.mp hkept])
    · exact .inl (.inr (.inr (.inr hmem)))
  | vote vote =>
    rw [applyRecord] at happly
    split at happly
    · cases happly
    · cases happly
      rcases hmem with hmem | ⟨new, heq, rfl⟩ | hmem
      · exact .inl (.inl hmem)
      · exact .inr (by rw [Option.some.inj heq])
      · exact .inl (.inr (.inr hmem))
  | committed committed =>
    rw [applyRecord] at happly
    split at happly
    · cases happly
      rcases hmem with hmem | hmem | hmem | ⟨new, heq, rfl⟩
      · exact .inl (.inl hmem)
      · exact .inl (.inr (.inl hmem))
      · exact .inl (.inr (.inr (.inl hmem)))
      · exact .inr (congrArg JournalRecord.committed heq.symm)
    · cases happly
  | truncate logId =>
    rw [applyRecord] at happly
    split at happly
    · cases happly
    · cases happly
      rcases hmem with hmem | hmem | ⟨kept, hkept, rfl⟩ | hmem
      · exact .inl (.inl hmem)
      · exact .inl (.inr (.inl hmem))
      · exact .inl (.inr (.inr (.inl ⟨kept, (mem_filter.mp hkept).1, rfl⟩)))
      · exact .inl (.inr (.inr (.inr hmem)))
  | purge logId =>
    rw [applyRecord] at happly
    split at happly
    · cases happly
    · cases happly
      rcases hmem with ⟨new, heq, rfl⟩ | hmem | ⟨kept, hkept, rfl⟩ | hmem
      · exact .inr (by rw [Option.some.inj heq])
      · exact .inl (.inr (.inl hmem))
      · exact .inl (.inr (.inr (.inl ⟨kept, (mem_filter.mp hkept).1, rfl⟩)))
      · exact .inl (.inr (.inr (.inr hmem)))

end Snapshot

end TxBase.Raft
