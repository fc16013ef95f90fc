import TxBase.Dbf.Cdc

/-! Reading the change log of a table, whole or in pages (`read` and `read_page` of
`src/dbf/cdc.rs`).  A page is collected with one event more than it returns, and that event
decides whether another page follows. -/
namespace TxBase.Dbf
open Lib List

def maxCdcPageSize : Nat := 1000

section Reading
variable [Serde]

/-- The loop over the records of the log.  All are decoded and checked, those behind `after`
are kept up to one more than a page. -/
def collectEvents (after limit last : Option Nat) (events : List ChangeEvent) :
    List Bytes → Checked (List ChangeEvent)
  | [] => .ok events
  | record :: rest => do
      match ← decodeCdcPayload record with
      | none => invalid "CDC log contains an unknown record"
      | some event => do
          reject (last.any fun last => event.transactionId ≤ last)
            "CDC transaction IDs are not strictly increasing"
          let kept := after.all (· < event.transactionId) && limit.all (events.length ≤ ·)
          collectEvents after limit (some event.transactionId)
            (if kept then events ++ [event] else events) rest

def readPageInternal (log : LogFile) (after limit : Option Nat) :
    Checked (List ChangeEvent × Option Nat) :=
  if log = .absent then .ok ([], none)
  else do
    let records ← log.payloads
    let events ← collectEvents after limit none [] records
    let nextAfter := limit.bind fun pageSize =>
      if events.length > pageSize then events[pageSize - 1]?.map (·.transactionId) else none
    .ok (limit.elim events events.take, nextAfter)

def readCdc (log : LogFile) (after : Option Nat) : Checked (List ChangeEvent) := do
  let (events, _) ← readPageInternal log after none
  .ok events

def readCdcPage (log : LogFile) (after : Option Nat) (limit : Nat) :
    Checked (List ChangeEvent × Option Nat) := do
  reject (¬ (1 ≤ limit ∧ limit ≤ maxCdcPageSize))
    s!"CDC page size must be between 1 and {maxCdcPageSize}"
  readPageInternal log after (some limit)

/-- The log holds these events, one for each record, in growing order of their ids. -/
structure LogFile.Lists (log : LogFile) (events : List ChangeEvent) : Prop where
  decoded : ∃ records, log.payloads = .ok records ∧
    List.Forall₂ (fun record event => decodeCdcPayload record = .ok (some event)) records events
  ascending : events.Pairwise fun left right => left.transactionId < right.transactionId

/-- The calls of a client that asks for the next page until none is named, each with what it
returned. -/
inductive Followed (log : LogFile) (limit : Nat) :
    Option Nat → List (List ChangeEvent × Option Nat) → Prop
  | last {after : Option Nat} {events : List ChangeEvent}
      (call : readCdcPage log after limit = .ok (events, none)) :
      Followed log limit after [(events, none)]
  | more {after : Option Nat} {events : List ChangeEvent} {next : Nat}
      {pages : List (List ChangeEvent × Option Nat)}
      (call : readCdcPage log after limit = .ok (events, some next))
      (rest : Followed log limit (some next) pages) :
      Followed log limit after ((events, some next) :: pages)

def behind (after : Option Nat) (events : List ChangeEvent) : List ChangeEvent :=
  events.filter fun event => after.all (· < event.transactionId)

/-- What a collection keeps: a page and one event more. -/
def lookahead (limit : Option Nat) (events : List ChangeEvent) : List ChangeEvent :=
  limit.elim events fun pageSize => events.take (pageSize + 1)

variable {log : LogFile} {events : List ChangeEvent} {after : Option Nat}

theorem collectEvents_eq_ok {limit last : Option Nat} {kept : List ChangeEvent}
    {records : List Bytes}
    (hdecoded : List.Forall₂ (fun record event => decodeCdcPayload record = .ok (some event))
      records events)
    (hascending : events.Pairwise fun left right => left.transactionId < right.transactionId)
    (hlast : ∀ id ∈ last, ∀ event ∈ events, id < event.transactionId)
    (hkept : ∀ pageSize ∈ limit, kept.length ≤ pageSize + 1) :
    collectEvents after limit last kept records =
      .ok (lookahead limit (kept ++ behind after events)) := by
  induction hdecoded generalizing last kept with
  | nil =>
    cases limit with
    | none => simp [collectEvents, lookahead, behind]
    | some pageSize => simp [collectEvents, lookahead, behind, take_of_length_le (hkept _ rfl)]
  | @cons record event records events hrecord _ ih =>
    obtain ⟨hfirst, hrest⟩ := pairwise_cons.mp hascending
    have hnew : ¬ (last.any fun last => event.transactionId ≤ last) = true := by
      cases last with
      | none => simp
      | some last => simpa using hlast last rfl event mem_cons_self
    have hnext : ∀ id ∈ some event.transactionId, ∀ other ∈ events, id < other.transactionId := by
      rintro id ⟨⟩
      exact hfirst
    have hstep : collectEvents after limit last kept (record :: records) =
        collectEvents after limit (some event.transactionId)
          (if after.all (· < event.transactionId) && limit.all (kept.length ≤ ·)
            then kept ++ [event] else kept) records := by
      show decodeCdcPayload record >>= _ = _
      rw [hrecord]
      show reject _ _ >>= _ = _
      rw [reject, if_neg hnew]
      rfl
    rw [hstep]
    by_cases hbehind : after.all (· < event.transactionId)
    · have hcons : behind after (event :: events) = event :: behind after events := by
        simp [behind, hbehind]
      rw [hcons]
      by_cases hroom : limit.all (kept.length ≤ ·)
      · -- There is room: the event is kept.
        have hroom' : ∀ pageSize ∈ limit, (kept ++ [event]).length ≤ pageSize + 1 := by
          rintro pageSize ⟨⟩
          simpa using hroom
        rw [if_pos (by simp [hbehind, hroom]), ih hrest hnext hroom', append_assoc]
        rfl
      · -- The page and the event behind it are there already.
        rw [if_neg (by simp [hroom]), ih hrest hnext hkept]
        cases limit with
        | none => simp at hroom
        | some pageSize =>
          have hfull : kept.length = pageSize + 1 := by
            have hle := hkept pageSize rfl
            simp only [Option.all_some, decide_eq_true_eq] at hroom
            omega
          simp [lookahead, ← hfull]
    · have hcons : behind after (event :: events) = behind after events := by
        simp [behind, hbehind]
      rw [if_neg (by simp [hbehind]), ih hrest hnext hkept, hcons]

omit [Serde] in
theorem behind_next {front rest : List ChangeEvent} {event : ChangeEvent}
    (hascending : events.Pairwise fun left right => left.transactionId < right.transactionId)
    (hsplit : behind after events = front ++ event :: rest) :
    behind (some event.transactionId) events = rest := by
  have hmem : event ∈ behind after events := by simp [hsplit]
  have hsorted : (behind after events).Pairwise
      fun left right => left.transactionId < right.transactionId := hascending.filter _
  have hfilter : behind (some event.transactionId) events =
      behind (some event.transactionId) (behind after events) := by
    rw [behind, behind, behind, filter_filter]
    apply filter_congr
    intro other _
    have hafter : after.all (· < event.transactionId) := (mem_filter.mp hmem).2
    cases after with
    | none => simp
    | some id =>
      simp only [Option.all_some, decide_eq_true_eq] at hafter ⊢
      by_cases hless : event.transactionId < other.transactionId
      · simp [hless, hafter.trans hless]
      · simp [hless]
  rw [hsplit, pairwise_append, pairwise_cons] at hsorted
  obtain ⟨_, ⟨hrest, _⟩, hfront⟩ := hsorted
  rw [hfilter, hsplit, behind, filter_append, filter_eq_nil_iff.mpr, nil_append,
    filter_cons_of_neg (by simp), filter_eq_self.mpr]
  · intro other hother
    simpa using hrest other hother
  · intro other hother
    simpa using (hfront other hother event mem_cons_self).le

theorem LogFile.Lists.readPageInternal_eq (h : log.Lists events) (limit : Option Nat) :
    readPageInternal log after limit =
      let kept := lookahead limit (behind after events)
      .ok (limit.elim kept kept.take, limit.bind fun pageSize =>
        if kept.length > pageSize then kept[pageSize - 1]?.map (·.transactionId) else none) := by
  obtain ⟨records, hrecords, hdecoded⟩ := h.decoded
  have hcollect : collectEvents after limit none [] records =
      .ok (lookahead limit ([] ++ behind after events)) :=
    collectEvents_eq_ok hdecoded h.ascending nofun (by simp)
  unfold readPageInternal
  split
  · -- Without a file there are no events.
    subst log
    cases hrecords
    cases hdecoded
    cases limit <;> simp [lookahead, behind]
  · rw [hrecords]
    show collectEvents after limit none [] records >>= _ = _
    rw [hcollect]
    rfl

theorem LogFile.Lists.readCdc_eq (h : log.Lists events) :
    readCdc log after = .ok (behind after events) := by
  unfold readCdc
  rw [h.readPageInternal_eq]
  rfl

variable {limit : Nat}

theorem LogFile.Lists.readCdcPage_eq (h : log.Lists events)
    (hlimit : 1 ≤ limit ∧ limit ≤ maxCdcPageSize) :
    readCdcPage log after limit =
      let kept := (behind after events).take (limit + 1)
      .ok (kept.take limit,
        if kept.length > limit then kept[limit - 1]?.map (·.transactionId) else none) := by
  unfold readCdcPage
  rw [h.readPageInternal_eq, reject, if_neg (not_not.mpr hlimit)]
  rfl

theorem LogFile.Lists.last_page (h : log.Lists events) (hlimit : 1 ≤ limit ∧ limit ≤ maxCdcPageSize)
    (hlast : (behind after events).length ≤ limit) :
    readCdcPage log after limit = .ok (behind after events, none) := by
  have hall : (behind after events).take (limit + 1) = behind after events :=
    take_of_length_le (by omega)
  rw [h.readCdcPage_eq hlimit]
  simp only [hall]
  rw [take_of_length_le hlast, if_neg (by omega)]

theorem LogFile.Lists.full_page (h : log.Lists events) (hlimit : 1 ≤ limit ∧ limit ≤ maxCdcPageSize)
    (hmore : limit < (behind after events).length) :
    ∃ front event rest, behind after events = front ++ event :: rest ∧ rest ≠ [] ∧
      readCdcPage log after limit = .ok (front ++ [event], some event.transactionId) := by
  have hposition : limit - 1 < (behind after events).length := by omega
  have hfront : ((behind after events).take (limit - 1)).length = limit - 1 := by
    rw [length_take]
    omega
  refine ⟨(behind after events).take (limit - 1), (behind after events)[limit - 1],
    (behind after events).drop (limit - 1 + 1), ?_, ?_, ?_⟩
  · rw [← drop_eq_getElem_cons, take_append_drop]
  · rw [Ne, drop_eq_nil_iff]
    omega
  · have hlength : ((behind after events).take (limit + 1)).length > limit := by
      rw [length_take]
      omega
    have hget : ((behind after events).take (limit + 1))[limit - 1]? =
        some (behind after events)[limit - 1] := by
      rw [getElem?_take_of_lt (by omega), getElem?_eq_getElem hposition]
    rw [h.readCdcPage_eq hlimit]
    simp only [hlength, if_true, hget, Option.map_some]
    rw [take_take, Nat.min_eq_left (by omega), take_append_getElem hposition,
      show limit - 1 + 1 = limit by omega]

/-- A client that follows the pages from any id on comes to an end and has then read what one
unbounded read gives, the events of the log behind the id; exactly the page with the last event
names no next one. -/
theorem followed_pages_concat (log : LogFile) (events : List ChangeEvent) (h : log.Lists events)
    (limit : Nat) (hlimit : 1 ≤ limit ∧ limit ≤ maxCdcPageSize) (after : Option Nat) :
    ∃ pages all, Followed log limit after pages ∧ readCdc log after = .ok all ∧
      all = behind after events ∧ pages.flatMap Prod.fst = all ∧
      ∀ page ∈ pages, page.2 = none ↔ page.1.getLast? = all.getLast? := by
  simp only [h.readCdc_eq, Except.ok.injEq]
  induction hcount : (behind after events).length using Nat.strong_induction_on
    generalizing after with
  | _ count ih =>
    subst hcount
    by_cases hlast : (behind after events).length ≤ limit
    · exact ⟨[(behind after events, none)], _, .last (h.last_page hlimit hlast), rfl, rfl,
        by simp, by simp⟩
    · obtain ⟨front, event, rest, hsplit, hrest, hcall⟩ := h.full_page hlimit (not_le.mp hlast)
      have hnext := behind_next h.ascending hsplit
      obtain ⟨pages, _, hpages, rfl, -, hconcat, hends⟩ := ih rest.length
        (by simp only [hsplit, length_append, length_cons]; omega)
        (some event.transactionId) (by rw [hnext])
      rw [hnext] at hconcat hends
      have hend : (behind after events).getLast? = rest.getLast? := by
        rw [hsplit, getLast?_append_cons, getLast?_cons_of_ne_nil hrest]
      refine ⟨(front ++ [event], some event.transactionId) :: pages, _, .more hcall hpages, rfl, rfl,
        by simp [hsplit, hconcat], ?_⟩
      intro page hpage
      rw [hend]
      rcases mem_cons.mp hpage with rfl | hpage
      · -- The last event of a full page is older than what follows.
        have hsorted : (behind after events).Pairwise
            fun left right => left.transactionId < right.transactionId := h.ascending.filter _
        rw [hsplit, pairwise_append, pairwise_cons] at hsorted
        simp only [reduceCtorEq, getLast?_append_cons, getLast?_singleton, false_iff]
        intro hsame
        have hmem := mem_of_getLast? hsame.symm
        exact absurd (hsorted.2.1.1 event hmem) (Nat.lt_irrefl _)
      · exact hends page hpage

end Reading

section Run

/-- Events as long as their ids. -/
@[reducible] def Serde.counting : Serde :=
  { Serde.refusing with eventFromSlice := fun bytes => .ok ⟨bytes.length, false, []⟩ }

attribute [local instance] Serde.counting

def countingLog : LogFile :=
  .records ([1, 2, 3].map fun id => cdcMagic ++ 1 :: (toLeBytes 4 id ++ List.replicate id 0))

theorem followed_pages_concat_counting :
    ∃ pages all, Followed countingLog 2 none pages ∧ readCdc countingLog none = .ok all ∧
      all = behind none ([1, 2, 3].map fun id => ⟨id, false, []⟩) ∧ pages.flatMap Prod.fst = all ∧
      ∀ page ∈ pages, page.2 = none ↔ page.1.getLast? = all.getLast? :=
  followed_pages_concat countingLog ([1, 2, 3].map fun id => ⟨id, false, []⟩)
    ⟨⟨_, rfl, by repeat constructor⟩, by decide⟩ 2 (by decide) none

end Run

end TxBase.Dbf
