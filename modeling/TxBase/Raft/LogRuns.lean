import TxBase.Raft.LogWrites

/-! Reopening a store finds the state that it had in memory, after any calls, failures and stops. -/
namespace TxBase.Raft
open Lib List
open Procedure (Event Ensures Steps forEach runs_play answered_play)
open Frames (Torn Log torn_nil)
open Function (update_self update_of_ne update)

variable {P V : Type} [JournalSerde P V] {gen : Nat} {dir next : Directory}
  {state : LogStateData P V}
  {permitted : Event FileOp Directory IoError → Prop} {store : StoreInner P V} {change : Change P V}
  {call : Call P V} {bytes : Bytes} {journals : Nat → Option Bytes}

/-- The newest journal holds the records, and behind them `tail`. -/
structure Newest (journals : Nat → Option Bytes) (generation : Nat)
    (records : List (JournalRecord P V))
    (tail : Bytes) : Prop where
  content : ∃ bytes, journals generation = some (journalMagic ++ (bytes ++ tail)) ∧
    Log recordHead records bytes
  newest : ∀ other, (journals other).isSome → other ≤ generation

theorem newest_update {records : List (JournalRecord P V)} (tail : Bytes)
    (hlog : Log recordHead records bytes) (h : ∀ other, (journals other).isSome → other ≤ gen) :
    Newest (update journals gen (some (journalMagic ++ (bytes ++ tail)))) gen
      records tail := by
  refine ⟨⟨bytes, update_self .., hlog⟩, fun other hother => ?_⟩
  by_cases heq : other = gen
  · exact heq.le
  · rw [update_of_ne heq] at hother
    exact h other hother

omit [JournalSerde P V] in
theorem Directory.With.journal {content : Bytes} (h : dir.With (.journal gen) content next) :
    next.journal = update dir.journal gen (some content) := by
  funext other
  rw [Directory.journal, h]
  by_cases heq : other = gen
  · rw [heq, update_self, update_self]
  · rw [update_of_ne (by simpa using heq), update_of_ne heq]
    rfl

theorem Filled.newest {records : List (JournalRecord P V)} (h : Filled dir gen records next)
    (hold : ∀ other, (dir.journal other).isSome → other ≤ gen) :
    Newest next.journal gen records [] := by
  obtain ⟨bytes, hlog, hnext⟩ := h
  have hupdate := newest_update [] hlog hold
  rwa [append_nil, ← hnext] at hupdate

/-- The state can be written to a new journal and read from there. -/
structure Kept (state : LogStateData P V) : Prop where
  dense : Dense state
  reads : ∀ record ∈ state.snapshot, ReadsBack record

theorem kept_empty : Kept ({} : LogStateData P V) :=
  ⟨⟨0, trivial, nofun⟩, nofun⟩

section States
variable [LT V] [DecidableLT V]

/-- The state that the journals lead to; a directory without a journal is that of a new store. -/
def Stored (journals : Nat → Option Bytes) (state : LogStateData P V) : Prop :=
  (∃ generation records tail, Newest journals generation records tail ∧
    Torn (recordHead (P := P) (V := V)) tail ∧ LogStateData.replay {} records = .ok state) ∨
  (∀ generation, journals generation = none) ∧ state = {}

/-- The directory holds what the store has in memory. -/
structure Sound (directory : Directory) (store : StoreInner P V) : Prop where
  kept : Kept store.state
  holds : ∃ generation records, Newest directory.journal generation records [] ∧
    LogStateData.replay {} records = .ok store.state ∧
    (store.poisoned = false → generation = store.generation)

theorem Newest.stored {records : List (JournalRecord P V)} (h : Newest journals gen records [])
    (hreplay : LogStateData.replay {} records = .ok state) : Stored journals state :=
  .inl ⟨gen, records, [], h, torn_nil, hreplay⟩

theorem Sound.stored (h : Sound dir store) : Stored dir.journal store.state := by
  obtain ⟨gen, records, hnewest, hreplay, -⟩ := h.holds
  exact hnewest.stored hreplay

theorem Kept.replay {next : LogStateData P V} {records : List (JournalRecord P V)}
    (h : ∀ record ∈ state.snapshot, ReadsBack record) (hreads : ∀ record ∈ records, ReadsBack record)
    (hreplay : state.replay records = .ok next) : ∀ record ∈ next.snapshot, ReadsBack record := by
  induction records generalizing state with
  | nil =>
    cases hreplay
    exact h
  | cons record rest ih =>
    obtain ⟨middle, happly, hrest⟩ := bind_eq_ok.mp hreplay
    refine ih (fun other hmem => ?_) (forall_mem_cons.mp hreads).2 hrest
    rcases mem_snapshot_applyRecord happly hmem with hmem | rfl
    · exact h other hmem
    · exact hreads other mem_cons_self

end States

section Opening
variable [LT V] [DecidableLT V] {records : List (JournalRecord P V)} {tail : Bytes}

theorem latestGeneration_eq {generations : List Nat} (hmem : gen ∈ generations)
    (h : ∀ other ∈ generations, other ≤ gen) : latestGeneration generations = some gen := by
  have hfold : ∀ (left : List Nat) (latest : Option Nat), (∀ other ∈ left, other ≤ gen) →
      (∀ other ∈ latest, other ≤ gen) → (gen ∈ left ∨ latest = some gen) →
      left.foldl (fun latest gen => some (latest.elim gen (max · gen))) latest =
        some gen := by
    intro left
    induction left with
    | nil => exact fun latest _ _ hfound => hfound.resolve_left nofun
    | cons head rest ih =>
      intro latest hleft hlatest hfound
      have hhead := hleft head mem_cons_self
      refine ih _ (forall_mem_cons.mp hleft).2 ?_ ?_
      · intro other hother
        cases Option.some.inj hother
        cases latest with
        | none => exact hhead
        | some value => exact max_le (hlatest value rfl) hhead
      · rcases hfound with hfound | rfl
        · rcases mem_cons.mp hfound with rfl | hfound
          · refine .inr (congrArg some ?_)
            cases latest with
            | none => rfl
            | some value => exact max_eq_right (hlatest value rfl)
          · exact .inl hfound
        · exact .inr (congrArg some (max_eq_left hhead))
  exact hfold generations none h nofun (.inl hmem)

omit [JournalSerde P V] [LT V] [DecidableLT V] in
theorem Directory.mem_keys (dir : Directory) (gen : Nat) :
    gen ∈ dir.journals.keys ↔ (dir.journal gen).isSome := by
  rw [Directory.journal, Directory.get, ← not_iff_not, Option.not_isSome_iff_eq_none,
    OrderedMap.get?_eq_none_iff]
  rfl

theorem recover_ensures (h : Newest dir.journal gen records tail)
    (htail : Torn (recordHead (P := P) (V := V)) tail)
    (hreplay : LogStateData.replay {} records = .ok state) :
    Ensures exec permitted
      (fun next => ∃ rest, Newest next.journal gen records rest ∧
        Torn (recordHead (P := P) (V := V)) rest)
      (StoreInner.recover (.journal gen)) dir
      (fun found next => found = state ∧ Newest next.journal gen records [])
      fun _ _ => ∃ event, permitted event := by
  obtain ⟨⟨bytes, hcontent, hlog⟩, hnewest⟩ := id h
  have hfails : ∀ (event : Event FileOp Directory IoError) (_ : IoError) (_ : Directory),
    permitted event →
      ∀ _ : (∃ rest, Newest ‹Directory›.journal gen records rest ∧
        Torn (recordHead (P := P) (V := V)) rest), ∃ event, permitted event :=
    fun event _ _ hpermitted _ => ⟨event, hpermitted⟩
  have hread : exec (.read (.journal gen)) dir =
      (.ok (journalMagic ++ (bytes ++ tail)), dir) := by
    simp only [exec, show dir.get (.journal gen) = _ from hcontent]
  have hscan : Frames.scan recordHead (fun state record => LogStateData.applyRecord state record)
      (journalMagic ++ (bytes ++ tail)).length
        ((journalMagic ++ (bytes ++ tail)).drop journalMagic.length)
      journalMagic.length {} = .ok (state, (journalMagic ++ bytes).length) := by
    rw [drop_left, hlog.scan htail _ _ (by simp), length_append]
    exact congrArg (Except.map _) hreplay
  refine .bind (.pass hread ⟨tail, h, htail⟩ ⟨tail, h, htail⟩ ?_ hfails)
  rw [if_neg (by simp), if_neg (by simp), hscan, Procedure.ofExcept_ok_bind]
  dsimp only
  by_cases htorn : (journalMagic ++ bytes).length < (journalMagic ++ (bytes ++ tail)).length
  · rw [if_pos htorn]
    have hexec : exec (.setLen (.journal gen) (journalMagic ++ bytes).length) dir =
        (.ok (), dir.set (.journal gen) (journalMagic ++ bytes)) := by
      simp only [exec, show dir.get (.journal gen) = _ from hcontent]
      rw [← append_assoc, resized_append]
    have hset : dir.With (.journal gen) (journalMagic ++ bytes)
        (dir.set (.journal gen) (journalMagic ++ bytes)) := Directory.get_set _ _ _
    have hnext : Newest (dir.set (.journal gen) (journalMagic ++ bytes)).journal gen
        records [] := by
      rw [hset.journal]
      have hupdate := newest_update [] hlog hnewest
      rwa [append_nil] at hupdate
    have hkept : ∃ rest, Newest (dir.set (.journal gen) (journalMagic ++ bytes)).journal
        gen records rest ∧ Torn (recordHead (P := P) (V := V)) rest :=
      ⟨[], hnext, torn_nil⟩
    refine .bind (.pass hexec ⟨tail, h, htail⟩ hkept ?_ hfails)
    exact .bind (.pass rfl hkept hkept ⟨hkept, rfl, hnext⟩ hfails)
  · rw [if_neg htorn]
    have hempty : tail = [] := by
      simp only [length_append] at htorn
      exact length_eq_zero_iff.mp (by omega)
    subst hempty
    exact ⟨⟨[], h, htail⟩, rfl, h⟩

omit [LT V] [DecidableLT V] in
theorem Newest.remove {old : Nat} (h : Newest dir.journal gen records tail) (hlt : old < gen) :
    Newest (dir.remove (.journal old)).journal gen records tail := by
  have hjournal : ∀ other, (dir.remove (.journal old)).journal other =
      if other = old then none else dir.journal other := by
    intro other
    simp only [Directory.journal, Directory.get_remove, Function.update_apply, File.journal.injEq]
  refine ⟨?_, fun other hother => ?_⟩
  · rw [hjournal, if_neg (by omega)]
    exact h.content
  · rw [hjournal] at hother
    split at hother
    · cases hother
    · exact h.newest other hother

omit [LT V] [DecidableLT V] in
theorem removeOldGenerations_ensures (h : Newest dir.journal gen records []) :
    Ensures exec permitted (fun next => Newest next.journal gen records [])
      (StoreInner.removeOldGenerations gen) dir
      (fun _ next => Newest next.journal gen records []) fun _ _ => False := by
  have hloop : ∀ generations : List Nat, Ensures exec permitted
      (fun next => Newest next.journal gen records [])
      (forEach (generations.filter (· < gen)) fun old => do
        let _ ← tryIo (.remove (.journal old))
        .done ()) dir (fun _ _ => True) fun _ _ => False := by
    intro generations
    refine .mono (.forEach (fun rest _ => ∀ old ∈ rest, old < gen) ?_ h ?_)
      (fun _ _ _ _ => trivial) fun _ _ _ => id
    · intro old rest next hnext hrest
      have hremoved := hnext.remove (hrest old mem_cons_self)
      have hrest := (forall_mem_cons.mp hrest).2
      refine .bind (.ask hnext ⟨hremoved, hremoved, hrest⟩ fun _ effect _ => ?_)
      cases effect with
      | false => exact ⟨hnext, hnext, hrest⟩
      | true => exact ⟨hremoved, hremoved, hrest⟩
    · exact fun old hmem => of_decide_eq_true (mem_filter.mp hmem).2
  have hall : Ensures exec permitted (fun next => Newest next.journal gen records [])
      (StoreInner.removeOldGenerations gen) dir (fun _ _ => True) fun _ _ => False := by
    refine .bind (.ask h ⟨h, hloop _⟩ fun _ effect _ => ?_)
    cases effect <;> exact ⟨h, h, trivial⟩
  exact hall.mono (fun _ _ hnext _ => hnext) fun _ _ _ => id

/-- A check for the journal that fails is not taken for its absence. -/
def SeesJournal (event : Event FileOp Directory IoError) : Prop := ∀ file, event.op ≠ .exists file

theorem openJournal_ensures (hsees : ∀ event, permitted event → SeesJournal event)
    (h : Stored dir.journal state) :
    Ensures exec permitted (fun next => Stored next.journal state) openJournal dir
      (fun gen next => ∃ records tail, Newest next.journal gen records tail ∧
        Torn (recordHead (P := P) (V := V)) tail ∧ LogStateData.replay {} records = .ok state)
      fun _ _ => ∃ event, permitted event := by
  have hfails : ∀ (event : Event FileOp Directory IoError) (_ : IoError) (next : Directory),
      permitted event → Stored next.journal state → ∃ event, permitted event :=
    fun event _ _ hpermitted _ => ⟨event, hpermitted⟩
  refine .bind (.pass rfl h h (.bind (.pass rfl h h (.bind
    (.pass rfl h h ?_ hfails)) hfails)) hfails)
  rcases id h with ⟨gen, records, tail, hnewest, htail, hreplay⟩ | ⟨hnone, rfl⟩
  · have hsome : (dir.journal gen).isSome := by
      obtain ⟨bytes, hcontent, -⟩ := hnewest.content
      rw [hcontent]
      rfl
    have hlatest : latestGeneration dir.journals.keys = some gen :=
      latestGeneration_eq ((dir.mem_keys gen).mpr hsome) fun other hmem =>
        hnewest.newest other ((dir.mem_keys other).mp hmem)
    rw [hlatest, Option.getD_some]
    refine .bind (.ask h ⟨h, ?_⟩ fun _ _ hpermitted => absurd rfl (hsees _ hpermitted _))
    have hpresent : (exec (.exists (.journal gen)) dir).1 = .ok true :=
      congrArg Except.ok hsome
    have hopen : exec (.open (.journal gen)) dir = (.ok (), dir) := by
      simp only [exec, show (dir.get (.journal gen)).isSome from hsome, if_true]
    rw [hpresent]
    exact .bind (.pass hopen h h ⟨h, records, tail, hnewest, htail, hreplay⟩ hfails)
  · have hkeys : dir.journals.keys = [] := by
      refine eq_nil_iff_forall_not_mem.mpr fun gen hmem => ?_
      have hsome := (dir.mem_keys gen).mp hmem
      rw [hnone gen] at hsome
      cases hsome
    rw [hkeys, show (latestGeneration []).getD 0 = 0 from rfl]
    refine .bind (.ask h ⟨h, ?_⟩ fun _ _ hpermitted => absurd rfl (hsees _ hpermitted _))
    have habsent : (exec (.exists (.journal 0)) dir).1 = .ok false :=
      congrArg Except.ok (congrArg Option.isSome (hnone 0))
    have hcreate : Ensures exec permitted _ (createGeneration 0 (.done ())) dir _ _ :=
      createGeneration_ensures ([] : List (JournalRecord P V)) (by simp)
    have hnewest : ∀ {next}, Filled dir 0 ([] : List (JournalRecord P V)) next →
        Newest next.journal 0 ([] : List (JournalRecord P V)) [] := by
      intro next hfilled
      refine hfilled.newest fun other hother => ?_
      rw [hnone other] at hother
      cases hother
    rw [habsent]
    refine .bind ((hcreate.weaken ?_).mono ?_ ?_)
    · rintro next (hnext | hfilled)
      · exact .inr ⟨by rwa [hnext], rfl⟩
      · exact (hnewest hfilled).stored rfl
    · exact fun _ next hnext hfilled => ⟨hnext, [], [], hnewest hfilled, torn_nil, rfl⟩
    · rintro - - - (hevent | ⟨record, hmem, -⟩)
      · exact hevent
      · cases hmem

theorem open_ensures (hsees : ∀ event, permitted event → SeesJournal event) (hkept : Kept state)
    (h : Stored dir.journal state) :
    Ensures exec permitted (fun next => Stored next.journal state) StoreInner.open dir
      (fun store next => store.state = state ∧ Sound next store) fun _ _ => ∃ event,
        permitted event := by
  refine (openJournal_ensures hsees h).then ?_
  rintro gen next hnext ⟨records, tail, hnewest, htail, hreplay⟩
  refine ((recover_ensures hnewest htail hreplay).weaken ?_).then ?_
  · rintro last ⟨rest, hlast, hrest⟩
    exact .inl ⟨gen, records, rest, hlast, hrest, hreplay⟩
  · rintro found last - ⟨rfl, hlast⟩
    refine .bind (((removeOldGenerations_ensures hlast).weaken ?_).mono ?_
      fun _ _ _ => False.elim)
    · exact fun final hfinal => hfinal.stored hreplay
    · exact fun _ final hstored hfinal =>
        ⟨hstored, rfl, hkept, gen, records, hfinal, hreplay, fun _ => rfl⟩

end Opening

section Calls
variable [LT V] [DecidableLT V]

theorem retire_ensures (store : StoreInner P V) {records : List (JournalRecord P V)} {old : Nat}
    (hkept : Kept store.state)
    (hnewest : Newest dir.journal store.generation records [])
    (hreplay : LogStateData.replay {} records = .ok store.state) (hlt : old < store.generation) :
    Ensures exec permitted (fun next => Stored next.journal store.state)
      (do
        let _ ← tryIo (.remove (.journal old))
        let _ ← tryIo .syncDirectory
        .done (store, .ok ()) : Storing (Returned P V)) dir
      (fun returned next => Sound next returned.1) fun _ _ => False := by
  have hend : ∀ {next : Directory}, Newest next.journal store.generation records [] →
      Ensures exec permitted (fun next => Stored next.journal store.state)
        (do
          let _ ← tryIo .syncDirectory
          .done (store, .ok ()) : Storing (Returned P V)) next
        (fun returned next => Sound next returned.1) fun _ _ => False := by
    intro next hnext
    have hsound : Sound next store := ⟨hkept, _, records, hnext, hreplay, fun _ => rfl⟩
    have hstored := hnext.stored hreplay
    refine .bind (.ask hstored ⟨hstored, hstored, hsound⟩ fun _ effect _ => ?_)
    cases effect <;> exact ⟨hstored, hstored, hsound⟩
  have hremoved := hnewest.remove hlt
  refine .bind (.ask (hnewest.stored hreplay) ⟨hremoved.stored hreplay, hend hremoved⟩
    fun _ effect _ => ?_)
  cases effect with
  | false => exact ⟨hnewest.stored hreplay, hend hnewest⟩
  | true => exact ⟨hremoved.stored hreplay, hend hremoved⟩

theorem compact_ensures (h : Sound dir store) :
    Ensures exec permitted (fun next => Stored next.journal store.state) store.compact dir
      (fun returned next => Sound next returned.1) fun _ _ => False := by
  obtain ⟨gen, records, hnewest, hreplay, hgeneration⟩ := h.holds
  have hstored := h.stored
  unfold StoreInner.compact
  cases hpoisoned : store.poisoned with
  | true => exact ⟨hstored, h⟩
  | false =>
    rw [if_neg Bool.false_ne_true]
    cases hadd : checkedAdd store.generation 1 u64Size with
    | none => exact ⟨hstored, h⟩
    | some next =>
      have hnext : next = gen + 1 := by
        rw [hgeneration hpoisoned]
        unfold checkedAdd at hadd
        split at hadd
        · exact (Option.some.inj hadd).symm
        · cases hadd
      have hfilled : ∀ {last}, Filled dir next store.state.snapshot last →
          Newest last.journal next store.state.snapshot [] := by
        intro last hlast
        refine hlast.newest fun other hother => ?_
        have := hnewest.newest other hother
        omega
      have hsame := replay_snapshot h.kept.dense
      have hcreate : Ensures exec permitted
          (fun last => last.journal = dir.journal ∨ Filled dir next store.state.snapshot last)
          (Procedure.attempt (createGeneration next (forEach store.state.snapshot fun record =>
            writeRecord (.temporary next) record)) : Storing (Except IoError Unit)) dir
          (fun result last =>
            (last.journal = dir.journal ∨ Filled dir next store.state.snapshot last) ∧
              (result = .ok () → Filled dir next store.state.snapshot last)) fun _ _ => False :=
        .attempt ((createGeneration_ensures _ h.kept.reads).mono
          (fun _ _ hinv hlast => ⟨hinv, fun _ => hlast⟩) fun _ _ hinv _ => ⟨hinv, nofun⟩)
      refine .bind ((hcreate.weaken ?_).mono ?_ fun _ _ _ => False.elim)
      · rintro last (hlast | hlast)
        · rwa [hlast]
        · exact (hfilled hlast).stored hsame
      · rintro result last hinv ⟨hlast, hok⟩
        cases result with
        | error error =>
          refine ⟨hinv, h.kept, ?_⟩
          rcases hlast with hlast | hlast
          · exact ⟨gen, records, by rwa [hlast], hreplay, nofun⟩
          · exact ⟨next, _, hfilled hlast, hsame, nofun⟩
        | ok =>
          refine retire_ensures { store with generation := next, poisoned := false } h.kept
            (hfilled (hok rfl)) hsame ?_
          show store.generation < next
          rw [hnext, hgeneration hpoisoned]
          exact Nat.lt_succ_self _

variable [DecidableEq V]

def Call.records (state : LogStateData P V) (call : Call P V) : List (JournalRecord P V) :=
  match state.check call with
  | .ok (some change) => change.records
  | _ => []

def Reaches (state : LogStateData P V) (records : List (JournalRecord P V)) (directory : Directory) :
    Prop :=
  ∃ kept middle, state.replay (records.take kept) = .ok middle ∧ Kept middle ∧
    Stored directory.journal middle

omit [DecidableEq V] in
theorem Sound.reaches (h : Sound dir store) (records : List (JournalRecord P V)) :
    Reaches store.state records dir :=
  ⟨0, store.state, rfl, h.kept, h.stored⟩

section Change
variable {records : List (JournalRecord P V)} {more : Bytes}

section Append
variable (h : Sound dir store) (hnewest : Newest dir.journal gen records [])
  (hlog : Log recordHead records bytes)
  (hreplay : LogStateData.replay {} records = .ok store.state)
  (hcheck : store.state.check call = .ok (some change)) (hadmitted : call.Admitted store.state)
  (hreads : ∀ record ∈ change.records, ReadsBack record)
include h hnewest hlog hreplay hcheck hadmitted hreads

/-- The journal behind which the first records of a change were appended. -/
theorem Sound.append {kept : Nat} {whole tail : Bytes}
    (hwhole : Log recordHead (change.records.take kept) whole)
    (hnext : dir.With (.journal gen) (journalMagic ++ bytes ++ (whole ++ tail)) next) :
    ∃ middle, store.state.replay (change.records.take kept) = .ok middle ∧ Kept middle ∧
      Newest next.journal gen (records ++ change.records.take kept) tail ∧
      LogStateData.replay {} (records ++ change.records.take kept) = .ok middle := by
  obtain ⟨middle, hmiddle, hdense⟩ := check_dense h.kept.dense hadmitted hcheck kept
  refine ⟨middle, hmiddle, ⟨hdense, ?_⟩, ?_, ?_⟩
  · exact Kept.replay h.kept.reads (fun record hmem => hreads record (mem_of_mem_take hmem)) hmiddle
  · rw [hnext.journal, show journalMagic ++ bytes ++ (whole ++ tail) =
      journalMagic ++ ((bytes ++ whole) ++ tail) by simp]
    exact newest_update tail (hlog.append hwhole) hnewest.newest
  · rw [replay_append_list, hreplay]
    exact hmiddle

theorem Sound.part (hpart : Part change.records more)
    (hnext : dir.With (.journal gen) (journalMagic ++ bytes ++ more) next) :
    Reaches store.state change.records next := by
  obtain ⟨kept, whole, tail, rfl, hwhole, htail⟩ := hpart
  obtain ⟨middle, hmiddle, hkept, hnewest, hreplay⟩ :=
    h.append hnewest hlog hreplay hcheck hadmitted hreads hwhole hnext
  exact ⟨kept, middle, hmiddle, hkept, .inl ⟨gen, _, tail, hnewest, htail, hreplay⟩⟩

theorem Sound.whole (hgeneration : gen = store.generation)
    (hmore : Log recordHead change.records more)
    (hnext : dir.With (.journal gen) (journalMagic ++ bytes ++ more) next) :
    Sound next { store with state := change.next } := by
  rw [← take_length (l := change.records)] at hmore
  rw [← append_nil more] at hnext
  obtain ⟨middle, hmiddle, hkept, hnewest, hreplay⟩ :=
    h.append hnewest hlog hreplay hcheck hadmitted hreads hmore hnext
  rw [take_length, check_replays hcheck] at hmiddle
  cases hmiddle
  exact ⟨hkept, gen, _, hnewest, hreplay, fun _ => hgeneration⟩

end Append

theorem journaled_ensures (h : Sound dir store)
    (hcheck : store.state.check call = .ok (some change)) (hadmitted : call.Admitted store.state)
    (hreads : ∀ record ∈ change.records, ReadsBack record) :
    Ensures exec RollsBack (Reaches store.state change.records)
      (store.journaled (.ok (some change))) dir
      (fun returned next => Sound next returned.1 ∧
        (returned.2 = .ok () → returned.1.state = change.next))
      fun _ _ => False := by
  obtain ⟨gen, records, hnewest, hreplay, hgeneration⟩ := h.holds
  obtain ⟨bytes, hcontent, hlog⟩ := hnewest.content
  rw [append_nil] at hcontent
  have hjournal : ∀ {next : Directory}, next.get = dir.get → next.journal = dir.journal := by
    intro next hsame
    funext other
    exact congrFun hsame _
  have hfile : store.poisoned = false →
      dir.get (.journal store.generation) = some (journalMagic ++ bytes) := by
    intro hpoisoned
    rw [← hgeneration hpoisoned]
    exact hcontent
  refine .bind (((persistRecords_ensures hreads hfile).weaken ?_).mono ?_
    fun _ _ _ => False.elim)
  · rintro next (hsame | ⟨hpoisoned, more, hpart, hnext⟩)
    · obtain ⟨kept, middle, hmiddle, hkept, hstored⟩ := h.reaches change.records
      exact ⟨kept, middle, hmiddle, hkept, by rwa [hjournal hsame]⟩
    · rw [← hgeneration hpoisoned] at hnext
      exact h.part hnewest hlog hreplay hcheck hadmitted hreads hpart hnext
  · rintro ⟨kept, result⟩ next hinv (⟨heq, hpoisoned, more, hmore, hnext⟩ | ⟨⟨error, herror⟩,
      hsame, hstore⟩)
    · cases heq
      rw [← hgeneration hpoisoned] at hnext
      exact ⟨hinv, h.whole hnewest hlog hreplay hcheck hadmitted hreads
        (hgeneration hpoisoned) hmore hnext,
        fun _ => rfl⟩
    · dsimp only at herror hstore
      subst herror
      refine ⟨hinv, ?_, nofun⟩
      rcases hstore with rfl | rfl
      · exact ⟨h.kept, gen, records, by rwa [hjournal hsame], hreplay, hgeneration⟩
      · exact ⟨h.kept, gen, records, by rwa [hjournal hsame], hreplay, nofun⟩

end Change

/-- The arguments of the call are read back by `serde_json`. -/
def Call.ReadsBack : Call P V → Prop
  | .appendEntries entries => ∀ entry ∈ entries, Raft.ReadsBack (V := V) (.append entry)
  | .saveVote vote => Raft.ReadsBack (P := P) (.vote vote)
  | .saveCommitted committed => Raft.ReadsBack (P := P) (V := V) (.committed committed)
  | .truncate logId => Raft.ReadsBack (P := P) (V := V) (.truncate logId)
  | .purge logId => Raft.ReadsBack (P := P) (V := V) (.purge logId)

theorem Call.ReadsBack.records (h : call.ReadsBack) (hcheck : state.check call = .ok (some change)) :
    ∀ record ∈ change.records, Raft.ReadsBack record := by
  intro record hmem
  cases hrecord : call.record? with
  | none =>
    cases call with
    | appendEntries entries =>
      obtain ⟨entry, hentry, rfl⟩ := (checkAppend_replays hcheck).2 record hmem
      exact h entry hentry
    | _ => cases hrecord
  | some only =>
    rw [(check_applies hrecord hcheck).1] at hmem
    rw [mem_singleton.mp hmem]
    cases call with
    | appendEntries entries => cases hrecord
    | _ =>
      cases hrecord
      exact h

theorem journaled_check_ensures (h : Sound dir store) (hadmitted : call.Admitted store.state)
    (hreads : call.ReadsBack) :
    Ensures exec RollsBack (Reaches store.state (call.records store.state))
      (store.journaled (store.state.check call)) dir
      (fun returned next => Sound next returned.1) fun _ _ => False := by
  unfold Call.records
  cases hcheck : store.state.check call with
  | error error => exact ⟨h.reaches _, h⟩
  | ok found =>
    cases found with
    | none => exact ⟨h.reaches _, h⟩
    | some change =>
      exact (journaled_ensures h hcheck hadmitted (hreads.records hcheck)).mono
        (fun _ _ _ hreturned => hreturned.1) fun _ _ _ => id

/-- A call keeps the directory and the memory together, also when operations of it fail, and wherever
it stops the directory leads to the state after some of its records. -/
theorem perform_ensures (h : Sound dir store) (hadmitted : call.Admitted store.state)
    (hreads : call.ReadsBack) :
    Ensures exec RollsBack (Reaches store.state (call.records store.state)) (store.perform call) dir
      (fun returned next => Sound next returned.1) fun _ _ => False := by
  cases call with
  | purge logId =>
    have hjournaled : Ensures exec RollsBack _ (store.journaled (store.state.checkPurge logId)) dir
      _ _ := journaled_check_ensures h hadmitted hreads
    show Ensures exec RollsBack _ (store.purge logId) dir _ _
    unfold StoreInner.purge
    cases hcheck : store.state.checkPurge logId with
    | error error =>
      rw [hcheck] at hjournaled
      exact hjournaled
    | ok found =>
      cases found with
      | none =>
        rw [hcheck] at hjournaled
        exact hjournaled
      | some change =>
        have hcheck : store.state.check (.purge logId) = .ok (some change) := hcheck
        have hrecords : Call.records store.state (.purge logId) = change.records := by
          rw [Call.records, hcheck]
        rw [hrecords]
        refine (journaled_ensures h hcheck hadmitted (hreads.records hcheck)).then ?_
        rintro ⟨purged, result⟩ next hinv ⟨hsound, hstate⟩
        cases result with
        | error error => exact ⟨hinv, hsound⟩
        | ok =>
          have hstate : purged.state = change.next := hstate rfl
          refine (compact_ensures hsound).weaken fun last hlast => ?_
          refine ⟨change.records.length, change.next, ?_, hstate ▸ hsound.kept, hstate ▸ hlast⟩
          rw [take_length]
          exact check_replays hcheck
  | _ => exact journaled_check_ensures h hadmitted hreads

end Calls

section Runs
variable [LT V] [DecidableLT V] [DecidableEq V]

/-- The directories, and the stores in memory, after any calls, failures, stops and reopenings.  A
purge does not start before the log, the entries are read back, a rollback is not left undone, and a
check for the journal does not fail. -/
inductive Reached : Directory → Option (StoreInner P V) → Prop
  | empty : Reached {} none
  | opened {directory last : Directory} {running : Option (StoreInner P V)} {store : StoreInner P V}
      {events : List (Event FileOp Directory IoError)} (h : Reached directory running)
      (hrun : Procedure.Runs exec StoreInner.open directory events (.ok store) last)
      (hevents : ∀ event ∈ events, event.happening = .answered ∨ SeesJournal event) :
      Reached last (some store)
  | openStopped {directory last : Directory} {running : Option (StoreInner P V)}
      {rest : Storing (StoreInner P V)} {events : List (Event FileOp Directory IoError)}
      (h : Reached directory running)
      (hsteps : Steps exec StoreInner.open directory events rest last)
      (hevents : ∀ event ∈ events, event.happening = .answered ∨ SeesJournal event) :
      Reached last none
  | called {directory last : Directory} {store : StoreInner P V} {call : Call P V}
      {returned : Returned P V} {events : List (Event FileOp Directory IoError)}
      (h : Reached directory (some store)) (hadmitted : call.Admitted store.state)
      (hreads : call.ReadsBack)
      (hrun : Procedure.Runs exec (store.perform call) directory events (.ok returned) last)
      (hevents : ∀ event ∈ events, event.happening = .answered ∨ RollsBack event) :
      Reached last (some returned.1)
  | callStopped {directory last : Directory} {store : StoreInner P V} {call : Call P V}
      {rest : Storing (Returned P V)} {events : List (Event FileOp Directory IoError)}
      (h : Reached directory (some store)) (hadmitted : call.Admitted store.state)
      (hreads : call.ReadsBack)
      (hsteps : Steps exec (store.perform call) directory events rest last)
      (hevents : ∀ event ∈ events, event.happening = .answered ∨ RollsBack event) : Reached last none

theorem Reached.sound {running : Option (StoreInner P V)} (h : Reached dir running) :
    (∃ state : LogStateData P V, Kept state ∧ Stored dir.journal state) ∧
      ∀ store ∈ running, Sound dir store := by
  induction h with
  | empty => exact ⟨⟨{}, kept_empty, .inr ⟨fun _ => rfl, rfl⟩⟩, nofun⟩
  | opened h hrun hevents ih =>
    obtain ⟨⟨state, hkept, hstored⟩, -⟩ := ih
    obtain ⟨hlast, hends, -⟩ := (open_ensures (fun _ => id) hkept hstored).runs hrun hevents
    refine ⟨⟨state, hkept, hlast⟩, fun store hstore => ?_⟩
    cases Option.some.inj hstore
    exact (hends _ rfl).2
  | openStopped h hsteps hevents ih =>
    obtain ⟨⟨state, hkept, hstored⟩, -⟩ := ih
    exact ⟨⟨state, hkept,
      ((open_ensures (fun _ => id) hkept hstored).steps hsteps hevents).invariant⟩,
      nofun⟩
  | called h hadmitted hreads hrun hevents ih =>
    have hsound := ((perform_ensures (ih.2 _ rfl) hadmitted hreads).runs hrun hevents).2.1 _ rfl
    refine ⟨⟨_, hsound.kept, hsound.stored⟩, fun store hstore => ?_⟩
    cases Option.some.inj hstore
    exact hsound
  | callStopped h hadmitted hreads hsteps hevents ih =>
    obtain ⟨kept, middle, -, hkept, hstored⟩ :=
      ((perform_ensures (ih.2 _ rfl) hadmitted hreads).steps hsteps hevents).invariant
    exact ⟨⟨middle, hkept, hstored⟩, nofun⟩

def Reopens (directory : Directory) (state : LogStateData P V) : Prop :=
  ∃ store last, ((StoreInner.open : Storing (StoreInner P V)).durable exec).Finishes
    directory last store ∧
    store.state = state

omit [DecidableEq V] in
theorem reopens_of_stored (hkept : Kept state) (h : Stored dir.journal state) :
    Reopens dir state := by
  have hopen : Ensures exec (fun _ => False) _ StoreInner.open dir _ fun _ _ => False :=
    (open_ensures (fun _ => False.elim) hkept h).mono (fun _ _ _ hends => hends)
      fun _ _ _ hevent => hevent.elim fun _ => id
  obtain ⟨-, store, last, hfinishes, hstate, -⟩ := hopen.completes
  exact ⟨store, last, hfinishes, hstate⟩

/-- A store that is closed and reopened has the state it had in memory, and after a stop anywhere in
one more call the state after some of the records of that call. -/
theorem reopening_finds_the_log {directory : Directory} {store : StoreInner P V}
    (h : Reached directory (some store)) :
    Reopens directory store.state ∧
      ∀ (call : Call P V) (events : List (Event FileOp Directory IoError))
        (rest : Storing (Returned P V))
        (last : Directory), call.Admitted store.state → call.ReadsBack →
        Steps exec (store.perform call) directory events rest last →
        (∀ event ∈ events, event.happening = .answered ∨ RollsBack event) →
        ∃ kept middle, store.state.replay ((call.records store.state).take kept) = .ok middle ∧
          Reopens last middle := by
  have hsound := h.sound.2 store rfl
  refine ⟨reopens_of_stored hsound.kept hsound.stored, ?_⟩
  intro call events rest last hadmitted hreads hsteps hevents
  obtain ⟨kept, middle, hmiddle, hkept, hstored⟩ :=
    ((perform_ensures hsound hadmitted hreads).steps hsteps hevents).invariant
  exact ⟨kept, middle, hmiddle, reopens_of_stored hkept hstored⟩

end Runs

/-- Records of small numbers, one byte for each. -/
@[reducible] def JournalSerde.small : JournalSerde Unit Nat where
  toVec
    | .append entry => .ok [1, .ofNat entry.logId.term, .ofNat entry.logId.index]
    | .vote vote => .ok [2, .ofNat vote]
    | .committed none => .ok [3]
    | .committed (some logId) => .ok [3, .ofNat logId.term, .ofNat logId.index]
    | .truncate logId => .ok [4, .ofNat logId.term, .ofNat logId.index]
    | .purge logId => .ok [5, .ofNat logId.term, .ofNat logId.index]
  fromSlice
    | [1, term, index] => .ok (.append ⟨smallId term index, ()⟩)
    | [2, vote] => .ok (.vote vote.toNat)
    | [3] => .ok (.committed none)
    | [3, term, index] => .ok (.committed (some (smallId term index)))
    | [4, term, index] => .ok (.truncate (smallId term index))
    | [5, term, index] => .ok (.purge (smallId term index))
    | _ => .error "unknown record"
  digest bytes := toLeBytes 32 (fromLeBytes bytes)
  digest_length _ := toLeBytes_length _ _
where
  smallId (term index : UInt8) : LogId :=
    ⟨term.toNat, index.toNat, Nat.lt_trans index.toNat_lt (by decide)⟩

attribute [local instance] JournalSerde.small

abbrev openSample : Storing (StoreInner Unit Nat) := StoreInner.open

def sampleEntry (logId : LogId) : Entry Unit := ⟨logId, ()⟩

/-- Nothing is checked about where an empty log starts, and a purge before that is recorded.  The new
journal then has a gap that a reopening refuses. -/
theorem purge_before_the_log_is_not_reopened :
    ∃ (start store purged : StoreInner Unit Nat) (first middle last : Directory),
      (StoreInner.open.durable exec).Finishes {} first start ∧
      ((start.perform (.appendEntries [sampleEntry ⟨1, 2, by decide⟩])).durable exec).Finishes first middle
        (store, .ok ()) ∧
      ((store.perform (.purge ⟨1, 0, by decide⟩)).durable exec).Finishes middle last
        (purged, .ok ()) ∧
      ¬ ∃ state : LogStateData Unit Nat, Reopens last state := by
  have hrun : (do
      let (first, start) ← (openSample.durable exec).finish? {}
      let (middle, store, appended) ←
        ((start.perform (.appendEntries [sampleEntry ⟨1, 2, by decide⟩])).durable exec).finish? first
      let (last, _, result) ← ((store.perform (.purge ⟨1, 0, by decide⟩)).durable exec).finish? middle
      if appended.isOk ∧ result.isOk ∧
          ((openSample.durable exec).finish? last).isNone then
        some () else none) = some () := by
    decide +kernel
  simp only [bind_eq_some, check_eq_some, Prod.exists, Durable.finish?_eq_some] at hrun
  obtain ⟨first, start, hopen, middle, store, appended, happend, last, purged, result, hpurge,
    hok, hresult, hnone⟩ := hrun
  cases appended with
  | error error => cases hok
  | ok =>
    cases result with
    | error error => cases hresult
    | ok =>
      refine ⟨start, store, purged, first, middle, last, hopen, happend, hpurge, ?_⟩
      rintro ⟨state, reopened, final, hfinishes, -⟩
      rw [Durable.finish?_eq_some.mpr hfinishes] at hnone
      cases hnone

theorem Reached.call_answered {store : StoreInner Unit Nat} {call : Call Unit Nat}
    {returned : Returned Unit Nat}
    (h : Reached dir (some store)) (hadmitted : call.Admitted store.state) (hreads : call.ReadsBack)
    (hplay : ((store.perform call).play exec dir []).2.1 = .ok returned) :
    Reached ((store.perform call).play exec dir []).2.2 (some returned.1) := by
  have hrun : Procedure.Runs exec (store.perform call) dir _ _ _ := runs_play []
  rw [hplay] at hrun
  exact .called h hadmitted hreads hrun fun event hmem => .inl (answered_play hmem)

def sampleEntries : List (Entry Unit) :=
  [sampleEntry ⟨1, 0, by decide⟩, sampleEntry ⟨1, 1, by decide⟩]

/-- Two entries are appended, and the first of them is purged. -/
theorem reopening_finds_the_log_purged :
    ∃ (directory : Directory) (store : StoreInner Unit Nat), Reached directory (some store) ∧
      store.state.entries = [(1, sampleEntry ⟨1, 1, by decide⟩)] ∧
        Reopens directory store.state := by
  have hrun : (do
      let start ← (openSample.play exec {} []).2.1.toOption
      let first := (openSample.play exec {} []).2.2
      let appended ← ((start.perform (.appendEntries sampleEntries)).play exec first []).2.1.toOption
      let middle := ((start.perform (.appendEntries sampleEntries)).play exec first []).2.2
      let purged ← ((appended.1.perform (.purge ⟨1, 0, by decide⟩)).play exec middle []).2.1.toOption
      if (appended.1.state.entries.head?.all fun entry => entry.1 ≤ 1) ∧
          purged.1.state.entries = [(1, sampleEntry ⟨1, 1, by decide⟩)] then some ()
            else none) = some () := by
    decide +kernel
  simp only [bind_eq_some, check_eq_some] at hrun
  obtain ⟨start, hstart, appended, happended, purged, hpurged, hhead, hentries⟩ := hrun
  have hopen : Procedure.Runs exec openSample {} _ _ _ :=
    runs_play []
  rw [eq_ok_of_toOption hstart] at hopen
  have hfirst : Reached _ (some start) :=
    .opened .empty hopen fun event hmem => .inl (answered_play hmem)
  have happend : (.appendEntries sampleEntries : Call Unit Nat).Admitted start.state := trivial
  have hreads : (.appendEntries sampleEntries : Call Unit Nat).ReadsBack := by
    intro entry hmem payload hpayload
    cases hpayload
    rcases mem_cons.mp hmem with rfl | hmem
    · rfl
    · rw [mem_singleton.mp hmem]
      rfl
  have hmiddle := hfirst.call_answered happend hreads (eq_ok_of_toOption happended)
  have hpurge : (.purge ⟨1, 0, by decide⟩ : Call Unit Nat).Admitted appended.1.state := by
    intro _ entry hentry
    rw [hentry] at hhead
    simpa using hhead
  have hpurgeReads : (.purge ⟨1, 0, by decide⟩ : Call Unit Nat).ReadsBack := by
    intro payload hpayload
    cases hpayload
    rfl
  have hlast := hmiddle.call_answered hpurge hpurgeReads (eq_ok_of_toOption hpurged)
  exact ⟨_, _, hlast, hentries, (reopening_finds_the_log hlast).1⟩

end TxBase.Raft
