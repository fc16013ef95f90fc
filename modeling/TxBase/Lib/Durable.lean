import TxBase.Lib.Outcome

/-! Programs over durable storage.  A run passes through the states that its durable
steps leave, and may be stopped in any of them; what is proved about a run therefore
speaks of the states it passes as well as of the state it ends in. -/
namespace TxBase.Lib
open List

/-- What a run leaves: the state after each durable step, the last state, and the outcome. -/
structure Trace (σ ε α : Type) where
  passed : List σ
  last : σ
  outcome : Outcome ε α

/-- A program over the durable state `σ`. -/
def Durable (σ ε α : Type) : Type := σ → Trace σ ε α

namespace Durable
variable {σ ε α β : Type}

protected def pure (value : α) : Durable σ ε α := fun start => ⟨[], start, .ok value⟩

protected def bind (first : Durable σ ε α) (next : α → Durable σ ε β) : Durable σ ε β :=
  fun start =>
    match (first start).outcome with
    | .error stop => ⟨(first start).passed, (first start).last, .error stop⟩
    | .ok value =>
        let rest := next value (first start).last
        ⟨(first start).passed ++ rest.passed, rest.last, rest.outcome⟩

instance : Monad (Durable σ ε) where
  pure := Durable.pure
  bind := Durable.bind

instance : LawfulMonad (Durable σ ε) :=
  LawfulMonad.mk' _
    (by
      intro α program
      funext start
      show Durable.bind program (fun value => Durable.pure value) start = program start
      unfold Durable.bind Durable.pure
      rcases program start with ⟨passed, last, stop | value⟩ <;> simp)
    (fun _ _ => rfl)
    (by
      intro α β γ program next rest
      funext start
      show Durable.bind (Durable.bind program next) rest start =
        Durable.bind program (fun value => Durable.bind (next value) rest) start
      unfold Durable.bind
      rcases program start with ⟨passed, last, stop | value⟩
      · rfl
      · dsimp only
        rcases next value last with ⟨passed', last', stop | result⟩ <;> simp)

/-- A computation on what the storage holds. -/
def ask (read : σ → Outcome ε α) : Durable σ ε α := fun start => ⟨[], start, read start⟩

def step (write : σ → σ) : Durable σ ε Unit := fun start => ⟨[write start], write start, .ok ()⟩

def when (condition : Bool) (program : Durable σ ε Unit) : Durable σ ε Unit :=
  match condition with
  | true => program
  | false => Durable.pure ()

def forSome (option : Option α) (program : α → Durable σ ε Unit) : Durable σ ε Unit :=
  match option with
  | some value => program value
  | none => Durable.pure ()

@[simp] theorem when_true (program : Durable σ ε Unit) : when true program = program := rfl

@[simp] theorem when_false (program : Durable σ ε Unit) : when false program = pure () := rfl

@[simp] theorem forSome_some (value : α) (program : α → Durable σ ε Unit) :
    forSome (some value) program = program value := rfl

@[simp] theorem forSome_none (program : α → Durable σ ε Unit) :
    forSome none program = pure () := rfl

structure Finishes (program : Durable σ ε α) (start last : σ) (value : α) : Prop where
  outcome : (program start).outcome = .ok value
  last : (program start).last = last

structure Fails (program : Durable σ ε α) (start last : σ) (stop : Stop ε) : Prop where
  outcome : (program start).outcome = .error stop
  last : (program start).last = last

section Inversion
variable {start last : σ} {value : α} {stop : Stop ε}

@[simp] theorem finishes_pure {other : α} :
    (pure other : Durable σ ε α).Finishes start last value ↔ last = start ∧ other = value := by
  constructor
  · rintro ⟨houtcome, rfl⟩
    exact ⟨rfl, Except.ok.inj houtcome⟩
  · rintro ⟨rfl, rfl⟩
    exact ⟨rfl, rfl⟩

variable {read : σ → Outcome ε α}

@[simp] theorem finishes_ask :
    (ask read).Finishes start last value ↔ last = start ∧ read start = .ok value := by
  constructor
  · rintro ⟨houtcome, rfl⟩
    exact ⟨rfl, houtcome⟩
  · rintro ⟨rfl, houtcome⟩
    exact ⟨houtcome, rfl⟩

variable {write : σ → σ}

@[simp] theorem finishes_step {value : Unit} :
    (step write : Durable σ ε Unit).Finishes start last value ↔ last = write start := by
  constructor
  · rintro ⟨-, rfl⟩
    rfl
  · rintro rfl
    exact ⟨rfl, rfl⟩

variable {next : α → Durable σ ε β} {first : Durable σ ε α}

theorem finishes_bind {value : β} :
    (first >>= next).Finishes start last value ↔
      ∃ middle result, first.Finishes start middle result ∧
        (next result).Finishes middle last value := by
  constructor
  · rintro ⟨houtcome, hlast⟩
    dsimp only [bind, Durable.bind] at houtcome hlast
    cases hfirst : (first start).outcome with
    | error stop =>
      rw [hfirst] at houtcome
      cases houtcome
    | ok result =>
      rw [hfirst] at houtcome hlast
      exact ⟨_, result, ⟨hfirst, rfl⟩, houtcome, hlast⟩
  · rintro ⟨middle, result, ⟨hfirst, rfl⟩, houtcome, hlast⟩
    constructor
    · dsimp only [bind, Durable.bind]
      rw [hfirst]
      exact houtcome
    · dsimp only [bind, Durable.bind]
      rw [hfirst]
      exact hlast

@[simp] theorem not_fails_pure {other : α} :
    ¬ (pure other : Durable σ ε α).Fails start last stop := by
  rintro ⟨houtcome, -⟩
  cases houtcome

@[simp] theorem fails_ask :
    (ask read).Fails start last stop ↔ last = start ∧ read start = .error stop := by
  constructor
  · rintro ⟨houtcome, rfl⟩
    exact ⟨rfl, houtcome⟩
  · rintro ⟨rfl, houtcome⟩
    exact ⟨houtcome, rfl⟩

@[simp] theorem not_fails_step : ¬ (step write : Durable σ ε Unit).Fails start last stop := by
  rintro ⟨houtcome, -⟩
  cases houtcome

theorem fails_bind :
    (first >>= next).Fails start last stop ↔
      first.Fails start last stop ∨ ∃ middle result, first.Finishes start middle result ∧
        (next result).Fails middle last stop := by
  constructor
  · rintro ⟨houtcome, hlast⟩
    dsimp only [bind, Durable.bind] at houtcome hlast
    cases hfirst : (first start).outcome with
    | error other =>
      rw [hfirst] at houtcome hlast
      cases houtcome
      exact .inl ⟨hfirst, hlast⟩
    | ok result =>
      rw [hfirst] at houtcome hlast
      exact .inr ⟨_, result, ⟨hfirst, rfl⟩, houtcome, hlast⟩
  · rintro (⟨houtcome, hlast⟩ | ⟨middle, result, ⟨hfirst, rfl⟩, houtcome, hlast⟩)
    · constructor <;> dsimp only [bind, Durable.bind] <;> rw [houtcome]
      exact hlast
    · constructor <;> dsimp only [bind, Durable.bind] <;> rw [hfirst]
      · exact houtcome
      · exact hlast

variable {program : Durable σ ε α}

theorem Finishes.unique {other : σ} {result : α} (h : program.Finishes start last value)
    (h' : program.Finishes start other result) : last = other ∧ value = result := by
  obtain ⟨houtcome, rfl⟩ := h
  obtain ⟨houtcome', rfl⟩ := h'
  exact ⟨rfl, Except.ok.inj (houtcome.symm.trans houtcome')⟩

theorem Finishes.not_fails {other : σ} (h : program.Finishes start last value) :
    ¬ program.Fails start other stop := by
  rintro ⟨houtcome, -⟩
  cases h.outcome.symm.trans houtcome

def finish? (program : Durable σ ε α) (start : σ) : Option (σ × α) :=
  match (program start).outcome with
  | .ok value => some ((program start).last, value)
  | .error _ => none

theorem finish?_eq_some :
    program.finish? start = some (last, value) ↔ program.Finishes start last value := by
  unfold finish?
  constructor
  · intro h
    split at h
    · rename_i result houtcome
      cases h
      exact ⟨houtcome, rfl⟩
    · cases h
  · rintro ⟨houtcome, rfl⟩
    rw [houtcome]

def fail? (program : Durable σ ε α) (start : σ) : Option (σ × ε) :=
  match (program start).outcome with
  | .error (.err error) => some ((program start).last, error)
  | _ => none

theorem fail?_eq_some {error : ε} :
    program.fail? start = some (last, error) ↔ program.Fails start last (.err error) := by
  unfold fail?
  constructor
  · intro h
    split at h
    · rename_i result houtcome
      cases h
      exact ⟨houtcome, rfl⟩
    · cases h
  · rintro ⟨houtcome, rfl⟩
    rw [houtcome]

section Passed
variable {state : σ}

@[simp] theorem not_passed_pure {other : α} :
    state ∉ ((pure other : Durable σ ε α) start).passed := not_mem_nil

@[simp] theorem not_passed_ask {read : σ → Outcome ε α} :
    state ∉ ((ask read : Durable σ ε α) start).passed := not_mem_nil

@[simp] theorem passed_step {write : σ → σ} :
    state ∈ ((step write : Durable σ ε Unit) start).passed ↔ state = write start :=
  mem_singleton

theorem passed_bind {first : Durable σ ε α} {next : α → Durable σ ε β} :
    state ∈ ((first >>= next) start).passed ↔
      state ∈ (first start).passed ∨ ∃ middle result, first.Finishes start middle result ∧
        state ∈ (next result middle).passed := by
  dsimp only [bind, Durable.bind]
  cases hfirst : (first start).outcome with
  | error stop =>
    constructor
    · exact .inl
    · rintro (hmem | ⟨middle, result, ⟨houtcome, -⟩, -⟩)
      · exact hmem
      · cases hfirst.symm.trans houtcome
  | ok result =>
    simp only [mem_append]
    constructor
    · rintro (hmem | hmem)
      · exact .inl hmem
      · exact .inr ⟨_, result, ⟨hfirst, rfl⟩, hmem⟩
    · rintro (hmem | ⟨middle, other, ⟨houtcome, rfl⟩, hmem⟩)
      · exact .inl hmem
      · cases hfirst.symm.trans houtcome
        exact .inr hmem

end Passed

end Inversion

/-- The run ends normally; it passes only states with `during`, and `ends` holds of its
value and of the state it ends in. -/
structure Completes (program : Durable σ ε α) (start : σ) (during : σ → Prop)
    (ends : α → σ → Prop) : Prop where
  passed : ∀ state ∈ (program start).passed, during state
  ended : ∃ value last, program.Finishes start last value ∧ ends value last

namespace Completes
variable {start : σ} {during : σ → Prop} {ends : α → σ → Prop} {program : Durable σ ε α}

theorem mono {ends' : α → σ → Prop} (h : Completes program start during ends)
    (hends : ∀ value last, ends value last → ends' value last) :
    Completes program start during ends' := by
  obtain ⟨hpassed, value, last, hfinishes, hvalue⟩ := h
  exact ⟨hpassed, value, last, hfinishes, hends value last hvalue⟩

theorem weaken {during' : σ → Prop} (h : Completes program start during ends)
    (hduring : ∀ state, during state → during' state) : Completes program start during' ends :=
  ⟨fun state hmem => hduring state (h.passed state hmem), h.ended⟩

variable {value : α}

theorem pure (h : ends value start) :
    Completes (Pure.pure value : Durable σ ε α) start during ends :=
  ⟨nofun, value, start, ⟨rfl, rfl⟩, h⟩

variable {read : σ → Outcome ε α}

theorem ask (hread : read start = .ok value) (h : ends value start) :
    Completes (Durable.ask read) start during ends :=
  ⟨nofun, value, start, ⟨hread, rfl⟩, h⟩

variable {write : σ → σ}

theorem step {ends : Unit → σ → Prop} (hduring : during (write start)) (h : ends () (write start)) :
    Completes (Durable.step write : Durable σ ε Unit) start during ends := by
  refine ⟨fun state hmem => ?_, (), write start, ⟨rfl, rfl⟩, h⟩
  rwa [mem_singleton.mp hmem]

variable {next : α → Durable σ ε β} {ends : β → σ → Prop}

theorem bind {first : Durable σ ε α} {between : α → σ → Prop}
    (hfirst : Completes first start during between)
    (hnext : ∀ value middle, between value middle → Completes (next value) middle during ends) :
    Completes (first >>= next) start during ends := by
  obtain ⟨hpassed, value, middle, hfinishes, hbetween⟩ := hfirst
  obtain ⟨hrest, result, last, hlast, hends⟩ := hnext value middle hbetween
  refine ⟨?_, result, last, finishes_bind.mpr ⟨middle, value, hfinishes, hlast⟩, hends⟩
  intro state hmem
  dsimp only [Bind.bind, Durable.bind] at hmem
  rw [hfinishes.outcome] at hmem
  rcases mem_append.mp hmem with hmem | hmem
  · exact hpassed state hmem
  · rw [hfinishes.last] at hmem
    exact hrest state hmem

theorem ask_bind (hread : read start = .ok value)
    (hnext : Completes (next value) start during ends) :
    Completes (Durable.ask read >>= next) start during ends := by
  refine (show Completes (Durable.ask read) start during fun result state =>
    result = value ∧ state = start
    from Completes.ask hread ⟨rfl, rfl⟩).bind ?_
  rintro _ _ ⟨rfl, rfl⟩
  exact hnext

theorem step_bind {next : Unit → Durable σ ε β} (hduring : during (write start))
    (hnext : Completes (next ()) (write start) during ends) :
    Completes (Durable.step write >>= next) start during ends := by
  refine (show Completes (Durable.step write : Durable σ ε Unit) start during fun _ state =>
    state = write start from Completes.step hduring rfl).bind ?_
  rintro _ _ rfl
  exact hnext

end Completes

/-- The run fails before its first step. -/
def Refuses (program : Durable σ ε α) (start : σ) : Prop :=
  ∃ stop, program start = ⟨[], start, .error stop⟩

namespace Refuses
variable {start : σ} {read : σ → Outcome ε α}

theorem ask (h : ¬ ∃ value, read start = .ok value) : Refuses (Durable.ask read) start := by
  cases hread : read start with
  | ok value => exact absurd ⟨value, hread⟩ h
  | error stop => exact ⟨stop, by unfold Durable.ask; rw [hread]⟩

variable {next : α → Durable σ ε β}

theorem bind {first : Durable σ ε α} (h : Refuses first start) :
    Refuses (first >>= next) start := by
  obtain ⟨stop, hstop⟩ := h
  refine ⟨stop, ?_⟩
  dsimp only [Bind.bind, Durable.bind]
  rw [hstop]

theorem ask_bind (h : ∀ value, read start = .ok value → Refuses (next value) start) :
    Refuses (Durable.ask read >>= next) start := by
  by_cases hread : ∃ value, read start = .ok value
  · obtain ⟨value, hread⟩ := hread
    obtain ⟨stop, hstop⟩ := h value hread
    refine ⟨stop, ?_⟩
    show Durable.bind (Durable.ask read) next start = _
    unfold Durable.bind Durable.ask
    simp only [hread, hstop, nil_append]
  · exact (ask hread).bind

end Refuses

/-- The states in which a run may be found after a stop. -/
def Stops (program : Durable σ ε α) (start found : σ) : Prop :=
  found = start ∨ found ∈ (program start).passed

/-- Whatever a run does, it stays within `P`, also when it fails. -/
structure Keeps (P : σ → Prop) (program : Durable σ ε α) : Prop where
  passed : ∀ start, P start → ∀ state ∈ (program start).passed, P state
  last : ∀ start, P start → P (program start).last

namespace Keeps
variable {P : σ → Prop}

theorem pure (value : α) : Keeps P (Pure.pure value : Durable σ ε α) :=
  ⟨nofun, fun _ h => h⟩

theorem ask (read : σ → Outcome ε α) : Keeps P (Durable.ask read) :=
  ⟨nofun, fun _ h => h⟩

theorem step {write : σ → σ} (h : ∀ state, P state → P (write state)) :
    Keeps P (Durable.step write : Durable σ ε Unit) := by
  refine ⟨fun start hstart state hmem => ?_, fun start hstart => h start hstart⟩
  rw [mem_singleton.mp hmem]
  exact h start hstart

variable {next : α → Durable σ ε β}

theorem bind {first : Durable σ ε α} (hfirst : Keeps P first)
    (hnext : ∀ value, Keeps P (next value)) :
    Keeps P (first >>= next) := by
  constructor
  · intro start hstart state hmem
    dsimp only [Bind.bind, Durable.bind] at hmem
    cases houtcome : (first start).outcome with
    | error stop =>
      rw [houtcome] at hmem
      exact hfirst.passed start hstart state hmem
    | ok value =>
      rw [houtcome] at hmem
      rcases mem_append.mp hmem with hmem | hmem
      · exact hfirst.passed start hstart state hmem
      · exact (hnext value).passed _ (hfirst.last start hstart) state hmem
  · intro start hstart
    dsimp only [Bind.bind, Durable.bind]
    cases (first start).outcome with
    | error stop => exact hfirst.last start hstart
    | ok value => exact (hnext value).last _ (hfirst.last start hstart)

theorem bindResult {result : Outcome ε α}
    (hnext : ∀ value, result = .ok value → Keeps P (next value)) :
    Keeps P (Durable.ask (fun _ => result) >>= next) := by
  cases result with
  | error stop => exact ⟨nofun, fun _ h => h⟩
  | ok value => exact hnext value rfl

theorem when {condition : Bool} {program : Durable σ ε Unit} (h : Keeps P program) :
    Keeps P (Durable.when condition program) := by
  cases condition with
  | true => exact h
  | false => exact pure ()

theorem forSome {option : Option α} {program : α → Durable σ ε Unit}
    (h : ∀ value, Keeps P (program value)) : Keeps P (Durable.forSome option program) := by
  cases option with
  | some value => exact h value
  | none => exact pure ()

variable {program : Durable σ ε α}

theorem finishes {start last : σ} {value : α} (h : Keeps P program) (hstart : P start)
    (hrun : program.Finishes start last value) : P last :=
  hrun.last ▸ h.last start hstart

theorem fails {start last : σ} {stop : Stop ε} (h : Keeps P program) (hstart : P start)
    (hrun : program.Fails start last stop) : P last :=
  hrun.last ▸ h.last start hstart

end Keeps

end Durable

end TxBase.Lib
