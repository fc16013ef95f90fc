import Mathlib.Data.List.Forall2
import TxBase.Lib.Bytes

/-! Computations that return a value, report an error or panic, with the
operations that panic in Rust: indexing, slicing, `copy_from_slice` and machine
arithmetic.  `Safe` says that a computation does not panic. -/
namespace TxBase.Lib
open List

variable {β ε α : Type}

theorem bind_eq_ok {first : Except ε α} {next : α → Except ε β} {value : β} :
    (first >>= next) = .ok value ↔ ∃ middle, first = .ok middle ∧ next middle = .ok value := by
  cases first with
  | error error => simp [bind, Except.bind]
  | ok middle => simp [bind, Except.bind]

theorem bind_eq_some {first : Option α} {next : α → Option β} {value : β} :
    (first >>= next) = some value ↔ ∃ middle, first = some middle ∧ next middle = some value :=
  Option.bind_eq_some_iff

theorem check_eq_some {condition : Prop} [Decidable condition] :
    (if condition then some () else none) = some () ↔ condition := by simp

theorem eq_ok_of_toOption {result : Except ε α} {value : α} (h : result.toOption = some value) :
    result = .ok value := by
  cases result with
  | error error => cases h
  | ok other => cases h; rfl

theorem exists_of_forall₂ {R : α → β → Prop} {left : List α} {right : List β}
    (h : List.Forall₂ R left right)
    {other : β} (hother : other ∈ right) :
    ∃ item ∈ left, R item other := by
  induction h with
  | nil => cases hother
  | cons hhead _ ih =>
    rcases mem_cons.mp hother with rfl | hother
    · exact ⟨_, mem_cons_self, hhead⟩
    · obtain ⟨item, hitem, hrel⟩ := ih hother
      exact ⟨item, mem_cons_of_mem _ hitem, hrel⟩

variable {f : α → Except ε β} {items : List α} {results : List β}

theorem mem_of_mapM_eq_ok (h : items.mapM f = .ok results) {result : β}
    (hresult : result ∈ results) :
    ∃ item ∈ items, f item = .ok result := by
  induction items generalizing results with
  | nil =>
    cases h
    cases hresult
  | cons item rest ih =>
    simp only [mapM_cons, bind_eq_ok] at h
    obtain ⟨first, hfirst, others, hothers, h⟩ := h
    cases h
    rcases mem_cons.mp hresult with rfl | hresult
    · exact ⟨item, mem_cons_self, hfirst⟩
    · obtain ⟨other, hmem, hother⟩ := ih hothers hresult
      exact ⟨other, mem_cons_of_mem _ hmem, hother⟩

theorem foldlM_invariant {σ : Type} {P : σ → Prop} {step : σ → α → Except ε σ}
    (hstep : ∀ state item next, item ∈ items → P state → step state item = .ok next → P next)
    {start result : σ}
    (hstart : P start) (h : items.foldlM step start = .ok result) :
    P result := by
  induction items generalizing start with
  | nil =>
    cases h
    exact hstart
  | cons item rest ih =>
    rw [foldlM_cons] at h
    obtain ⟨next, hnext, hrest⟩ := bind_eq_ok.mp h
    refine ih ?_ (hstep _ _ _ mem_cons_self hstart hnext) hrest
    intro state other after hmem
    exact hstep state other after (mem_cons_of_mem _ hmem)

/-- Why a computation stopped without a value. -/
inductive Stop (ε : Type) where
  | err (error : ε)
  | panic
  deriving DecidableEq

abbrev Outcome (ε α : Type) := Except (Stop ε) α

namespace Outcome
variable {ε α β : Type}

def fail (error : ε) : Outcome ε α := .error (.err error)

def panicked : Outcome ε α := .error .panic

/-- The `?` operator on a `Result`. -/
def lift : Except ε α → Outcome ε α
  | .ok value => .ok value
  | .error error => fail error

instance : MonadLift (Except ε) (Except (Stop ε)) := ⟨lift⟩

def orFail (error : ε) : Option α → Outcome ε α
  | some value => .ok value
  | none => fail error

/-- A step that panics when there is no value: an index, a map key, `expect`. -/
def orPanic : Option α → Outcome ε α
  | some value => .ok value
  | none => panicked

def mapError {δ : Type} (f : ε → δ) : Outcome ε α → Outcome δ α
  | .ok value => .ok value
  | .error (.err error) => fail (f error)
  | .error .panic => panicked

def index (bytes : Bytes) (start stop : Nat) : Outcome ε Bytes :=
  if start ≤ stop ∧ stop ≤ bytes.length then .ok (slice bytes start stop) else panicked

def copyFromSlice (target : Bytes) (start stop : Nat) (source : Bytes) : Outcome ε Bytes :=
  if start ≤ stop ∧ stop ≤ target.length ∧ source.length = stop - start then
    .ok (target.take start ++ source ++ target.drop stop)
  else panicked

/-- Unsigned subtraction on a machine word. -/
def sub (left right : Nat) : Outcome ε Nat :=
  if right ≤ left then .ok (left - right) else panicked

def Safe (outcome : Outcome ε α) : Prop := outcome ≠ panicked

@[simp] theorem safe_ok (value : α) : Safe (.ok value : Outcome ε α) := by
  intro h
  cases h

@[simp] theorem safe_fail (error : ε) : Safe (fail error : Outcome ε α) := by
  intro h
  cases h

@[simp] theorem safe_lift (result : Except ε α) : Safe (lift result) := by
  cases result <;> intro h <;> cases h

@[simp] theorem safe_orFail (error : ε) (value : Option α) : Safe (orFail error value) := by
  cases value <;> intro h <;> cases h

variable {value : α}

theorem lift_eq_ok {result : Except ε α} : lift result = .ok value ↔ result = .ok value := by
  cases result with
  | error error => simp [lift, fail]
  | ok other => simp [lift]

theorem ite_fail_eq_ok {condition : Prop} [Decidable condition] {error : ε} {rest : Outcome ε α} :
    (if condition then fail error else rest) = .ok value ↔ ¬ condition ∧ rest = .ok value := by
  split <;> simp [*, fail]

variable {option : Option α}

theorem orFail_eq_ok {error : ε} :
    (orFail error option : Outcome ε α) = .ok value ↔ option = some value := by
  cases option <;> simp [orFail, fail]

variable {outcome : Outcome ε α}

theorem orPanic_eq_ok : (orPanic option : Outcome ε α) = .ok value ↔ option = some value := by
  cases option with
  | none => simp [orPanic, panicked]
  | some other => simp [orPanic]

variable {source target : Bytes} {stop start : Nat}

theorem safe_copyFromSlice (hle : start ≤ stop) (hstop : stop ≤ target.length)
    (hsource : source.length = stop - start) :
    Safe (copyFromSlice target start stop source : Outcome ε Bytes) := by
  unfold copyFromSlice
  rw [if_pos ⟨hle, hstop, hsource⟩]
  exact safe_ok _

theorem sub_eq_ok {left right result : Nat} :
    (sub left right : Outcome ε Nat) = .ok result ↔ right ≤ left ∧ result = left - right := by
  unfold sub panicked
  split
  · rename_i hle
    simp [hle, eq_comm]
  · rename_i hlt
    simp [hlt]

theorem safe_orPanic {value : Option α} (h : value.isSome) :
    Safe (orPanic value : Outcome ε α) := by
  cases value with
  | none => cases h
  | some value => exact safe_ok value

theorem safe_bind {next : α → Outcome ε β} (h : Safe outcome)
    (hnext : ∀ value, outcome = .ok value → Safe (next value)) : Safe (outcome >>= next) := by
  cases outcome with
  | ok value => exact hnext value rfl
  | error stop =>
    cases stop with
    | err error =>
      intro heq
      cases heq
    | panic => exact absurd rfl h

variable {result : Bytes}

section
variable (h : (copyFromSlice target start stop source : Outcome ε Bytes) = .ok result)
include h

theorem copyFromSlice_eq_ok :
    start ≤ stop ∧ stop ≤ target.length ∧ source.length = stop - start ∧
      result = target.take start ++ source ++ target.drop stop := by
  unfold copyFromSlice at h
  split at h
  · rename_i hbounds
    cases h
    exact ⟨hbounds.1, hbounds.2.1, hbounds.2.2, rfl⟩
  · cases h

theorem copyFromSlice_length : result.length = target.length := by
  obtain ⟨hle, hstop, hsource, rfl⟩ := copyFromSlice_eq_ok h
  simp only [length_append, length_take, length_drop]
  omega

theorem copyFromSlice_agree : Agree (fun i => i < start ∨ stop ≤ i) result target := by
  obtain ⟨hle, hstop, hsource, rfl⟩ := copyFromSlice_eq_ok h
  intro i hi
  rw [append_assoc]
  rcases hi with hi | hi
  · rw [getElem?_append_left (by rw [length_take]; omega), getElem?_take,
      if_pos hi]
  · rw [getElem?_append_right (by rw [length_take]; omega),
      getElem?_append_right (by rw [length_take]; omega), getElem?_drop,
      length_take]
    congr 1
    omega

theorem copyFromSlice_slice : slice result start stop = source := by
  obtain ⟨hle, hstop, hsource, rfl⟩ := copyFromSlice_eq_ok h
  have hstart : (target.take start).length = start := by
    rw [length_take]
    omega
  have hmiddle := slice_append_middle (target.take start) source (target.drop stop)
  rw [hstart, hsource, Nat.add_sub_of_le hle] at hmiddle
  rw [append_assoc]
  exact hmiddle

end

/-- The computation does not panic, and its result satisfies `P`. -/
structure Yields (outcome : Outcome ε α) (P : α → Prop) : Prop where
  safe : Safe outcome
  result : ∀ value, outcome = .ok value → P value

namespace Yields
variable {P : α → Prop} {Q : β → Prop}

theorem ok {value : α} (h : P value) : Yields (.ok value : Outcome ε α) P :=
  ⟨safe_ok _, fun _ heq => by cases heq; exact h⟩

theorem fail (error : ε) : Yields (Outcome.fail error : Outcome ε α) P :=
  ⟨safe_fail _, fun _ heq => by cases heq⟩

theorem lift (result : Except ε α) : Yields (Outcome.lift result) fun value => result = .ok value :=
  ⟨safe_lift _, fun _ heq => lift_eq_ok.mp heq⟩

theorem orFail (error : ε) (value : Option α) :
    Yields (Outcome.orFail error value) fun result => value = some result := by
  refine ⟨safe_orFail _ _, fun result heq => ?_⟩
  cases value with
  | none => cases heq
  | some value =>
    cases heq
    rfl

theorem orPanic {value : Option α} (h : value.isSome) :
    Yields (Outcome.orPanic value : Outcome ε α) fun result => value = some result := by
  refine ⟨safe_orPanic h, fun result heq => ?_⟩
  cases value with
  | none => cases heq
  | some value =>
    cases heq
    rfl

variable {outcome : Outcome ε α}

theorem mono {R : α → Prop} (h : Yields outcome R) (himp : ∀ value, R value → P value) :
    Yields outcome P :=
  ⟨h.safe, fun value heq => himp value (h.result value heq)⟩

variable {next : α → Outcome ε β}

theorem bind (h : Yields outcome P) (hnext : ∀ value, P value → Yields (next value) Q) :
    Yields (outcome >>= next) Q := by
  refine ⟨safe_bind h.safe fun value heq => (hnext value (h.result value heq)).safe, ?_⟩
  intro result heq
  obtain ⟨value, hvalue, hresult⟩ := bind_eq_ok.mp heq
  exact (hnext value (h.result value hvalue)).result result hresult

theorem bindLift {result : Except ε α}
    (hnext : ∀ value, result = .ok value → Yields (next value) Q) :
    Yields (Outcome.lift result >>= next) Q :=
  bind (lift result) hnext

theorem foldlM {σ : Type} {P : σ → Prop} {step : σ → α → Outcome ε σ} {items : List α}
    (hstep : ∀ state item, item ∈ items → P state → Yields (step state item) P) {start : σ}
    (hstart : P start) : Yields (items.foldlM step start) P := by
  induction items generalizing start with
  | nil => exact ok hstart
  | cons item rest ih =>
    rw [foldlM_cons]
    apply bind (hstep start item mem_cons_self hstart)
    intro next hnext
    apply ih _ hnext
    intro state other hmem
    exact hstep state other (mem_cons_of_mem _ hmem)

end Yields

end Outcome

end TxBase.Lib
