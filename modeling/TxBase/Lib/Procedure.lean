import TxBase.Lib.Interruption

/-! Procedures that call the operations of a system.  An operation is answered as the system
executes it, or fails with or without having taken effect; a procedure may be stopped before
each of its calls.  `Ensures` says what holds on the way and at the end, whichever of the
permitted failures happen. -/
namespace TxBase.Lib
open List

/-- A procedure goes on with the answer of each operation it calls. -/
inductive Procedure (Op : Type) (Reply : Op → Type) (ι ε α : Type) where
  | done (value : α)
  | fail (error : ε)
  | call (op : Op) (next : Except ι (Reply op) → Procedure Op Reply ι ε α)

namespace Procedure
variable {Op : Type} {Reply : Op → Type} {σ ι ε δ α β γ : Type}

protected def bind : Procedure Op Reply ι ε α → (α → Procedure Op Reply ι ε β) →
    Procedure Op Reply ι ε β
  | .done value, next => next value
  | .fail error, _ => .fail error
  | .call op rest, next => .call op fun answer => (rest answer).bind next

instance : Monad (Procedure Op Reply ι ε) where
  pure := .done
  bind := Procedure.bind

@[simp] theorem call_bind (op : Op) (rest : Except ι (Reply op) → Procedure Op Reply ι ε α)
    (next : α → Procedure Op Reply ι ε β) :
    (Procedure.call op rest >>= next) = .call op fun answer => rest answer >>= next := rfl

instance : LawfulMonad (Procedure Op Reply ι ε) :=
  LawfulMonad.mk' _
    (by
      intro α program
      induction program with
      | done value => rfl
      | fail error => rfl
      | call op rest ih => exact congrArg (Procedure.call op) (funext fun answer => ih answer))
    (fun _ _ => rfl)
    (by
      intro α β γ program next last
      induction program with
      | done value => rfl
      | fail error => rfl
      | call op rest ih => exact congrArg (Procedure.call op) (funext fun answer => ih answer))

/-- An operation, with its failure as a result. -/
def ask (op : Op) : Procedure Op Reply ι ε (Except ι (Reply op)) := .call op .done

/-- An operation whose failure is passed on. -/
def pass (op : Op) : Procedure Op Reply ε ε (Reply op) := do
  match ← ask op with
  | .ok reply => .done reply
  | .error error => .fail error

/-- A procedure, with its failure as a result. -/
def attempt : Procedure Op Reply ι ε α → Procedure Op Reply ι δ (Except ε α)
  | .done value => .done (.ok value)
  | .fail error => .done (.error error)
  | .call op next => .call op fun answer => (next answer).attempt

def ofExcept : Except ε α → Procedure Op Reply ι ε α
  | .ok value => .done value
  | .error error => .fail error

@[simp] theorem ofExcept_ok_bind (value : α) (next : α → Procedure Op Reply ι ε β) :
    (ofExcept (.ok value) >>= next) = next value := rfl

@[simp] theorem ofExcept_error_bind (error : ε) (next : α → Procedure Op Reply ι ε β) :
    (ofExcept (.error error) >>= next) = .fail error := rfl

def mapError (f : ε → δ) : Procedure Op Reply ι ε α → Procedure Op Reply ι δ α
  | .done value => .done value
  | .fail error => .fail (f error)
  | .call op next => .call op fun answer => (next answer).mapError f

def collect (items : List γ) (body : γ → Procedure Op Reply ι ε α) :
    Procedure Op Reply ι ε (List α) :=
  match items with
  | [] => .done []
  | item :: rest => do
      let first ← body item
      let others ← collect rest body
      .done (first :: others)

def forEach (items : List γ) (body : γ → Procedure Op Reply ι ε Unit) :
    Procedure Op Reply ι ε Unit :=
  match items with
  | [] => .done ()
  | item :: rest => do
      body item
      forEach rest body

/-- How an operation went. -/
inductive Happening (ι : Type) where
  | answered
  | failed (error : ι) (effect : Bool)
  deriving DecidableEq

/-- An operation that was called, the state it found, and how it went. -/
structure Event (Op σ ι : Type) where
  op : Op
  state : σ
  happening : Happening ι

section Semantics
variable (exec : (op : Op) → σ → Except ι (Reply op) × σ)

def after (op : Op) (state : σ) : Happening ι → Except ι (Reply op) × σ
  | .answered => exec op state
  | .failed error true => (.error error, (exec op state).2)
  | .failed error false => (.error error, state)

/-- One operation of a procedure. -/
inductive Step : Procedure Op Reply ι ε α → σ → Event Op σ ι → Procedure Op Reply ι ε α → σ → Prop
  | call (op : Op) (next : Except ι (Reply op) → Procedure Op Reply ι ε α) (state : σ)
      (happening : Happening ι) :
      Step (.call op next) state ⟨op, state, happening⟩ (next (after exec op state happening).1)
        (after exec op state happening).2

/-- A run of a procedure: what is left of it, and the state it has reached. -/
inductive Steps : Procedure Op Reply ι ε α → σ → List (Event Op σ ι) →
    Procedure Op Reply ι ε α → σ → Prop
  | refl (program : Procedure Op Reply ι ε α) (state : σ) : Steps program state [] program state
  | cons {program next rest : Procedure Op Reply ι ε α} {state middle last : σ}
    {event : Event Op σ ι}
      {events : List (Event Op σ ι)} (hstep : Step exec program state event next middle)
      (hrest : Steps next middle events rest last) :
      Steps program state (event :: events) rest last

/-- A whole run of a procedure. -/
inductive Runs : Procedure Op Reply ι ε α → σ → List (Event Op σ ι) → Except ε α → σ → Prop
  | done (value : α) (state : σ) : Runs (.done value) state [] (.ok value) state
  | fail (error : ε) (state : σ) : Runs (.fail error) state [] (.error error) state
  | call {op : Op} {next : Except ι (Reply op) → Procedure Op Reply ι ε α} {state last : σ}
      {events : List (Event Op σ ι)} {result : Except ε α} (happening : Happening ι)
      (hrest : Runs (next (after exec op state happening).1) (after exec op state happening).2 events
        result last) :
      Runs (.call op next) state (⟨op, state, happening⟩ :: events) result last

/-- The run in which the operations go as planned, and all further ones are answered. -/
def play : Procedure Op Reply ι ε α → σ → List (Happening ι) → List (Event Op σ ι) × Except ε α × σ
  | .done value, state, _ => ([], .ok value, state)
  | .fail error, state, _ => ([], .error error, state)
  | .call op next, state, plan =>
      let answer := after exec op state (plan.headD .answered)
      let rest := (next answer.1).play answer.2 plan.tail
      (⟨op, state, plan.headD .answered⟩ :: rest.1, rest.2)

/-- The result of the run without failures, and the state it leaves. -/
def run : Procedure Op Reply ι ε α → σ → Except ε α × σ
  | .done value, state => (.ok value, state)
  | .fail error, state => (.error error, state)
  | .call op next, state => (next (exec op state).1).run (exec op state).2

def durable : Procedure Op Reply ι ε α → Durable σ ε α
  | .done value => Durable.pure value
  | .fail error => Durable.ask fun _ => Outcome.fail error
  | .call op next => fun state =>
      let rest := (next (exec op state).1).durable (exec op state).2
      ⟨(exec op state).2 :: rest.passed, rest.last, rest.outcome⟩

/-- On the way `inv` holds, and at the end `ends` or `fails`, whichever of the permitted
failures happen. -/
def Ensures (permitted : Event Op σ ι → Prop) (inv : σ → Prop) :
    Procedure Op Reply ι ε α → σ → (α → σ → Prop) → (ε → σ → Prop) → Prop
  | .done value, state, ends, _ => inv state ∧ ends value state
  | .fail error, state, _, fails => inv state ∧ fails error state
  | .call op next, state, ends, fails => inv state ∧ ∀ happening,
      (happening = .answered ∨ permitted ⟨op, state, happening⟩) →
        (next (after exec op state happening).1).Ensures permitted inv
          (after exec op state happening).2 ends fails

/-- Until an operation sets the mark `early` holds, and from then on `late`, whichever of the
permitted failures happen; without the mark the procedure ends with `ends` or fails. -/
def Turns (permitted : Event Op σ ι → Prop) (early late mark : σ → Prop) :
    Procedure Op Reply ι ε α → σ → (α → σ → Prop) → Prop
  | .done value, state, ends => early state ∧ ends value state
  | .fail _, state, _ => early state
  | .call op next, state, ends => early state ∧ ∀ happening,
      (happening = .answered ∨ permitted ⟨op, state, happening⟩) →
        ¬ mark (after exec op state happening).2 ∧
            (next (after exec op state happening).1).Turns permitted early late mark
              (after exec op state happening).2 ends ∨
          mark (after exec op state happening).2 ∧
            (next (after exec op state happening).1).Ensures exec permitted late
              (after exec op state happening).2 (fun _ _ => True) fun _ _ => True

end Semantics

section Rules
variable {exec : (op : Op) → σ → Except ι (Reply op) × σ} {permitted : Event Op σ ι → Prop}
  {inv : σ → Prop} {state : σ} {ends : α → σ → Prop} {fails : ε → σ → Prop}
  {program : Procedure Op Reply ι ε α}

theorem Ensures.invariant (h : Ensures exec permitted inv program state ends fails) : inv state := by
  cases program <;> exact h.1

theorem Ensures.mono {ends' : α → σ → Prop} {fails' : ε → σ → Prop}
    (h : Ensures exec permitted inv program state ends fails)
    (hends : ∀ value last, inv last → ends value last → ends' value last)
    (hfails : ∀ error last, inv last → fails error last → fails' error last) :
    Ensures exec permitted inv program state ends' fails' := by
  induction program generalizing state with
  | done value => exact ⟨h.1, hends _ _ h.1 h.2⟩
  | fail error => exact ⟨h.1, hfails _ _ h.1 h.2⟩
  | call op next ih => exact ⟨h.1, fun happening hhappening => ih _ (h.2 happening hhappening)⟩

theorem Ensures.weaken {inv' : σ → Prop} (h : Ensures exec permitted inv program state ends fails)
    (hinv : ∀ state, inv state → inv' state) :
    Ensures exec permitted inv' program state ends fails := by
  induction program generalizing state with
  | done value | fail error => exact ⟨hinv _ h.1, h.2⟩
  | call op next ih => exact ⟨hinv _ h.1,
    fun happening hhappening => ih _ (h.2 happening hhappening)⟩

variable {next : α → Procedure Op Reply ι ε β}

theorem Ensures.bind {ends : β → σ → Prop}
    (h : Ensures exec permitted inv program state
      (fun value middle => Ensures exec permitted inv (next value) middle ends fails) fails) :
    Ensures exec permitted inv (program >>= next) state ends fails := by
  induction program generalizing state with
  | done value => exact h.2
  | fail error => exact h
  | call op rest ih => exact ⟨h.1, fun happening hhappening => ih _ (h.2 happening hhappening)⟩

theorem Ensures.imp {ends' : α → σ → Prop} (h : Ensures exec permitted inv program state ends fails)
    (hends : ∀ value last, inv last → ends value last → ends' value last) :
    Ensures exec permitted inv program state ends' fails := h.mono hends fun _ _ _ hfails => hfails

theorem Ensures.then {ends' : β → σ → Prop} (h : Ensures exec permitted inv program state ends fails)
    (hnext : ∀ value middle, inv middle → ends value middle →
      Ensures exec permitted inv (next value) middle ends' fails) :
    Ensures exec permitted inv (program >>= next) state ends' fails := .bind (h.imp hnext)

theorem Ensures.attempt {ends : Except ε α → σ → Prop} {fails : δ → σ → Prop}
    (h : Ensures exec permitted inv program state (fun value => ends (.ok value))
      fun error => ends (.error error)) :
    Ensures exec permitted inv program.attempt state ends fails := by
  induction program generalizing state with
  | done value => exact h
  | fail error => exact h
  | call op rest ih => exact ⟨h.1, fun happening hhappening => ih _ (h.2 happening hhappening)⟩

theorem Ensures.ask {op : Op} {ends : Except ι (Reply op) → σ → Prop} {fails : ε → σ → Prop}
    (hinv : inv state) (hanswered : inv (exec op state).2 ∧ ends (exec op state).1 (exec op state).2)
    (hfailed : ∀ error effect, permitted ⟨op, state, .failed error effect⟩ →
      inv (after exec op state (.failed error effect)).2 ∧
        ends (.error error) (after exec op state (.failed error effect)).2) :
    Ensures exec permitted inv (ask op) state ends fails := by
  refine ⟨hinv, fun happening hhappening => ?_⟩
  cases happening with
  | answered => exact hanswered
  | failed error effect =>
    have hfailed := hfailed error effect (hhappening.resolve_left (by simp))
    cases effect <;> exact hfailed

section Pass
variable {exec : (op : Op) → σ → Except ε (Reply op) × σ} {permitted : Event Op σ ε → Prop}

theorem inv_after_failed {op : Op} {reply : Reply op} {next : σ}
    (hexec : exec op state = (.ok reply, next))
    (hinv : inv state) (hnext : inv next) (error : ε) (effect : Bool) :
    inv (after exec op state (.failed error effect)).2 := by
  cases effect
  · exact hinv
  · show inv (exec op state).2
    rw [hexec]
    exact hnext

theorem Ensures.pass {op : Op} {reply : Reply op} {next : σ} {ends : Reply op → σ → Prop}
    (hexec : exec op state = (.ok reply, next)) (hinv : inv state) (hnext : inv next)
    (hends : ends reply next)
    (hfails : ∀ event error last, permitted event → inv last → fails error last) :
    Ensures exec permitted inv (Procedure.pass op) state ends fails := by
  refine .bind (.ask hinv ?_ ?_)
  · rw [hexec]
    exact ⟨hnext, hnext, hends⟩
  · intro error effect hpermitted
    have hlast := inv_after_failed hexec hinv hnext error effect
    exact ⟨hlast, hlast, hfails _ error _ hpermitted hlast⟩

end Pass

section Run

@[simp] theorem run_done (value : α) :
    (.done value : Procedure Op Reply ι ε α).run exec state = (.ok value, state) := rfl

@[simp] theorem run_fail (error : ε) :
    (.fail error : Procedure Op Reply ι ε α).run exec state = (.error error, state) := rfl

@[simp] theorem run_ask (op : Op) :
    (ask op : Procedure Op Reply ι ε _).run exec state =
      (.ok (exec op state).1, (exec op state).2) := rfl

@[simp] theorem run_ofExcept (result : Except ε α) :
    (ofExcept result : Procedure Op Reply ι ε α).run exec state = (result, state) := by
  cases result <;> rfl

theorem run_bind (next : α → Procedure Op Reply ι ε β) :
    (program >>= next).run exec state =
      match program.run exec state with
      | (.ok value, middle) => (next value).run exec middle
      | (.error error, middle) => (.error error, middle) := by
  induction program generalizing state with
  | done value => rfl
  | fail error => rfl
  | call op rest ih => exact ih _

variable {next : α → Procedure Op Reply ι ε β} {value : α} {middle : σ}

theorem run_bind_ok (h : program.run exec state = (.ok value, middle)) :
    (program >>= next).run exec state = (next value).run exec middle := by
  rw [run_bind, h]

theorem run_mapError (f : ε → δ) :
    (program.mapError f).run exec state =
      ((program.run exec state).1.mapError f, (program.run exec state).2) := by
  induction program generalizing state with
  | done value => rfl
  | fail error => rfl
  | call op rest ih => exact ih _

variable {last : σ}

theorem run_bind_eq_ok {value : β} :
    (program >>= next).run exec state = (.ok value, last) ↔
      ∃ result middle, program.run exec state = (.ok result, middle) ∧
        (next result).run exec middle = (.ok value, last) := by
  rw [run_bind]
  rcases program.run exec state with ⟨error | result, middle⟩
  · simp
  · simp

theorem run_mapError_eq_ok {f : ε → δ} :
    (program.mapError f).run exec state = (.ok value, last) ↔
      program.run exec state = (.ok value, last) := by
  rw [run_mapError]
  rcases program.run exec state with ⟨error | result, middle⟩ <;> simp [Except.mapError]

theorem run_ofExcept_eq_ok {result : Except ε α} :
    (ofExcept result : Procedure Op Reply ι ε α).run exec state = (.ok value, last) ↔
      result = .ok value ∧ state = last := by
  rw [run_ofExcept, Prod.mk.injEq]

theorem run_done_eq_ok {result : α} :
    (.done result : Procedure Op Reply ι ε α).run exec state = (.ok value, last) ↔
      result = value ∧ state = last := by
  rw [run_done, Prod.mk.injEq, Except.ok.injEq]

variable {items : List γ} {body : γ → Procedure Op Reply ι ε α}

theorem forall_of_run_collect {P : α → Prop} {values : List α}
    (h : ∀ item ∈ items, ∀ start value stop,
      (body item).run exec start = (.ok value, stop) → P value)
    (hrun : (collect items body).run exec state = (.ok values, last)) :
    ∀ value ∈ values, P value := by
  induction items generalizing state values with
  | nil =>
    cases hrun
    exact nofun
  | cons item rest ih =>
    obtain ⟨first, middle, hfirst, hrest⟩ := run_bind_eq_ok.mp hrun
    obtain ⟨others, final, hothers, hdone⟩ := run_bind_eq_ok.mp hrest
    cases hdone
    refine forall_mem_cons.mpr ⟨h item mem_cons_self _ _ _ hfirst, ih ?_ hothers⟩
    intro other hmem
    exact h other (mem_cons_of_mem _ hmem)

end Run

theorem forEach_append (left right : List γ) (body : γ → Procedure Op Reply ι ε Unit) :
    forEach (left ++ right) body = (do forEach left body; forEach right body) := by
  induction left with
  | nil => rfl
  | cons item rest ih =>
    show (body item >>= fun _ => forEach (rest ++ right) body) =
      (body item >>= fun _ => forEach rest body) >>= fun _ => forEach right body
    rw [ih, bind_assoc]

theorem Ensures.forEach {items : List γ} {body : γ → Procedure Op Reply ι ε Unit}
    (remaining : List γ → σ → Prop)
    (hbody : ∀ item rest state, inv state → remaining (item :: rest) state →
      Ensures exec permitted inv (body item) state (fun _ => remaining rest) fails)
    (hinv : inv state) (h : remaining items state) :
    Ensures exec permitted inv (forEach items body) state (fun _ => remaining []) fails := by
  induction items generalizing state with
  | nil => exact ⟨hinv, h⟩
  | cons item rest ih =>
    exact (hbody item rest state hinv h).then fun _ _ hinv hrest => ih hinv hrest

variable {last : σ} {events : List (Event Op σ ι)} {result : Except ε β}

theorem Runs.bind_inv (h : Runs exec (program >>= next) state events result last) :
    (∃ error, result = .error error ∧ Runs exec program state events (.error error) last) ∨
      ∃ value middle front back, Runs exec program state front (.ok value) middle ∧
        Runs exec (next value) middle back result last ∧ events = front ++ back := by
  induction program generalizing state events with
  | done value => exact .inr ⟨value, _, [], _, .done value _, h, rfl⟩
  | fail error =>
    cases h
    exact .inl ⟨error, rfl, .fail error _⟩
  | call op rest ih =>
    cases h with
    | call happening hrest =>
      rcases ih _ hrest with ⟨error, rfl, hrun⟩ | ⟨value, middle, front, back, hrun, hnext, rfl⟩
      · exact .inl ⟨error, rfl, .call happening hrun⟩
      · exact .inr ⟨value, middle, _, back, .call happening hrun, hnext, rfl⟩

theorem runs_play (plan : List (Happening ι)) :
    Runs exec program state (program.play exec state plan).1 (program.play exec state plan).2.1
      (program.play exec state plan).2.2 := by
  induction program generalizing state plan with
  | done value => exact .done value _
  | fail error => exact .fail error _
  | call op next ih => exact .call _ (ih _ _)

theorem answered_play {event : Event Op σ ι} (h : event ∈ (program.play exec state []).1) :
    event.happening = .answered := by
  induction program generalizing state with
  | done value => cases h
  | fail error => cases h
  | call op next ih =>
    rcases mem_cons.mp h with rfl | h
    · rfl
    · exact ih _ h

theorem Runs.attempt_inv {result : Except δ (Except ε α)}
    (h : Runs exec (program.attempt : Procedure Op Reply ι δ (Except ε α))
      state events result last) :
    ∃ outcome, result = .ok outcome ∧ Runs exec program state events outcome last := by
  induction program generalizing state events with
  | done value =>
    cases h
    exact ⟨_, rfl, .done value _⟩
  | fail error =>
    cases h
    exact ⟨_, rfl, .fail error _⟩
  | call op rest ih =>
    cases h with
    | call happening hrest =>
      obtain ⟨outcome, rfl, hrun⟩ := ih _ hrest
      exact ⟨outcome, rfl, .call happening hrun⟩

theorem Ensures.runs {result : Except ε α} (h : Ensures exec permitted inv program state ends fails)
    (hrun : Runs exec program state events result last)
    (hevents : ∀ event ∈ events, event.happening = .answered ∨ permitted event) :
    inv last ∧ (∀ value, result = .ok value → ends value last) ∧
      (∀ error, result = .error error → fails error last) ∧
      ∀ event ∈ events, inv event.state ∧
        inv (after exec event.op event.state event.happening).2 := by
  induction hrun with
  | done value =>
    exact ⟨h.1, fun _ heq => Except.ok.inj heq ▸ h.2, nofun, nofun⟩
  | fail error =>
    exact ⟨h.1, nofun, fun _ heq => Except.error.inj heq ▸ h.2, nofun⟩
  | call happening hrest ih =>
    have hnext := h.2 happening (hevents _ mem_cons_self)
    obtain ⟨hlast, hends, hfails, hinv⟩ :=
      ih hnext (forall_mem_cons.mp hevents).2
    refine ⟨hlast, hends, hfails, fun event hmem => ?_⟩
    rcases mem_cons.mp hmem with rfl | hmem
    · exact ⟨h.1, hnext.invariant⟩
    · exact hinv event hmem

theorem Ensures.runs_bind (h : Ensures exec permitted inv program state ends fails)
    (hrun : Runs exec (program >>= next) state events result last)
    (hevents : ∀ event ∈ events, event.happening = .answered ∨ permitted event) :
    ∃ front back middle, events = front ++ back ∧ inv middle ∧
      (∀ event ∈ front, inv event.state ∧ inv (after exec event.op event.state event.happening).2) ∧
      ((∃ error, result = .error error ∧ back = [] ∧ last = middle ∧ fails error middle) ∨
        ∃ value, ends value middle ∧ Runs exec (next value) middle back result last) := by
  rcases hrun.bind_inv with ⟨error, rfl, hfirst⟩ | ⟨value, middle, front, back, hfirst, hnext, rfl⟩
  · obtain ⟨hlast, -, hfails, hfront⟩ := h.runs hfirst hevents
    exact ⟨events, [], last, (append_nil _).symm, hlast, hfront,
      .inl ⟨error, rfl, rfl, rfl, hfails error rfl⟩⟩
  · obtain ⟨hmiddle, hends, -, hfront⟩ :=
      h.runs hfirst fun event hmem => hevents event (mem_append_left _ hmem)
    exact ⟨front, back, middle, rfl, hmiddle, hfront, .inr ⟨value, hends value rfl, hnext⟩⟩

/-- The operations that a procedure calls. -/
def Calls (called : Op → Prop) : Procedure Op Reply ι ε α → Prop
  | .done _ => True
  | .fail _ => True
  | .call op next => called op ∧ ∀ answer, (next answer).Calls called

section Calls
variable {called : Op → Prop}

theorem Calls.bind {next : α → Procedure Op Reply ι ε β} (h : Calls called program)
    (hnext : ∀ value, Calls called (next value)) : Calls called (program >>= next) := by
  induction program with
  | done value => exact hnext value
  | fail error => trivial
  | call op rest ih => exact ⟨h.1, fun answer => ih answer (h.2 answer)⟩

theorem Calls.ask {op : Op} (h : called op) : Calls called (ask op : Procedure Op Reply ι ε _) :=
  ⟨h, fun _ => trivial⟩

variable {items : List γ}

theorem Calls.forEach {body : γ → Procedure Op Reply ι ε Unit}
    (h : ∀ item, Calls called (body item)) :
    Calls called (forEach items body) := by
  induction items with
  | nil => trivial
  | cons item rest ih => exact (h item).bind fun _ => ih

theorem Calls.collect {body : γ → Procedure Op Reply ι ε α} (h : ∀ item, Calls called (body item)) :
    Calls called (collect items body) := by
  induction items with
  | nil => trivial
  | cons item rest ih => exact (h item).bind fun _ => ih.bind fun _ => trivial

theorem Calls.mapError {f : ε → δ} (h : Calls called program) :
    Calls called (program.mapError f) := by
  induction program with
  | done value => trivial
  | fail error => trivial
  | call op rest ih => exact ⟨h.1, fun answer => ih answer (h.2 answer)⟩

theorem Calls.ofExcept (result : Except ε α) :
    Calls called (ofExcept result : Procedure Op Reply ι ε α) := by
  cases result <;> trivial

theorem Calls.run {R : σ → σ → Prop} (h : Calls called program) (hrefl : ∀ state, R state state)
    (htrans : ∀ first second third, R first second → R second third → R first third)
    (hexec : ∀ op state, called op → R state (exec op state).2) (state : σ) :
    R state (program.run exec state).2 := by
  induction program generalizing state with
  | done value | fail error => exact hrefl state
  | call op rest ih => exact htrans _ _ _ (hexec op state h.1) (ih _ (h.2 _) _)

theorem Calls.runs {events : List (Event Op σ ι)} {result : Except ε α} {last : σ}
    (h : Calls called program) (hrun : Runs exec program state events result last) :
    ∀ event ∈ events, called event.op := by
  induction hrun with
  | done value => exact nofun
  | fail error => exact nofun
  | call happening hrest ih =>
    exact forall_mem_cons.mpr ⟨h.1, ih (h.2 _)⟩

end Calls

theorem Ensures.steps {rest : Procedure Op Reply ι ε α}
    (h : Ensures exec permitted inv program state ends fails)
    (hsteps : Steps exec program state events rest last)
    (hevents : ∀ event ∈ events, event.happening = .answered ∨ permitted event) :
    Ensures exec permitted inv rest last ends fails := by
  induction hsteps with
  | refl => exact h
  | cons hstep hrest ih =>
    cases hstep with
    | call op next state happening =>
      refine ih (h.2 happening ?_) (forall_mem_cons.mp hevents).2
      exact hevents _ mem_cons_self

theorem Ensures.completes (h : Ensures exec permitted inv program state ends fun _ _ => False) :
    Durable.Completes (program.durable exec) state inv ends := by
  induction program generalizing state with
  | done value => exact Durable.Completes.pure h.2
  | fail error => exact h.2.elim
  | call op next ih =>
    obtain ⟨hpassed, value, last, hfinishes, hends⟩ := ih _ (h.2 .answered (.inl rfl))
    refine ⟨?_, value, last, ⟨hfinishes.outcome, hfinishes.last⟩, hends⟩
    exact forall_mem_cons.mpr ⟨(h.2 .answered (.inl rfl)).invariant, hpassed⟩

theorem Ensures.passed (h : Ensures exec permitted inv program state ends fails) :
    ∀ middle ∈ (program.durable exec state).passed, inv middle := by
  induction program generalizing state with
  | done value => exact nofun
  | fail error => exact nofun
  | call op next ih =>
    exact forall_mem_cons.mpr ⟨(h.2 .answered (.inl rfl)).invariant, ih _ (h.2 .answered (.inl rfl))⟩

theorem durable_bind (program : Procedure Op Reply ι ε α) (next : α → Procedure Op Reply ι ε β) :
    (program >>= next).durable exec = program.durable exec >>= fun value =>
      (next value).durable exec := by
  induction program with
  | done value => rfl
  | fail error => rfl
  | call op rest ih =>
    funext state
    have hrest := congrFun (ih (exec op state).1) (exec op state).2
    simp only [call_bind, durable, hrest]
    dsimp only [Bind.bind, Durable.bind]
    cases ((rest (exec op state).1).durable exec (exec op state).2).outcome <;> rfl

theorem Ensures.finishes {value : α} (h : Ensures exec permitted inv program state ends fails)
    (hfinishes : (program.durable exec).Finishes state last value) : ends value last := by
  induction program generalizing state with
  | done result =>
    obtain ⟨rfl, rfl⟩ := Durable.finishes_pure.mp hfinishes
    exact h.2
  | fail error => cases hfinishes.outcome
  | call op next ih =>
    exact ih _ (h.2 .answered (.inl rfl)) ⟨hfinishes.outcome, hfinishes.last⟩

end Rules

section Crossing
variable {exec : (op : Op) → σ → Except ι (Reply op) × σ} {permitted : Event Op σ ι → Prop}
  {early late mark : σ → Prop} {start : σ} {fails : ε → σ → Prop}

/-- Wherever the procedure is stopped, it is found before the mark or behind it. -/
def Crosses (exec : (op : Op) → σ → Except ι (Reply op) × σ) (early late mark : σ → Prop)
    (program : Procedure Op Reply ι ε α) (start : σ) : Prop :=
  ∀ seen found, (program.durable exec).StopsAfter start seen found →
    Durable.Phased early late mark seen found

variable {next : α → Procedure Op Reply ι ε β} {program : Procedure Op Reply ι ε α}

theorem Ensures.crosses_bind
    (hfirst : Ensures exec permitted early program start
      (fun value middle => Crosses exec early late mark (next value) middle) fails) :
    Crosses exec early late mark (program >>= next) start := by
  intro seen found h
  rw [durable_bind] at h
  exact Durable.phased_bind hfirst.invariant hfirst.passed
    (fun _ _ hfinishes => hfirst.finishes hfinishes) h

variable {ends : α → σ → Prop}

theorem Ensures.crosses_call {op : Op} {next : Except ι (Reply op) → Procedure Op Reply ι ε α}
    (hstart : early start) (hmark : mark (exec op start).2)
    (hnext : Ensures exec permitted late (next (exec op start).1) (exec op start).2 ends fails) :
    Crosses exec early late mark (.call op next) start := by
  rintro seen found ⟨hseen, rfl⟩
  cases seen with
  | nil => exact .inl ⟨nofun, hstart⟩
  | cons state more =>
    obtain ⟨rfl, hmore⟩ := cons_prefix_cons.mp hseen
    rw [getLastD_cons]
    have hstops : ((next (exec op start).1).durable exec).StopsAfter (exec op start).2 more
        (more.getLastD (exec op start).2) := ⟨hmore, rfl⟩
    exact .inr ⟨(hstops.holds hnext.invariant hnext.passed).1, _, mem_cons_self, hmark⟩

variable {late' : σ → Prop}

theorem Crosses.mono (h : Crosses exec early late mark program start)
    (hlate : ∀ state, late state → late' state) :
    Crosses exec early late' mark program start :=
  fun seen found hstop => (h seen found hstop).imp_right fun hfound => ⟨hlate _ hfound.1, hfound.2⟩

theorem Crosses.map (h : Crosses exec early late mark program start) (f : α → β) :
    Crosses exec early late mark (program >>= fun value => .done (f value)) start := by
  rintro seen found ⟨hseen, hfound⟩
  refine h seen found ⟨?_, hfound⟩
  rw [durable_bind] at hseen
  dsimp only [Bind.bind, Durable.bind] at hseen
  cases houtcome : (program.durable exec start).outcome with
  | error stop =>
    rw [houtcome] at hseen
    exact hseen
  | ok value =>
    rw [houtcome] at hseen
    simpa [durable, Durable.pure] using hseen

theorem Ensures.crosses (hprogram : Ensures exec permitted early program start ends fails) :
    Crosses exec early late mark program start := by
  intro seen found h
  obtain ⟨hfound, hseen⟩ := h.holds hprogram.invariant hprogram.passed
  exact .inl ⟨hseen, hfound⟩

theorem Ensures.turns_bind {ends : β → σ → Prop} (hmark : ∀ state, early state → ¬ mark state)
    (h : Ensures exec permitted early program start
      (fun value middle => Turns exec permitted early late mark (next value) middle ends) fails) :
    Turns exec permitted early late mark (program >>= next) start ends := by
  induction program generalizing start with
  | done value => exact h.2
  | fail error => exact h.1
  | call op rest ih =>
    refine ⟨h.1, fun happening hhappening => .inl ?_⟩
    have hnext := h.2 happening hhappening
    exact ⟨hmark _ hnext.invariant, ih _ hnext⟩

section
variable (h : Turns exec permitted early late mark program start ends)
include h

theorem Turns.invariant : early start := by
  cases program with
  | done value => exact h.1
  | fail error => exact h
  | call op next => exact h.1

theorem Turns.mono {early' : σ → Prop} {ends' : α → σ → Prop}
    (hearly : ∀ state, early state → early' state)
    (hlate : ∀ state, late state → late' state)
    (hends : ∀ value last, ends value last → ends' value last) :
    Turns exec permitted early' late' mark program start ends' := by
  induction program generalizing start with
  | done value => exact ⟨hearly _ h.1, hends _ _ h.2⟩
  | fail error => exact hearly _ h
  | call op next ih =>
    refine ⟨hearly _ h.1, fun happening hhappening => ?_⟩
    rcases h.2 happening hhappening with ⟨hmark, hnext⟩ | ⟨hmark, hnext⟩
    · exact .inl ⟨hmark, ih _ hnext⟩
    · exact .inr ⟨hmark, hnext.weaken hlate⟩

theorem Turns.crosses : Crosses exec early late mark program start := by
  induction program generalizing start with
  | done value =>
    exact Ensures.crosses (show Ensures exec permitted _ _ _ _ fun _ _ => True from h)
  | fail error =>
    exact Ensures.crosses (show Ensures exec permitted _ _ _ (fun _ _ => True) fun _ _ =>
      True from ⟨h, trivial⟩)
  | call op next ih =>
    rcases h.2 .answered (.inl rfl) with ⟨-, hnext⟩ | ⟨hmark, hnext⟩
    · rintro seen found ⟨hseen, rfl⟩
      cases seen with
      | nil => exact .inl ⟨nofun, h.1⟩
      | cons state more =>
        obtain ⟨rfl, hmore⟩ := cons_prefix_cons.mp hseen
        rw [getLastD_cons]
        rcases ih _ hnext more _ ⟨hmore, rfl⟩ with ⟨hmore, hfound⟩ | ⟨hfound, state, hmem, hmark⟩
        · exact .inl ⟨forall_mem_cons.mpr ⟨hnext.invariant, hmore⟩, hfound⟩
        · exact .inr ⟨hfound, state, mem_cons_of_mem _ hmem, hmark⟩
    · exact Ensures.crosses_call h.1 hmark hnext

end

end Crossing

end Procedure

end TxBase.Lib
