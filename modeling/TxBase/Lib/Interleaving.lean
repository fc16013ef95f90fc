import Mathlib.Data.Fintype.Basic
import TxBase.Lib.Procedure

/-! Procedures of several clients that call the operations of one shared state in turns.
`Guarded` is the rely and guarantee rule for one procedure: whatever the others do in between, each
of its operations changes the state as `guar` allows. -/
namespace TxBase.Lib
open Procedure

variable {Op : Type} {Reply : Op → Type} {σ ε α β γ ι κ : Type}

section Guarded
variable (exec : (op : Op) → σ → Except ε (Reply op) × σ) (guar : σ → σ → Prop)

/-- The others change the state as `guar` allows before each operation, and so does the operation. -/
def Procedure.Guarded : Procedure Op Reply ε ε α → σ → (α → σ → Prop) → Prop
  | .done value, state, ends => ends value state
  | .fail _, _, _ => True
  | .call op next, state, ends => ∀ middle, guar state middle →
      guar middle (exec op middle).2 ∧ Guarded (next (exec op middle).1) (exec op middle).2 ends

variable {exec guar} {program : Procedure Op Reply ε ε α} {state : σ} {ends : α → σ → Prop}

namespace Procedure

theorem Guarded.mono {ends' : α → σ → Prop} (h : Guarded exec guar program state ends)
    (hends : ∀ value last, ends value last → ends' value last) :
    Guarded exec guar program state ends' := by
  induction program generalizing state with
  | done value => exact hends value state h
  | fail error => trivial
  | call op rest ih => exact fun middle hmiddle => ⟨(h middle hmiddle).1, ih _ (h middle hmiddle).2⟩

theorem Guarded.attempt {ends : Except ε α → σ → Prop}
    (h : Guarded exec guar program state fun value => ends (.ok value))
    (hfail : ∀ error last, ends (.error error) last) :
    Guarded exec guar (program.attempt : Procedure Op Reply ε ε (Except ε α)) state ends := by
  induction program generalizing state with
  | done value => exact h
  | fail error => exact hfail error state
  | call op rest ih => exact fun middle hmiddle => ⟨(h middle hmiddle).1, ih _ (h middle hmiddle).2⟩

theorem Guarded.ask {op : Op} {ends : Except ε (Reply op) → σ → Prop}
    (h : ∀ middle, guar state middle → guar middle (exec op middle).2 ∧
      ends (exec op middle).1 (exec op middle).2) :
    Guarded exec guar (ask op) state ends := h

theorem Guarded.pass {op : Op} {ends : Reply op → σ → Prop}
    (h : ∀ middle, guar state middle → guar middle (exec op middle).2 ∧
      ∀ reply, (exec op middle).1 = .ok reply → ends reply (exec op middle).2) :
    Guarded exec guar (pass op) state ends := by
  intro middle hmiddle
  refine ⟨(h middle hmiddle).1, ?_⟩
  cases hreply : (exec op middle).1 with
  | ok reply => exact (h middle hmiddle).2 reply hreply
  | error error => trivial

theorem Guarded.ofExcept {result : Except ε α} (h : ∀ value, result = .ok value → ends value state) :
    Guarded exec guar (ofExcept result) state ends := by
  cases result with
  | ok value => exact h value rfl
  | error error => trivial

variable [IsPreorder σ guar]

theorem Guarded.bind {next : α → Procedure Op Reply ε ε β} {ends' : β → σ → Prop}
    (h : Guarded exec guar program state ends)
    (hnext : ∀ value last, guar state last → ends value last →
      Guarded exec guar (next value) last ends') :
    Guarded exec guar (program >>= next) state ends' := by
  induction program generalizing state with
  | done value => exact hnext value state (refl_of guar state) h
  | fail error => trivial
  | call op rest ih =>
    intro middle hmiddle
    obtain ⟨hguar, hrest⟩ := h middle hmiddle
    exact ⟨hguar, ih _ hrest fun value last hlast =>
      hnext value last (trans_of guar hmiddle (trans_of guar hguar hlast))⟩

theorem Guarded.since (h : Guarded exec guar program state ends) :
    Guarded exec guar program state fun value last => guar state last ∧ ends value last := by
  rw [← bind_pure program]
  exact h.bind fun value last hlast hends => ⟨hlast, hends⟩

theorem Guarded.collect {items : List γ} {body : γ → Procedure Op Reply ε ε α} (pre : γ → σ → Prop)
    {ends : γ → α → σ → Prop} (hpre : ∀ item first second, guar first second → pre item first →
      pre item second)
    (hends : ∀ item value first second, guar first second → ends item value first →
      ends item value second)
    (h : ∀ item state, pre item state → Guarded exec guar (body item) state (ends item))
    (hstate : ∀ item ∈ items, pre item state) :
    Guarded exec guar (collect items body) state fun values last =>
      List.Forall₂ (fun item value => ends item value last) items values := by
  induction items generalizing state with
  | nil => exact .nil
  | cons item rest ih =>
    refine (h item state (hstate item List.mem_cons_self)).bind fun first middle hmiddle hfirst => ?_
    refine (ih fun other hother => hpre other _ _ hmiddle
      (hstate other (List.mem_cons_of_mem _ hother))).bind ?_
    exact fun others last hlast hothers => .cons (hends item first _ _ hlast hfirst) hothers

theorem Guarded.later (h : Guarded exec guar program state fun _ _ => True) {later : σ}
    (hlater : guar state later) :
    Guarded exec guar program later fun _ _ => True := by
  cases program with
  | done value => trivial
  | fail error => trivial
  | call op next => exact fun middle hmiddle => h middle (trans_of guar hlater hmiddle)

theorem Guarded.ensures {inv : σ → Prop}
    (hinv : ∀ {first second}, guar first second → inv first → inv second) (hstate : inv state)
    (h : Guarded exec guar program state ends) :
    Ensures exec (fun _ => False) inv program state ends fun _ _ => True := by
  induction program generalizing state with
  | done value => exact ⟨hstate, h⟩
  | fail error => exact ⟨hstate, trivial⟩
  | call op rest ih =>
    obtain ⟨hguar, hrest⟩ := h state (refl_of guar state)
    refine ⟨hstate, fun happening hanswered => ?_⟩
    cases hanswered.resolve_right id
    exact ih _ (hinv hguar hstate) hrest

end Procedure

end Guarded

namespace Interleaving

/-- The shared state, and the call that each client is in with what is left of it. -/
structure System (Op : Type) (Reply : Op → Type) (σ ε α ι κ : Type) where
  state : σ
  running : ι → Option (κ × Procedure Op Reply ε ε α)

inductive Action (ι κ : Type) where
  | start (i : ι) (call : κ)
  | operate (i : ι)
  /-- The call has returned, or the client is stopped. -/
  | leave (i : ι)

section System
variable [DecidableEq ι] [Fintype ι] (exec : (op : Op) → σ → Except ε (Reply op) × σ)
  (program : κ → Procedure Op Reply ε ε α) (exclusive : κ → Bool)

def System.step (system : System Op Reply σ ε α ι κ) :
    Action ι κ → Option (System Op Reply σ ε α ι κ)
  | .start i request =>
      match system.running i with
      | none => some
        { system with running := Function.update system.running i (some (request, program request)) }
      | some _ => none
  | .operate i =>
      match system.running i with
      | some (request, .call op next) => some ⟨(exec op system.state).2,
          Function.update system.running i (some (request, next (exec op system.state).1))⟩
      | _ => none
  | .leave i => some { system with running := Function.update system.running i none }

def System.run (system : System Op Reply σ ε α ι κ) :
    List (Action ι κ) → Option (System Op Reply σ ε α ι κ)
  | [] => some system
  | action :: rest => (system.step exec program action).bind fun next => next.run rest

/-- An exclusive call starts when no other one runs, and no other one starts while it runs. -/
def System.alone (system : System Op Reply σ ε α ι κ) : Action ι κ → Bool
  | .start _ request => decide (∀ j, (system.running j).all fun other =>
    !exclusive request && !exclusive other.1)
  | _ => true

/-- The calls of a run that are exclusive run alone. -/
def System.meets (system : System Op Reply σ ε α ι κ) : List (Action ι κ) → Bool
  | [] => true
  | action :: rest => system.alone exclusive action &&
      (system.step exec program action).all fun next => next.meets rest

variable {exec program exclusive} {guar : σ → σ → Prop} {inv : σ → Prop}

/-- What is known of a client: an exclusive call keeps the invariant by itself, any other one changes
the state as `guar` allows. -/
def Behaves (exec : (op : Op) → σ → Except ε (Reply op) × σ) (exclusive : κ → Bool)
    (guar : σ → σ → Prop)
    (inv : σ → Prop) (state : σ) (client : κ × Procedure Op Reply ε ε α) : Prop :=
  if exclusive client.1 then Ensures exec (fun _ => False) inv client.2 state
    (fun _ _ => True) fun _ _ => True
  else Guarded exec guar client.2 state fun _ _ => True

/-- The invariant holds, every client behaves, and an exclusive call is the only one. -/
structure Orderly (exec : (op : Op) → σ → Except ε (Reply op) × σ) (exclusive : κ → Bool)
    (guar : σ → σ → Prop)
    (inv : σ → Prop) (system : System Op Reply σ ε α ι κ) : Prop where
  keeps : inv system.state
  behaves : ∀ i client, system.running i = some client →
    Behaves exec exclusive guar inv system.state client
  only : ∀ i j client other, system.running i = some client → system.running j = some other →
    exclusive client.1 = true → i = j

omit [Fintype ι] in
theorem Orderly.update (h : Orderly exec exclusive guar inv system) {i : ι} {state : σ}
    {client : Option (κ × Procedure Op Reply ε ε α)} (hinv : inv state)
    (hself : ∀ own, client = some own → Behaves exec exclusive guar inv state own)
    (hothers : ∀ j, j ≠ i → ∀ other, system.running j = some other →
      Behaves exec exclusive guar inv state other ∧ (client.isSome → exclusive other.1 = false))
    (honly : ∀ own, client = some own → exclusive own.1 = true → ∀ j, j ≠ i →
      system.running j = none) :
    Orderly exec exclusive guar inv ⟨state, Function.update system.running i client⟩ := by
  have hcases : ∀ j other, Function.update system.running i client j = some other →
      j = i ∧ client = some other ∨ j ≠ i ∧ system.running j = some other := by
    intro j other hother
    rw [Function.update_apply] at hother
    split at hother
    · exact .inl ⟨‹_›, hother⟩
    · exact .inr ⟨‹_›, hother⟩
  refine ⟨hinv, fun j other hother => ?_, fun j k first second hfirst hsecond hexclusive => ?_⟩
  · rcases hcases j other hother with ⟨-, hown⟩ | ⟨hj, hrunning⟩
    · exact hself other hown
    · exact (hothers j hj other hrunning).1
  · rcases hcases j first hfirst with ⟨rfl, hown⟩ | ⟨hj, hrunning⟩
    · rcases hcases k second hsecond with ⟨rfl, -⟩ | ⟨hk, hsecond⟩
      · rfl
      · rw [honly first hown hexclusive k hk] at hsecond
        cases hsecond
    · rcases hcases k second hsecond with ⟨rfl, hown⟩ | ⟨hk, hsecond⟩
      · rw [(hothers j hj first hrunning).2 (by rw [hown]; rfl)] at hexclusive
        cases hexclusive
      · exact h.only j k first second hrunning hsecond hexclusive

variable [IsPreorder σ guar] {system next : System Op Reply σ ε α ι κ}

section Steps
variable (hkeeps : ∀ first second, guar first second → inv first → inv second)
    (hshared : ∀ request state, exclusive request = false →
      Guarded exec guar (program request) state fun _ _ => True)
    (halone : ∀ request state, exclusive request = true → inv state →
      Ensures exec (fun _ => False) inv (program request) state (fun _ _ => True) fun _ _ => True)
include hkeeps hshared halone

theorem Orderly.step (h : Orderly exec exclusive guar inv system) {action : Action ι κ}
    (hmeets : system.alone exclusive action = true)
    (hstep : system.step exec program action = some next) :
    Orderly exec exclusive guar inv next := by
  cases action with
  | start i request =>
    cases hidle : system.running i with
    | some client => simp [System.step, hidle] at hstep
    | none =>
      simp only [System.step, hidle, Option.some.injEq] at hstep
      subst hstep
      have hmeets := of_decide_eq_true hmeets
      refine h.update h.keeps ?_ (fun j _ other hother => ⟨h.behaves j other hother, fun _ => ?_⟩) ?_
      · rintro own ⟨⟩
        unfold Behaves
        split
        · exact halone request _ ‹_› h.keeps
        · exact hshared request _ (Bool.eq_false_iff.mpr ‹_›)
      · have hboth := hmeets j
        rw [hother] at hboth
        simp only [Option.all_some, Bool.and_eq_true, Bool.not_eq_true'] at hboth
        exact hboth.2
      · rintro own ⟨⟩ hexclusive j hj
        have hboth := hmeets j
        cases hother : system.running j with
        | none => rfl
        | some other => simp [hother, hexclusive] at hboth
  | operate i =>
    cases hclient : system.running i with
    | none => simp [System.step, hclient] at hstep
    | some client =>
      obtain ⟨request, program⟩ := client
      cases program with
      | done value | fail error => simp [System.step, hclient] at hstep
      | call op rest =>
        simp only [System.step, hclient, Option.some.injEq] at hstep
        subst hstep
        have hbehaves := h.behaves i _ hclient
        have honly : exclusive request = true → ∀ j, j ≠ i → system.running j = none := by
          intro hexclusive j hj
          by_contra hsome
          obtain ⟨other, hother⟩ := Option.ne_none_iff_exists'.mp hsome
          exact hj (h.only i j _ other hclient hother hexclusive).symm
        unfold Behaves at hbehaves
        split at hbehaves
        · rename_i hexclusive
          have hrest := hbehaves.2 .answered (.inl rfl)
          refine h.update hrest.invariant ?_ (fun j hj other hother => ?_) ?_
          · rintro own ⟨⟩
            unfold Behaves
            rwa [if_pos hexclusive]
          · rw [honly hexclusive j hj] at hother
            cases hother
          · rintro own ⟨⟩ - j hj
            exact honly hexclusive j hj
        · rename_i hshared
          obtain ⟨hguar, hrest⟩ := hbehaves _ (refl_of guar _)
          refine h.update (hkeeps _ _ hguar h.keeps) ?_ (fun j hj other hother => ?_) ?_
          · rintro own ⟨⟩
            unfold Behaves
            rwa [if_neg hshared]
          · have hother' : exclusive other.1 = false := by
              by_contra htrue
              exact hj (h.only j i other _ hother hclient (by simpa using htrue))
            have hbehaves := h.behaves j other hother
            unfold Behaves at hbehaves ⊢
            rw [hother'] at hbehaves ⊢
            exact ⟨.later hbehaves hguar, fun _ => rfl⟩
          · rintro own ⟨⟩ hexclusive
            exact absurd hexclusive hshared
  | leave i =>
    cases hstep
    exact h.update h.keeps nofun (fun j _ other hother => ⟨h.behaves j other hother, nofun⟩) nofun

theorem Orderly.run (h : Orderly exec exclusive guar inv system) {actions : List (Action ι κ)}
    (hmeets : system.meets exec program exclusive actions = true)
    (hrun : system.run exec program actions = some next) : Orderly exec exclusive guar inv next := by
  induction actions generalizing system with
  | nil =>
    cases hrun
    exact h
  | cons action rest ih =>
    obtain ⟨middle, hmiddle, hrest⟩ := Option.bind_eq_some_iff.mp hrun
    simp only [System.meets, hmiddle, Option.all_some, Bool.and_eq_true] at hmeets
    exact ih (h.step hkeeps hshared halone hmeets.1 hmiddle) hmeets.2 hrest

end Steps

end System

end Interleaving

end TxBase.Lib
