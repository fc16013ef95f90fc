import Mathlib.Data.List.Induction
import TxBase.Lib.Durable

/-! Programs that are stopped and started again.  A run is stopped after some of its durable
steps; a recovery follows, which may be stopped as well, any number of times.  What such a run
may reach is shown in two phases: `early` until a mark is set, `late` from then on. -/
namespace TxBase.Lib.Durable
open List
variable {σ ε α β ι : Type} {start : σ} {seen : List σ} {first : Durable σ ε α} {P : σ → Prop}
  {next : α → Durable σ ε β}

/-- The run was stopped after it passed `seen`, in the last of these states. -/
def StopsAfter (program : Durable σ ε α) (start : σ) (seen : List σ) (found : σ) : Prop :=
  seen <+: (program start).passed ∧ found = seen.getLastD start

/-- A program was stopped, then others were run one after the other and stopped as well. -/
inductive Interrupted (first : Durable σ ε α) (again : ι → Durable σ ε β) (start : σ) :
    List σ → σ → Prop
  | stopped {seen : List σ} {found : σ} (h : first.StopsAfter start seen found) :
      Interrupted first again start seen found
  | again {seen more : List σ} {found next : σ} (i : ι)
      (h : Interrupted first again start seen found)
      (hstop : (again i).StopsAfter found more next) :
      Interrupted first again start (seen ++ more) next

section Stops
variable {found : σ} {program : Durable σ ε α}

theorem StopsAfter.holds (h : program.StopsAfter start seen found) (hstart : P start)
    (hpassed : ∀ state ∈ (program start).passed, P state) : P found ∧ ∀ state ∈ seen, P state := by
  obtain ⟨hseen, rfl⟩ := h
  have hall : ∀ state ∈ seen, P state := fun state hmem => hpassed state (hseen.subset hmem)
  refine ⟨?_, hall⟩
  cases seen using List.reverseRecOn with
  | nil => exact hstart
  | append_singleton front last =>
    rw [getLastD_concat]
    exact hall last (mem_append_right _ mem_cons_self)

theorem stopsAfter_bind (h : (first >>= next).StopsAfter start seen found) :
    first.StopsAfter start seen found ∨
      ∃ middle value more, first.Finishes start middle value ∧ more ≠ [] ∧
        (next value).StopsAfter middle more found ∧ seen = (first start).passed ++ more := by
  obtain ⟨hseen, hfound⟩ := h
  dsimp only [bind, Durable.bind] at hseen
  cases houtcome : (first start).outcome with
  | error stop =>
    rw [houtcome] at hseen
    exact .inl ⟨hseen, hfound⟩
  | ok value =>
    rw [houtcome] at hseen
    rcases prefix_or_prefix_of_prefix hseen (prefix_append _ _) with hshort | ⟨more, rfl⟩
    · exact .inl ⟨hshort, hfound⟩
    · cases more using List.reverseRecOn with
      | nil =>
        rw [append_nil] at hfound ⊢
        exact .inl ⟨prefix_rfl, hfound⟩
      | append_singleton front last =>
        refine .inr ⟨_, value, front ++ [last], ⟨houtcome, rfl⟩, by simp,
          ⟨(prefix_append_right_inj _).mp hseen, ?_⟩, rfl⟩
        rw [hfound, ← append_assoc, getLastD_concat, getLastD_concat]

end Stops

section Phases
variable {again : ι → Durable σ ε β} {early late : σ → Prop} {mark : σ → Prop}

/-- A run is found before the mark, with no marked state behind it, or behind the mark. -/
def Phased (early late mark : σ → Prop) (seen : List σ) (found : σ) : Prop :=
  (∀ state ∈ seen, early state) ∧ early found ∨ late found ∧ ∃ state ∈ seen, mark state

variable {found : σ}

theorem phased_bind (hstart : early start) (hfirst : ∀ state ∈ (first start).passed, early state)
    (hnext : ∀ middle value, first.Finishes start middle value →
      ∀ seen found, (next value).StopsAfter middle seen found → Phased early late mark seen found)
    (h : (first >>= next).StopsAfter start seen found) : Phased early late mark seen found := by
  rcases stopsAfter_bind h with hstop | ⟨middle, value, more, hfinishes, -, hmore, rfl⟩
  · obtain ⟨hfound, hseen⟩ := hstop.holds hstart hfirst
    exact .inl ⟨hseen, hfound⟩
  · rcases hnext middle value hfinishes more found hmore with ⟨hseen, hfound⟩ |
      ⟨hfound, state, hmem, hmark⟩
    · refine .inl ⟨fun state hmem => ?_, hfound⟩
      exact (mem_append.mp hmem).elim (hfirst state) (hseen state)
    · exact .inr ⟨hfound, state, mem_append_right _ hmem, hmark⟩

theorem phased_step_bind {write : σ → σ} {next : Unit → Durable σ ε β} (hstart : early start)
    (hmark : mark (write start)) (hwrite : late (write start))
    (hnext : ∀ state ∈ (next () (write start)).passed, late state)
    (h : (step write >>= next).StopsAfter start seen found) :
    Phased early late mark seen found := by
  obtain ⟨hseen, rfl⟩ := h
  cases seen with
  | nil => exact .inl ⟨nofun, hstart⟩
  | cons state more =>
    obtain ⟨rfl, hmore⟩ := cons_prefix_cons.mp hseen
    rw [getLastD_cons]
    have hstops : (next ()).StopsAfter (write start) more (more.getLastD (write start)) :=
      ⟨hmore, rfl⟩
    exact .inr ⟨(hstops.holds hwrite hnext).1, _, mem_cons_self, hmark⟩

theorem Interrupted.phases
    (hfirst : ∀ seen found, first.StopsAfter start seen found → Phased early late mark seen found)
    (hearly : ∀ i state, early state → ∀ next ∈ (again i state).passed, early next)
    (hlate : ∀ i state, late state → ∀ next ∈ (again i state).passed, late next)
    (h : Interrupted first again start seen found) : Phased early late mark seen found := by
  induction h with
  | stopped h => exact hfirst _ _ h
  | again i h hstop ih =>
    rcases ih with ⟨hseen, hfound⟩ | ⟨hfound, state, hmem, hmark⟩
    · obtain ⟨hnext, hmore⟩ := hstop.holds hfound (hearly i _ hfound)
      refine .inl ⟨?_, hnext⟩
      intro state hmem
      exact (mem_append.mp hmem).elim (hseen state) (hmore state)
    · exact .inr ⟨(hstop.holds hfound (hlate i _ hfound)).1, state, mem_append_left _ hmem, hmark⟩

end Phases

section Loops

def forEach (items : List ι) (body : ι → Durable σ ε Unit) : Durable σ ε Unit :=
  match items with
  | [] => Durable.pure ()
  | item :: rest => do
      body item
      forEach rest body

variable {body : ι → Durable σ ε Unit}

theorem Keeps.forEach (h : ∀ item, Keeps P (body item)) (items : List ι) :
    Keeps P (forEach items body) := by
  induction items with
  | nil => exact Keeps.pure ()
  | cons item rest ih => exact (h item).bind fun _ => ih

theorem Completes.forEach {during : σ → Prop} {inv : List ι → σ → Prop}
    (hbody : ∀ item rest state, inv (item :: rest) state →
      Completes (body item) state during fun _ next => inv rest next)
    {items : List ι} (h : inv items start) :
    Completes (forEach items body) start during fun _ last => inv [] last := by
  induction items generalizing start with
  | nil => exact Completes.pure h
  | cons item rest ih => exact (hbody item rest start h).bind fun _ _ hnext => ih hnext

end Loops

end TxBase.Lib.Durable

/-! Files that are replaced one by one.  On the way each holds its old or its new content. -/
namespace TxBase.Lib.Files
variable {ι β : Type}

def Between (base desired files : ι → Option β) : Prop :=
  ∀ i, files i = base i ∨ files i = desired i

section Between
variable {base desired files : ι → Option β}

theorem between_base (base desired : ι → Option β) : Between base desired base := fun _ => .inl rfl

theorem Between.update [DecidableEq ι] (h : Between base desired files) (i : ι) :
    Between base desired (Function.update files i (desired i)) := by
  intro j
  by_cases hj : j = i
  · subst hj
    exact .inr (Function.update_self j _ files)
  · rw [Function.update_of_ne hj]
    exact h j

end Between

end TxBase.Lib.Files
