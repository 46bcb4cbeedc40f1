import Mathlib.Data.List.Basic

/-! Runs of a deterministic machine under a condition on each step, and the two
rules used on them: an invariant and a simulation carry over from steps to runs. The same for
labelled transitions. -/
namespace Machine

variable {σ τ ι : Type*}

/-- The state reached from `s` by executing the inputs in order. -/
def run (step : σ → ι → σ) (s : σ) (ops : List ι) : σ := ops.foldl step s

/-- Every input meets `P` in the state in which it is executed. -/
def Along (step : σ → ι → σ) (P : σ → ι → Prop) : σ → List ι → Prop
  | _, [] => True
  | s, op :: ops => P s op ∧ Along step P (step s op) ops

instance decidableAlong (step : σ → ι → σ) (P : σ → ι → Prop) [∀ s op, Decidable (P s op)] :
    ∀ (ops : List ι) (s : σ), Decidable (Along step P s ops)
  | [], _ => isTrue trivial
  | op :: ops, s =>
    have := decidableAlong step P ops (step s op)
    inferInstanceAs (Decidable (P s op ∧ Along step P (step s op) ops))

@[simp] theorem run_nil (step : σ → ι → σ) (s : σ) : run step s [] = s := rfl

@[simp] theorem run_cons (step : σ → ι → σ) (s : σ) (op : ι) (ops : List ι) :
    run step s (op :: ops) = run step (step s op) ops := rfl

theorem run_append (step : σ → ι → σ) (s : σ) (ops ops' : List ι) :
    run step s (ops ++ ops') = run step (run step s ops) ops' := List.foldl_append

/-- A relation between two machines that every admitted step preserves is
preserved by every admitted run. -/
theorem simulation {step : σ → ι → σ} {step' : τ → ι → τ} {P : σ → ι → Prop}
    {R : σ → τ → Prop} (hstep : ∀ s t op, R s t → P s op → R (step s op) (step' t op)) :
    ∀ (ops : List ι) (s : σ) (t : τ), R s t → Along step P s ops →
      R (run step s ops) (run step' t ops)
  | [], _, _, h, _ => h
  | op :: ops, s, t, h, ha => simulation hstep ops _ _ (hstep s t op h ha.1) ha.2

theorem invariant {step : σ → ι → σ} {P : σ → ι → Prop} {I : σ → Prop}
    (hstep : ∀ s op, I s → P s op → I (step s op)) (ops : List ι) (s : σ) (h : I s)
    (ha : Along step P s ops) : I (run step s ops) :=
  @simulation σ Unit ι step (fun _ _ => ()) P (fun s _ => I s)
    (fun s _ op => hstep s op) ops s () h ha

/-- Where a step keeps `I` if and only if it meets `P`, every state of a run meets `I` if and
only if every step of it meets `P`. -/
theorem along_iff {step : σ → ι → σ} {P : σ → ι → Prop} {J I : σ → Prop}
    (hJ : ∀ s op, J s → J (step s op)) (hI : ∀ s op, J s → I s → (I (step s op) ↔ P s op))
    {s : σ} (hj : J s) (hi : I s) (ops : List ι) :
    Along step P s ops ↔ ∀ pre, pre <+: ops → I (run step s pre) := by
  induction ops generalizing s with
  | nil =>
    refine iff_of_true trivial fun pre hpre => ?_
    rw [List.prefix_nil.1 hpre]
    exact hi
  | cons op ops ih =>
    constructor
    · rintro ⟨hp, ha⟩ pre hpre
      cases pre with
      | nil => exact hi
      | cons o pre =>
        obtain ⟨rfl, htail⟩ := List.cons_prefix_cons.1 hpre
        exact (ih (hJ s o hj) ((hI s o hj hi).2 hp)).1 ha pre htail
    · intro h
      have hnext : I (step s op) := h [op] (List.cons_prefix_cons.2 ⟨rfl, List.nil_prefix⟩)
      refine ⟨(hI s op hj hi).1 hnext, (ih (hJ s op hj) hnext).2 fun pre hpre => ?_⟩
      exact h (op :: pre) (List.cons_prefix_cons.2 ⟨rfl, hpre⟩)

theorem along_of_forall {step : σ → ι → σ} {P : σ → ι → Prop} {ops : List ι}
    (h : ∀ op ∈ ops, ∀ s, P s op) (s : σ) : Along step P s ops := by
  induction ops generalizing s with
  | nil => trivial
  | cons op ops ih =>
    exact ⟨h op List.mem_cons_self s, ih (fun o ho => h o (List.mem_cons_of_mem _ ho)) _⟩

end Machine

namespace Transitions

variable {σ τ ι : Type*} {step : σ → ι → σ → Prop} {spec : τ → ι → τ → Prop}

/-- `Run step s ls s'`: the steps labelled `ls`, oldest first, lead from `s` to `s'`. -/
inductive Run (step : σ → ι → σ → Prop) (s : σ) : List ι → σ → Prop
  | nil : Run step s [] s
  | snoc {ls s' l s''} (h : Run step s ls s') (hs : step s' l s'') : Run step s (ls ++ [l]) s''

theorem Run.invariant {I : σ → Prop} {P : ι → Prop}
    (hstep : ∀ s l s', I s → P l → step s l s' → I s') {s s' : σ} {ls : List ι} (h₀ : I s)
    (h : Run step s ls s') (hP : ∀ l ∈ ls, P l) : I s' := by
  induction h with
  | nil => exact h₀
  | snoc _ hs ih =>
    exact hstep _ _ _ (ih fun l hl => hP l (List.mem_append_left _ hl))
      (hP _ (List.mem_append_right _ (List.mem_singleton_self _))) hs

/-- A relation that admitted steps carry over to steps of another system carries over whole
runs. -/
theorem Run.simulation {R : σ → τ → Prop} {P : ι → Prop}
    (hstep : ∀ s t l s', R s t → P l → step s l s' → ∃ t', spec t l t' ∧ R s' t') {s s' : σ}
    {t : τ} {ls : List ι} (h₀ : R s t) (h : Run step s ls s') (hP : ∀ l ∈ ls, P l) :
    ∃ t', Run spec t ls t' ∧ R s' t' := by
  induction h with
  | nil => exact ⟨t, .nil, h₀⟩
  | snoc _ hs ih =>
    obtain ⟨t₁, hrun, hR⟩ := ih fun l hl => hP l (List.mem_append_left _ hl)
    obtain ⟨t₂, ht, hR'⟩ := hstep _ _ _ _ hR
      (hP _ (List.mem_append_right _ (List.mem_singleton_self _))) hs
    exact ⟨t₂, hrun.snoc ht, hR'⟩

end Transitions
