import Mathlib.Logic.Function.Basic
import Mathlib.Logic.Relation

/-! Programs over shared cells. Each read and each write is one step; what a program can
tell apart of a cell is its view, and what it may do to a cell is its guarantee. -/
namespace Shared

/-- A program over cells `κ` with values `ν` that ends with a reply. -/
inductive Prog (κ ν ρ : Type*) where
  | done (r : ρ)
  | read (x : κ) (k : ν → Prog κ ν ρ)
  | write (x : κ) (v : ν) (p : Prog κ ν ρ)

variable {κ ν ρ : Type*} [DecidableEq κ]

namespace Prog

/-- The final cells and the reply of a program that runs alone. -/
def eval : Prog κ ν ρ → (κ → ν) → (κ → ν) × ρ
  | done r, σ => (σ, r)
  | read x k, σ => (k (σ x)).eval σ
  | write x v p, σ => p.eval (Function.update σ x v)

@[simp] theorem eval_done (r : ρ) (σ : κ → ν) : (done r).eval σ = (σ, r) := rfl

@[simp] theorem eval_read (x : κ) (k : ν → Prog κ ν ρ) (σ : κ → ν) :
    (read x k).eval σ = (k (σ x)).eval σ := rfl

@[simp] theorem eval_write (x : κ) (v : ν) (p : Prog κ ν ρ) (σ : κ → ν) :
    (write x v p).eval σ = p.eval (Function.update σ x v) := rfl

/-- The program writes only cells that it owns, and a read tells it only its view. -/
def Within (own : κ → Prop) (view : κ → ν → ν → Prop) : Prog κ ν ρ → Prop
  | done _ => True
  | read x k => (∀ a b, view x a b → k a = k b) ∧ ∀ a, (k a).Within own view
  | write x _ p => own x ∧ p.Within own view

/-- From these cells, every write of the program is allowed by its guarantee. -/
def Polite (guar : κ → ν → ν → Prop) : Prog κ ν ρ → (κ → ν) → Prop
  | done _, _ => True
  | read x k, σ => (k (σ x)).Polite guar σ
  | write x v p, σ => guar x (σ x) v ∧ p.Polite guar (Function.update σ x v)

/-- The program writes nothing. -/
def ReadOnly : Prog κ ν ρ → Prop
  | done _ => True
  | read _ k => ∀ a, (k a).ReadOnly
  | write _ _ _ => False

/-- Every reply that the program can end with meets `P`. -/
def Ends (P : ρ → Prop) : Prog κ ν ρ → Prop
  | done r => P r
  | read _ k => ∀ a, (k a).Ends P
  | write _ _ p => p.Ends P

/-- Every access of the program is to a cell that meets `ok`, whatever values its reads return
that `sees` admits. -/
def Confined (sees : κ → ν → Prop) (ok : κ → Prop) : Prog κ ν ρ → Prop
  | done _ => True
  | read x k => ok x ∧ ∀ v, sees x v → (k v).Confined sees ok
  | write x _ p => ok x ∧ p.Confined sees ok

section Views
variable {own : κ → Prop} {view guar : κ → ν → ν → Prop}

theorem eval_of_not_own {p : Prog κ ν ρ} (hp : p.Within own view) {x : κ} (hx : ¬own x)
    (σ : κ → ν) : (p.eval σ).1 x = σ x := by
  induction p generalizing σ with
  | done r => rfl
  | read y k ih => exact ih (σ y) (hp.2 _) σ
  | write y v p ih =>
    have hne : x ≠ y := by
      rintro rfl
      exact hx hp.1
    rw [eval_write, ih hp.2, Function.update_of_ne hne]

variable {σ σ' : κ → ν} (hrefl : ∀ x a, view x a a)
include hrefl

theorem view_update (h : ∀ x, view x (σ x) (σ' x)) (y : κ) (v : ν) (x : κ) :
    view x (Function.update σ y v x) (Function.update σ' y v x) := by
  obtain rfl | hne := eq_or_ne x y
  · simpa using hrefl x v
  · simpa [hne] using h x

theorem eval_congr {p : Prog κ ν ρ} (hp : p.Within own view) (h : ∀ x, view x (σ x) (σ' x))
    (hown : ∀ x, own x → σ x = σ' x) :
    (p.eval σ).2 = (p.eval σ').2 ∧ ∀ x, own x → (p.eval σ).1 x = (p.eval σ').1 x := by
  induction p generalizing σ σ' with
  | done r => exact ⟨rfl, hown⟩
  | read y k ih =>
    rw [eval_read, eval_read, ← hp.1 _ _ (h y)]
    exact ih (σ y) (hp.2 _) h hown
  | write y v p ih =>
    apply ih hp.2 (view_update hrefl h y v)
    intro x hx
    obtain rfl | hne := eq_or_ne x y
    · simp
    · simpa [hne] using hown x hx

theorem Polite.congr {p : Prog κ ν ρ} (hp : p.Within own view) (h : ∀ x, view x (σ x) (σ' x))
    (hown : ∀ x, own x → σ x = σ' x) (hpol : p.Polite guar σ) : p.Polite guar σ' := by
  induction p generalizing σ σ' with
  | done r => trivial
  | read y k ih =>
    rw [Polite, ← hp.1 _ _ (h y)]
    exact ih (σ y) (hp.2 _) h hown hpol
  | write y v p ih =>
    rw [Polite, ← hown y hp.1]
    refine ⟨hpol.1, ih hp.2 (view_update hrefl h y v) ?_ hpol.2⟩
    intro x hx
    obtain rfl | hne := eq_or_ne x y
    · simp
    · simpa [hne] using hown x hx

omit hrefl in
theorem Polite.chain {p : Prog κ ν ρ} (hpol : p.Polite guar σ) (x : κ) :
    Relation.ReflTransGen (guar x) (σ x) ((p.eval σ).1 x) := by
  induction p generalizing σ with
  | done r => exact .refl
  | read y k ih => exact ih (σ y) hpol
  | write y v p ih =>
    have htail := ih hpol.2
    obtain rfl | hne := eq_or_ne x y
    · rw [Function.update_self] at htail
      exact .head hpol.1 htail
    · rw [Function.update_of_ne hne] at htail
      exact htail

end Views

end Prog

end Shared
