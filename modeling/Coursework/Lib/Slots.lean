import Mathlib.Data.List.Basic
import Mathlib.Logic.Function.Basic
import Mathlib.Data.Int.Notation

/-! The directory of a small cache: `N` slots, each holding a number or `-1` if it is free,
searched from the first one on. -/
namespace Slots

variable {N K o : ℕ} {f : ℕ → ℤ} {v w : ℤ}

/-- The first slot that holds `v`. -/
def find (N : ℕ) (f : ℕ → ℤ) (v : ℤ) : Option ℕ := (List.range N).find? fun o => f o = v

theorem find_some (h : find N f v = some o) : o < N ∧ f o = v := by
  unfold find at h
  have h1 := List.mem_of_find?_eq_some h
  have h2 := List.find?_some h
  exact ⟨List.mem_range.mp h1, by simpa using h2⟩

theorem find_eq_none : find N f v = none ↔ ∀ o < N, f o ≠ v := by
  simp [find]

theorem find_first (ho : o < N) (hv : f o = v) (hfirst : ∀ o' < o, f o' ≠ v) :
    find N f v = some o := by
  unfold find
  rw [List.find?_range_eq_some]
  exact ⟨by simpa using hv, List.mem_range.mpr ho, fun o' ho' => by simpa using hfirst o' ho'⟩

theorem find_update (hold : f o ≠ v) (hnew : w ≠ v) :
    find N (Function.update f o w) v = find N f v := by
  unfold find
  congr 1
  funext o'
  by_cases he : o' = o
  · subst he
    simp [hold, hnew]
  · rw [Function.update_of_ne he]

/-- The slots in use hold different numbers below `K`. -/
structure Distinct (N K : ℕ) (f : ℕ → ℤ) : Prop where
  range : ∀ o < N, f o = -1 ∨ ∃ v < K, f o = (v : ℕ)
  inj : ∀ o < N, ∀ o' < N, f o ≠ -1 → f o = f o' → o = o'

theorem distinct_free (N K : ℕ) : Distinct N K fun _ => -1 :=
  ⟨fun _ _ => .inl rfl, fun _ _ _ _ h => absurd rfl h⟩

namespace Distinct

theorem find_eq (h : Distinct N K f) (ho : o < N) (hv : f o = v) (hne : v ≠ -1) :
    find N f v = some o := by
  cases hs : find N f v with
  | none => exact absurd hv (find_eq_none.mp hs o ho)
  | some o' =>
    obtain ⟨ho', hv'⟩ := find_some hs
    rw [h.inj o ho o' ho' (by omega) (hv.trans hv'.symm)]

theorem in_use (h : Distinct N K f) (ho : o < N) (hne : f o ≠ -1) : ∃ v < K, f o = (v : ℕ) :=
  (h.range o ho).resolve_left hne

/-- Freeing a slot. -/
theorem clear (h : Distinct N K f) (o : ℕ) : Distinct N K (Function.update f o (-1)) := by
  have hne : ∀ o' : ℕ, Function.update f o (-1) o' ≠ -1 → Function.update f o (-1) o' = f o' := by
    intro o' hv
    refine Function.update_of_ne ?_ _ _
    rintro rfl
    rw [Function.update_self] at hv
    exact hv rfl
  constructor
  · intro o' ho'
    by_cases hv : Function.update f o (-1) o' = -1
    · exact .inl hv
    · rw [hne o' hv]
      exact h.range o' ho'
  · intro o₁ h1 o₂ h2 hv he
    have hv₂ : Function.update f o (-1) o₂ ≠ -1 := he ▸ hv
    rw [hne o₁ hv, hne o₂ hv₂] at he
    rw [hne o₁ hv] at hv
    exact h.inj o₁ h1 o₂ h2 hv he

theorem find_clear (h : Distinct N K f) (ho : o < N) (hv : f o = v) (hne : v ≠ -1) :
    find N (Function.update f o (-1)) v = none := by
  rw [find_eq_none]
  intro o' ho' he
  by_cases hoo : o' = o
  · rw [hoo, Function.update_self] at he
    exact hne he.symm
  · rw [Function.update_of_ne hoo] at he
    exact hoo (h.inj o' ho' o ho (by omega) (he.trans hv.symm))

/-- Taking a slot for a number no slot holds. -/
theorem use (h : Distinct N K f) {v : ℕ} (hv : v < K) (hnone : find N f v = none) (o : ℕ) :
    Distinct N K (Function.update f o (v : ℤ)) := by
  have hnew : ∀ o' < N, o' ≠ o → Function.update f o (v : ℤ) o' ≠ v := by
    intro o' ho' he
    rw [Function.update_of_ne he]
    exact find_eq_none.mp hnone o' ho'
  have hself : Function.update f o (v : ℤ) o = v := Function.update_self _ _ _
  constructor
  · intro o' ho'
    by_cases he : o' = o
    · exact .inr ⟨v, hv, by rw [he, hself]⟩
    · rw [Function.update_of_ne he]
      exact h.range o' ho'
  · intro o₁ h1 o₂ h2 hne he
    by_cases e1 : o₁ = o
    · by_contra e2
      exact hnew o₂ h2 (by omega) (by rw [← he, e1, hself])
    · by_cases e2 : o₂ = o
      · exact absurd (by rw [he, e2, hself]) (hnew o₁ h1 e1)
      · rw [Function.update_of_ne e1, Function.update_of_ne e2] at he
        rw [Function.update_of_ne e1] at hne
        exact h.inj o₁ h1 o₂ h2 hne he

end Distinct

end Slots
