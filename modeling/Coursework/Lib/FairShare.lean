import Mathlib.Algebra.Order.Group.Int
import Mathlib.Algebra.Order.Group.Abs
import Mathlib.Data.Set.Basic

/-! Fair sharing: the service received by the members of a group stays in a window of fixed
width if the member that is served next is always one with the least service. -/
namespace FairShare

variable {ι : Type*} {S : Set ι} {v v' budget budget' : ι → ℤ} {B : ℤ}

/-- The services `v` lie in a window of width `B`, also after everyone has used what is
left of its budget. -/
def Balanced (S : Set ι) (v budget : ι → ℤ) (B : ℤ) : Prop :=
  ∃ lo, ∀ i ∈ S, lo ≤ v i ∧ 0 ≤ budget i ∧ v i + budget i ≤ lo + B

theorem Balanced.start {c : ℤ} (hv : ∀ i ∈ S, v i = c)
    (hbudget : ∀ i ∈ S, 0 ≤ budget i ∧ budget i ≤ B) : Balanced S v budget B := by
  refine ⟨c, fun i hi => ?_⟩
  have := hv i hi
  have := hbudget i hi
  omega

theorem Balanced.spend (h : Balanced S v budget B) (hv : ∀ i ∈ S, v i ≤ v' i)
    (hbudget : ∀ i ∈ S, 0 ≤ budget' i)
    (hpaid : ∀ i ∈ S, v' i + budget' i ≤ v i + budget i) : Balanced S v' budget' B := by
  obtain ⟨lo, hlo⟩ := h
  refine ⟨lo, fun i hi => ?_⟩
  have := hlo i hi
  have := hv i hi
  have := hbudget i hi
  have := hpaid i hi
  omega

theorem Balanced.serve (h : Balanced S v budget B) {i : ι}
    (hleast : ∀ j ∈ S, v i ≤ v j) (hi : 0 ≤ budget' i ∧ budget' i ≤ B)
    (hrest : ∀ j ∈ S, j ≠ i → budget' j = 0) : Balanced S v budget' B := by
  obtain ⟨lo, hlo⟩ := h
  by_cases hmem : i ∈ S
  · refine ⟨v i, fun j hj => ?_⟩
    have := hlo i hmem
    have := hlo j hj
    have := hleast j hj
    obtain rfl | hne := eq_or_ne j i
    · omega
    · have := hrest j hj hne
      omega
  · refine ⟨lo, fun j hj => ?_⟩
    have := hlo j hj
    have := hrest j hj fun he => hmem (he ▸ hj)
    omega

theorem Balanced.spread (h : Balanced S v budget B) {i j : ι} (hi : i ∈ S) (hj : j ∈ S) :
    |v i - v j| ≤ B := by
  obtain ⟨lo, hlo⟩ := h
  have := hlo i hi
  have := hlo j hj
  rw [abs_le]
  omega

end FairShare
