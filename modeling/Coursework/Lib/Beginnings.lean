import Mathlib.Data.List.Basic

/-! Lists that begin with another list up to a relation, and what is left of this when some of the
elements are skipped. -/
namespace Beginnings

variable {α β : Type*} {R : α → β → Prop} {p : α → Bool} {q : β → Bool}

/-- The first elements of a list are related to those of another list, one by one. -/
def Begins (R : α → β → Prop) : List α → List β → Prop
  | _, [] => True
  | [], _ :: _ => False
  | x :: l, y :: l' => R x y ∧ Begins R l l'

theorem begins_nil (l : List α) : Begins R l [] := by
  cases l <;> exact trivial

theorem begins_cons {x : α} {y : β} {l : List α} {l' : List β} :
    Begins R (x :: l) (y :: l') ↔ R x y ∧ Begins R l l' := Iff.rfl

theorem begins_iff_getElem? {l : List α} {l' : List β} :
    Begins R l l' ↔ ∀ (j : ℕ) y, l'[j]? = some y → ∃ x, l[j]? = some x ∧ R x y := by
  induction l' generalizing l with
  | nil => simp [begins_nil]
  | cons y l' ih =>
    cases l with
    | nil =>
      refine ⟨False.elim, fun h => ?_⟩
      obtain ⟨x, hx, -⟩ := h 0 y rfl
      cases hx
    | cons x l =>
      rw [begins_cons, ih]
      constructor
      · rintro ⟨hxy, h⟩ j y' hj
        cases j with
        | zero =>
          cases hj
          exact ⟨x, rfl, hxy⟩
        | succ j => exact h j y' hj
      · intro h
        refine ⟨?_, fun j y' hj => h (j + 1) y' hj⟩
        obtain ⟨x', hx', hR⟩ := h 0 y rfl
        cases hx'
        exact hR

theorem begins_drop_iff {l : List α} {l' : List β} {a : ℕ} :
    Begins R (l.drop a) l' ↔ ∀ (j : ℕ) y, l'[j]? = some y → ∃ x, l[a + j]? = some x ∧ R x y := by
  rw [begins_iff_getElem?]
  simp only [List.getElem?_drop]

theorem Begins.length_le {l : List α} {l' : List β} (h : Begins R l l') : l'.length ≤ l.length := by
  induction l' generalizing l with
  | nil => exact Nat.zero_le _
  | cons y l' ih =>
    cases l with
    | nil => exact h.elim
    | cons x l => exact Nat.succ_le_succ (ih h.2)

/-- One list begins with another if and only if what is kept of it does so and the two lists skip
the same places. -/
theorem begins_iff_filter (hR : ∀ x y, R x y → p x = q y)
    (hskip : ∀ x y, p x = false → q y = false → R x y) {l : List α} {l' : List β} :
    Begins R l l' ↔ Begins R (l.filter p) (l'.filter q) ∧ Begins (fun x y => p x = q y) l l' := by
  induction l' generalizing l with
  | nil => simp [begins_nil]
  | cons y l' ih =>
    cases l with
    | nil => exact ⟨False.elim, fun h => h.2.elim⟩
    | cons x l =>
      rw [begins_cons, begins_cons, ih, List.filter_cons, List.filter_cons]
      by_cases hxy : p x = q y
      · cases hy : q y with
        | true =>
          rw [if_pos (hxy.trans hy), if_pos rfl, begins_cons, hxy, hy]
          tauto
        | false =>
          have hx := hxy.trans hy
          rw [hx, if_neg Bool.false_ne_true, if_neg Bool.false_ne_true]
          exact ⟨fun h => ⟨h.2.1, rfl, h.2.2⟩, fun h => ⟨hskip x y hx hy, h.1, h.2.2⟩⟩
      · exact ⟨fun h => absurd (hR x y h.1) hxy, fun h => absurd h.2.1 hxy⟩

theorem filter_drop (p : α → Bool) (l : List α) (a : ℕ) :
    (l.drop a).filter p = (l.filter p).drop ((l.take a).filter p).length := by
  conv_rhs => rw [← List.take_append_drop a l, List.filter_append]
  rw [List.take_append_drop, List.drop_left]

theorem exists_drop_of_filter {l : List α} {i : ℕ} {x : α} (h : (l.filter p)[i]? = some x) :
    ∃ a, l[a]? = some x ∧ (l.drop a).filter p = (l.filter p).drop i := by
  induction l generalizing i with
  | nil => cases h
  | cons y l ih =>
    rw [List.filter_cons] at h ⊢
    by_cases hy : p y = true
    · rw [if_pos hy] at h ⊢
      cases i with
      | zero =>
        cases h
        exact ⟨0, rfl, by rw [List.drop_zero, List.filter_cons, if_pos hy, List.drop_zero]⟩
      | succ i =>
        obtain ⟨a, ha, hdrop⟩ := ih h
        exact ⟨a + 1, ha, hdrop⟩
    · rw [if_neg hy] at h ⊢
      obtain ⟨a, ha, hdrop⟩ := ih h
      exact ⟨a + 1, ha, hdrop⟩

end Beginnings
