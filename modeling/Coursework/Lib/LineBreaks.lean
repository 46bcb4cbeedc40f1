import Mathlib.Data.List.Basic
import Mathlib.Data.Nat.Notation

/-! Lists cut into lines: a line ends with its line break or with the list, and a line break at
the end starts no other line. -/
namespace LineBreaks

variable {α : Type*} [DecidableEq α] {nl : α}

/-- The lines of a list, each with its line break. -/
def lines (nl : α) : List α → List (List α)
  | [] => []
  | c :: s =>
    if c = nl then [c] :: lines nl s
    else
      match lines nl s with
      | [] => [[c]]
      | w :: ws => (c :: w) :: ws

@[simp] theorem lines_nil : lines nl ([] : List α) = [] := rfl

@[simp] theorem lines_break (s : List α) : lines nl (nl :: s) = [nl] :: lines nl s := if_pos rfl

theorem lines_eq_nil {s : List α} : lines nl s = [] ↔ s = [] := by
  cases s with
  | nil => simp
  | cons c s =>
    by_cases hc : c = nl
    · subst hc
      simp
    · rw [lines, if_neg hc]
      cases lines nl s with
      | nil => simp
      | cons w ws => simp

theorem lines_cons {c : α} (hc : c ≠ nl) (s : List α) :
    (s = [] ∧ lines nl (c :: s) = [[c]]) ∨
      ∃ w ws, lines nl s = w :: ws ∧ lines nl (c :: s) = (c :: w) :: ws := by
  rw [lines, if_neg hc]
  cases h : lines nl s with
  | nil => exact .inl ⟨lines_eq_nil.1 h, rfl⟩
  | cons w ws => exact .inr ⟨w, ws, rfl, rfl⟩

theorem ne_nil_of_mem {s w : List α} (h : w ∈ lines nl s) : w ≠ [] := by
  induction s generalizing w with
  | nil => simp at h
  | cons c s ih =>
    by_cases hc : c = nl
    · subst hc
      rw [lines_break] at h
      obtain rfl | h := List.mem_cons.1 h
      · simp
      · exact ih h
    · obtain ⟨-, he⟩ | ⟨v, ws, hs, he⟩ := lines_cons hc s
      · rw [he] at h
        simp [List.mem_singleton.1 h]
      · rw [he] at h
        obtain rfl | h := List.mem_cons.1 h
        · simp
        · exact ih (hs ▸ List.mem_cons_of_mem _ h)

@[simp] theorem flatten_lines (s : List α) : (lines nl s).flatten = s := by
  induction s with
  | nil => rfl
  | cons c s ih =>
    by_cases hc : c = nl
    · subst hc
      simp [ih]
    · obtain ⟨rfl, he⟩ | ⟨w, ws, hs, he⟩ := lines_cons hc s
      · simp [he]
      · rw [hs] at ih
        rw [he, ← ih]
        simp

theorem flatten_take_cons (c : α) (s : List α) (n : ℕ) :
    ((lines nl (c :: s)).take (n + 1)).flatten =
      c :: ((lines nl s).take (if c = nl then n else n + 1)).flatten := by
  by_cases hc : c = nl
  · subst hc
    simp
  · rw [if_neg hc]
    obtain ⟨rfl, he⟩ | ⟨w, ws, hs, he⟩ := lines_cons hc s
    · simp [he]
    · simp [he, hs]

theorem flatten_drop_cons (c : α) (s : List α) (n : ℕ) :
    ((lines nl (c :: s)).drop (n + 1)).flatten =
      ((lines nl s).drop (if c = nl then n else n + 1)).flatten := by
  by_cases hc : c = nl
  · subst hc
    simp
  · rw [if_neg hc]
    obtain ⟨rfl, he⟩ | ⟨w, ws, hs, he⟩ := lines_cons hc s
    · simp [he]
    · simp [he, hs]

theorem length_lines_cons (c : α) {s : List α} (hs : s ≠ []) :
    (lines nl (c :: s)).length = (lines nl s).length + if c = nl then 1 else 0 := by
  by_cases hc : c = nl
  · subst hc
    simp
  · rw [if_neg hc]
    obtain ⟨rfl, -⟩ | ⟨w, ws, hs', he⟩ := lines_cons hc s
    · exact absurd rfl hs
    · simp [he, hs']

theorem length_lines_singleton (c : α) : (lines nl [c]).length = 1 := by
  by_cases hc : c = nl
  · subst hc
    simp
  · obtain ⟨-, he⟩ | ⟨w, ws, hs, -⟩ := lines_cons hc []
    · simp [he]
    · simp at hs

/-- Every line break ends a line, and the end of the list ends one if no line break does. -/
theorem length_lines (s : List α) : (lines nl s).length =
    s.count nl + if s = [] ∨ s.getLast? = some nl then 0 else 1 := by
  induction s with
  | nil => rfl
  | cons c s ih =>
    by_cases hs : s = []
    · subst hs
      rw [length_lines_singleton]
      by_cases hc : c = nl
      · simp [hc]
      · simp [hc]
    · have hlast : (c :: s).getLast? = s.getLast? := by
        cases s with
        | nil => exact absurd rfl hs
        | cons d s => rfl
      rw [length_lines_cons c hs, ih, hlast]
      by_cases hc : c = nl
      · simp [hc, hs]
        omega
      · simp [hc, hs]

theorem flatten_drop_ne {s : List α} {n : ℕ} (h : n < (lines nl s).length) :
    ((lines nl s).drop (n + 1)).flatten ≠ ((lines nl s).drop n).flatten := by
  intro he
  have hne := ne_nil_of_mem (List.getElem_mem h)
  rw [List.drop_eq_getElem_cons h, List.flatten_cons] at he
  have hlen := congrArg List.length he
  rw [List.length_append] at hlen
  have hpos := List.length_pos_iff.2 hne
  omega

end LineBreaks
