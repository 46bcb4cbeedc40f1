import Mathlib.Order.Basic
import Mathlib.Order.Defs.LinearOrder
import Mathlib.Data.List.Basic
import Mathlib.Order.Lattice

/-! Loops that look for a least value: one that keeps the value, one that keeps an entry, and one
that goes downwards and keeps both. -/
namespace Selection

variable {α β : Type*} [LinearOrder β] {c : α → Prop} [DecidablePred c] {f : α → β}

/-- The loop for the least value among the candidates `c`, and the value it starts from. -/
theorem foldl_least {r : β → α → β}
    (hround : ∀ m j, r m j = if c j ∧ f j < m then f j else m) (l : List α) (m : β) :
    l.foldl r m ≤ m ∧ (∀ j ∈ l, c j → l.foldl r m ≤ f j) ∧
      (l.foldl r m = m ∨ ∃ j ∈ l, c j ∧ l.foldl r m = f j) := by
  induction l generalizing m with
  | nil => simp
  | cons i l ih =>
    obtain ⟨hle, hleast, hattained⟩ := ih (r m i)
    rw [List.foldl_cons]
    have hi : r m i ≤ m ∧ (c i → r m i ≤ f i) ∧
        (r m i = m ∨ c i ∧ r m i = f i) := by
      rw [hround]
      split
      case isTrue h => exact ⟨h.2.le, fun _ => le_rfl, .inr ⟨h.1, rfl⟩⟩
      case isFalse h => exact ⟨le_rfl, fun hc => le_of_not_gt fun hlt => h ⟨hc, hlt⟩, .inl rfl⟩
    refine ⟨hle.trans hi.1, ?_, ?_⟩
    · intro j hj hc
      obtain rfl | hj := List.mem_cons.1 hj
      · exact hle.trans (hi.2.1 hc)
      · exact hleast j hj hc
    · obtain h | ⟨j, hj, hc, h⟩ := hattained
      · obtain h' | ⟨hc, h'⟩ := hi.2.2
        · exact .inl (h.trans h')
        · exact .inr ⟨i, List.mem_cons_self, hc, h.trans h'⟩
      · exact .inr ⟨j, List.mem_cons_of_mem _ hj, hc, h⟩

/-- The loop for an entry of least value among the candidates, and the entry it starts from. -/
theorem foldl_argmin {r : α → α → α}
    (hround : ∀ p j, r p j = if c j ∧ f j < f p then j else p) (l : List α) (p : α) :
    f (l.foldl r p) ≤ f p ∧ (∀ j ∈ l, c j → f (l.foldl r p) ≤ f j) ∧
      (l.foldl r p = p ∨ c (l.foldl r p)) := by
  induction l generalizing p with
  | nil => simp
  | cons i l ih =>
    obtain ⟨hle, hleast, hmem⟩ := ih (r p i)
    rw [List.foldl_cons]
    have hi : f (r p i) ≤ f p ∧ (c i → f (r p i) ≤ f i) ∧
        (r p i = p ∨ c (r p i)) := by
      rw [hround]
      split
      case isTrue h => exact ⟨h.2.le, fun _ => le_rfl, .inr h.1⟩
      case isFalse h => exact ⟨le_rfl, fun hc => le_of_not_gt fun hlt => h ⟨hc, hlt⟩, .inl rfl⟩
    refine ⟨hle.trans hi.1, ?_, ?_⟩
    · intro j hj hc
      obtain rfl | hj := List.mem_cons.1 hj
      · exact hle.trans (hi.2.1 hc)
      · exact hleast j hj hc
    · obtain h | h := hmem
      · rw [h]
        exact hi.2.2
      · exact .inr h

section Downwards
variable {β : Type*} (le : β → β → Prop) [DecidableRel le] (skip : ℕ → Prop) [DecidablePred skip]
  (score : ℕ → β)

/-- The loop over `n - 1, …, 0` that keeps the entry whose score is at least as good as the best
score so far, with `(best score, entry)` so far. -/
def scanDown : ℕ → β × ℕ → β × ℕ
  | 0, acc => acc
  | n + 1, acc =>
    scanDown n (if skip n then acc else if le acc.1 (score n) then (score n, n) else acc)

variable {le skip score}

theorem scanDown_picked (n : ℕ) (acc : β × ℕ) : scanDown le skip score n acc = acc ∨
    ∃ c < n, ¬skip c ∧ scanDown le skip score n acc = (score c, c) := by
  induction n generalizing acc with
  | zero => exact .inl rfl
  | succ n ih =>
    rw [scanDown]
    obtain h | ⟨c, hc, hskip, h⟩ :=
      ih (if skip n then acc else if le acc.1 (score n) then (score n, n) else acc)
    · rw [h]
      split_ifs with hskip hle
      · exact .inl rfl
      · exact .inr ⟨n, n.lt_succ_self, hskip, rfl⟩
      · exact .inl rfl
    · exact .inr ⟨c, Nat.lt_succ_of_lt hc, hskip, h⟩

/-- Once an entry is as good as the score the loop starts from, an entry is picked. -/
theorem scanDown_mem {n c : ℕ} {acc : β × ℕ} (hc : c < n) (hskip : ¬skip c)
    (hle : le acc.1 (score c)) : ∃ d < n, ¬skip d ∧
      scanDown le skip score n acc = (score d, d) := by
  induction n generalizing acc with
  | zero => exact absurd hc c.not_lt_zero
  | succ n ih =>
    rw [scanDown]
    obtain hlt | rfl := Nat.lt_succ_iff_lt_or_eq.1 hc
    · by_cases hbetter : ¬skip n ∧ le acc.1 (score n)
      · rw [if_neg hbetter.1, if_pos hbetter.2]
        obtain h | ⟨d, hd, hskip', h⟩ := @scanDown_picked _ le _ skip _ score n (score n, n)
        · exact ⟨n, n.lt_succ_self, hbetter.1, h⟩
        · exact ⟨d, Nat.lt_succ_of_lt hd, hskip', h⟩
      · have hkeep : (if skip n then acc else if le acc.1 (score n) then (score n, n) else acc) =
            acc := by
          split_ifs with h1 h2
          · rfl
          · exact absurd ⟨h1, h2⟩ hbetter
          · rfl
        rw [hkeep]
        obtain ⟨d, hd, h⟩ := ih hlt hle
        exact ⟨d, Nat.lt_succ_of_lt hd, h⟩
    · rw [if_neg hskip, if_pos hle]
      obtain h | ⟨d, hd, hskip', h⟩ := @scanDown_picked _ le _ skip _ score c (score c, c)
      · exact ⟨c, c.lt_succ_self, hskip, h⟩
      · exact ⟨d, Nat.lt_succ_of_lt hd, hskip', h⟩

variable (htrans : ∀ a b c, le a b → le b c → le a c) (htotal : ∀ a b, le a b ∨ le b a)
include htrans htotal

theorem scanDown_le (n : ℕ) (acc : β × ℕ) : le acc.1 (scanDown le skip score n acc).1 := by
  have hrefl : ∀ a, le a a := fun a => (htotal a a).elim id id
  induction n generalizing acc with
  | zero => exact hrefl _
  | succ n ih =>
    rw [scanDown]
    refine htrans _ _ _ ?_ (ih _)
    split_ifs with hskip hle
    · exact hrefl _
    · exact hle
    · exact hrefl _

/-- No entry examined has a better score than the one picked, and one with the same score does not
come before it. -/
theorem scanDown_best {n c : ℕ} (acc : β × ℕ) (hc : c < n) (hskip : ¬skip c) :
    le (score c) (scanDown le skip score n acc).1 ∧
      (le (scanDown le skip score n acc).1 (score c) →
        (scanDown le skip score n acc).2 ≤ c) := by
  induction n generalizing acc with
  | zero => exact absurd hc c.not_lt_zero
  | succ n ih =>
    rw [scanDown]
    obtain hlt | rfl := Nat.lt_succ_iff_lt_or_eq.1 hc
    · exact ih _ hlt
    · rw [if_neg hskip]
      split_ifs with hle
      · refine ⟨scanDown_le htrans htotal c (score c, c), fun _ => ?_⟩
        obtain h | ⟨d, hd, -, h⟩ := @scanDown_picked _ le _ skip _ score c (score c, c)
        · exact Nat.le_of_eq (congrArg Prod.snd h)
        · rw [h]
          exact Nat.le_of_lt hd
      · have hacc := @scanDown_le _ le _ skip _ score htrans htotal c acc
        exact ⟨htrans _ _ _ ((htotal _ _).resolve_left hle) hacc,
          fun h => absurd (htrans _ _ _ hacc h) hle⟩

theorem scanDown_first {n c : ℕ} {acc : β × ℕ} (hc : c < n) (hskip : ¬skip c)
    (hle : le acc.1 (score c)) (hties : ∀ d < n, ¬skip d → le (score d) (score c) ∧ c ≤ d) :
    (scanDown le skip score n acc).2 = c := by
  obtain ⟨d, hd, hskip', h⟩ := scanDown_mem hc hskip hle
  have hbest : le (scanDown le skip score n acc).1 (score c) →
      (scanDown le skip score n acc).2 ≤ c := (scanDown_best htrans htotal acc hc hskip).2
  rw [h] at hbest ⊢
  exact Nat.le_antisymm (hbest (hties d hd hskip').1) (hties d hd hskip').2

end Downwards

end Selection
