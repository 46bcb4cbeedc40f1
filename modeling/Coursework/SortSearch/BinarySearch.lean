import Coursework.SortSearch.Sorted

/-! Binary search with indices of type `int`. -/
namespace SortSearch
open CInt

/-- The loop of `binary_search`, for `n` rounds at most; without a result where the sum of the
indices overflows. -/
def binarySearchFrom (point : ℤ → ℤ) (target : ℤ) : ℕ → ℤ → ℤ → Option ℤ
  | 0, _, _ => none
  | n + 1, start, fin =>
    if start ≤ fin then
      (checked (start + fin)).bind fun sum =>
        let mid := sum.tdiv 2
        if point mid = target then some mid
        else if point mid < target then binarySearchFrom point target n (mid + 1) fin
        else binarySearchFrom point target n start (mid - 1)
    else some (-1)

def binarySearch (n : ℕ) (point : ℤ → ℤ) (size target : ℤ) : Option ℤ :=
  binarySearchFrom point target n 0 (size - 1)

/-- `binary_search` returns an index of the target, or -1 if it is not there. -/
def Finds (point : ℤ → ℤ) (size target : ℤ) : Prop :=
  ∃ n i, binarySearch n point size target = some i ∧
    (0 ≤ i ∧ i < size ∧ point i = target ∨
      i = -1 ∧ ∀ k, 0 ≤ k → k < size → point k ≠ target)

/-- The intervals that are halved on the way to the target. -/
inductive Narrowed (point : ℤ → ℤ) (size target : ℤ) : ℤ → ℤ → Prop
  | whole : Narrowed point size target 0 (size - 1)
  | right {start fin} : Narrowed point size target start fin → start ≤ fin →
      point ((start + fin) / 2) < target →
      Narrowed point size target ((start + fin) / 2 + 1) fin
  | left {start fin} : Narrowed point size target start fin → start ≤ fin →
      target < point ((start + fin) / 2) →
      Narrowed point size target start ((start + fin) / 2 - 1)

/-- No sum of two indices on the way overflows. -/
def Searchable (point : ℤ → ℤ) (size target : ℤ) : Prop :=
  ∀ start fin, Narrowed point size target start fin → start ≤ fin → start + fin < 2 ^ 31

section
variable {point : ℤ → ℤ} {size target start fin : ℤ}

/-- The elements that have been left out. -/
structure Narrow (point : ℤ → ℤ) (size target start fin : ℤ) : Prop where
  start_nonneg : 0 ≤ start
  fin_lt : fin < size
  below : ∀ k, 0 ≤ k → k < start → point k ≠ target
  above : ∀ k, fin < k → k < size → point k ≠ target

theorem tdiv_two {x : ℤ} (h : 0 ≤ x) : x.tdiv 2 = x / 2 := Int.tdiv_eq_ediv_of_nonneg h

theorem Narrowed.narrow (hsorted : ∀ i j, 0 ≤ i → i ≤ j → j < size → point i ≤ point j)
    (h : Narrowed point size target start fin) : Narrow point size target start fin := by
  induction h with
  | whole => exact ⟨le_rfl, by omega, fun k _ _ => by omega, fun k _ _ => by omega⟩
  | @right start fin _ hle hlt ih =>
    obtain ⟨hstart, hfin, hbelow, habove⟩ := ih
    refine ⟨by omega, hfin, fun k hk hk' => ?_, habove⟩
    have hord := hsorted k ((start + fin) / 2) hk (by omega) (by omega)
    omega
  | @left start fin _ hle hlt ih =>
    obtain ⟨hstart, hfin, hbelow, habove⟩ := ih
    refine ⟨hstart, by omega, hbelow, fun k hk hk' => ?_⟩
    have hord := hsorted ((start + fin) / 2) k (by omega) (by omega) hk'
    omega

theorem binarySearchFrom_step (h : 0 ≤ start) (hle : start ≤ fin) (hsum : start + fin < 2 ^ 31)
    (n : ℕ) : binarySearchFrom point target (n + 1) start fin =
      if point ((start + fin) / 2) = target then some ((start + fin) / 2)
      else if point ((start + fin) / 2) < target then
        binarySearchFrom point target n ((start + fin) / 2 + 1) fin
      else binarySearchFrom point target n start ((start + fin) / 2 - 1) := by
  have hcheck : checked (start + fin) = some (start + fin) := if_pos ⟨by omega, hsum⟩
  rw [binarySearchFrom, if_pos hle, hcheck, Option.bind_some, tdiv_two (by omega)]

/-- The search ends with the right answer where nothing overflows. -/
theorem Narrowed.finds (hsorted : ∀ i j, 0 ≤ i → i ≤ j → j < size → point i ≤ point j)
    (hsearch : Searchable point size target) (h : Narrowed point size target start fin) {n : ℕ}
    (hn : fin - start + 1 < n) (hpos : 0 < n) :
    ∃ i, binarySearchFrom point target n start fin = some i ∧
      (0 ≤ i ∧ i < size ∧ point i = target ∨
        i = -1 ∧ ∀ k, 0 ≤ k → k < size → point k ≠ target) := by
  induction n generalizing start fin with
  | zero => cases hpos
  | succ n ih =>
    obtain ⟨hstart, hfin, hbelow, habove⟩ := h.narrow hsorted
    by_cases hle : start ≤ fin
    · rw [binarySearchFrom_step hstart hle (hsearch _ _ h hle)]
      by_cases heq : point ((start + fin) / 2) = target
      · rw [if_pos heq]
        exact ⟨_, rfl, .inl ⟨by omega, by omega, heq⟩⟩
      rw [if_neg heq]
      by_cases hlt : point ((start + fin) / 2) < target
      · rw [if_pos hlt]
        exact ih (h.right hle hlt) (by omega) (by omega)
      · rw [if_neg hlt]
        exact ih (h.left hle (by omega)) (by omega) (by omega)
    · rw [binarySearchFrom, if_neg hle]
      refine ⟨-1, rfl, .inr ⟨rfl, fun k hk hk' => ?_⟩⟩
      by_cases hks : k < start
      · exact hbelow k hk hks
      · exact habove k (by omega) hk'

theorem sum_lt_of_some {m : ℕ} {i : ℤ} (hle : start ≤ fin)
    (hrun : binarySearchFrom point target m start fin = some i) :
    start + fin < 2 ^ 31 ∧ ∃ n, m = n + 1 := by
  cases m with
  | zero => cases hrun
  | succ n =>
    refine ⟨?_, n, rfl⟩
    rw [binarySearchFrom, if_pos hle] at hrun
    obtain ⟨sum, hsum, -⟩ := Option.bind_eq_some_iff.1 hrun
    by_contra hge
    have hrange : ¬InRange (start + fin) := fun h => hge h.2
    rw [checked, if_neg hrange] at hsum
    cases hsum

theorem Narrowed.passes (hsorted : ∀ i j, 0 ≤ i → i ≤ j → j < size → point i ≤ point j)
    (h : Narrowed point size target start fin) {n : ℕ} {i : ℤ}
    (hrun : binarySearch n point size target = some i) :
    ∃ m, binarySearchFrom point target m start fin = some i := by
  induction h with
  | whole => exact ⟨n, hrun⟩
  | @right start fin h hle hlt ih =>
    obtain ⟨m, hm⟩ := ih
    obtain ⟨hsum, m, rfl⟩ := sum_lt_of_some hle hm
    rw [binarySearchFrom_step (h.narrow hsorted).start_nonneg hle hsum, if_neg (by omega),
      if_pos hlt] at hm
    exact ⟨m, hm⟩
  | @left start fin h hle hlt ih =>
    obtain ⟨m, hm⟩ := ih
    obtain ⟨hsum, m, rfl⟩ := sum_lt_of_some hle hm
    rw [binarySearchFrom_step (h.narrow hsorted).start_nonneg hle hsum, if_neg (by omega),
      if_neg (by omega)] at hm
    exact ⟨m, hm⟩

theorem finds_iff (hsorted : ∀ i j, 0 ≤ i → i ≤ j → j < size → point i ≤ point j) :
    Finds point size target ↔ Searchable point size target := by
  constructor
  · rintro ⟨n, i, hrun, -⟩ start fin h hle
    obtain ⟨m, hm⟩ := h.passes hsorted hrun
    exact (sum_lt_of_some hle hm).1
  · intro hsearch
    obtain ⟨i, hrun, hi⟩ := Narrowed.whole.finds hsorted hsearch (n := size.toNat + 1)
      (by omega) (Nat.succ_pos _)
    exact ⟨_, i, hrun, hi⟩

theorem searchable_of_le (hsorted : ∀ i j, 0 ≤ i → i ≤ j → j < size → point i ≤ point j)
    (hsize : size ≤ 2 ^ 30) : Searchable point size target := by
  intro start fin h hle
  have hfin := (h.narrow hsorted).fin_lt
  omega

end

/-- An array is sorted, and a sorted array is searched, where no element is changed by a temporary
and no sum of indices overflows. -/
theorem sort_search_iff {arr point : ℤ → ℤ} {low high size target : ℤ} (hlow : 0 ≤ low)
    (hle : low ≤ high) (hhigh : high + 1 < 2 ^ 31)
    (hsorted : ∀ i j, 0 ≤ i → i ≤ j → j < size → point i ≤ point j) :
    SortsRange arr low high ∧ Finds point size target ↔
      Sortable (segment arr low high) ∧ Searchable point size target :=
  and_congr (sortsRange_iff hlow hle hhigh) (finds_iff hsorted)

/-- Three elements, the least of them too small for an `int` but never in a temporary. -/
theorem sort_search_three :
    SortsRange (fun k => if k = 0 then 5 else if k = 1 then -2 ^ 32 else 3) 0 2 ∧
      Finds (fun k => k) 3 2 := by
  refine (sort_search_iff le_rfl (by decide) (by decide) fun i j _ h _ => h).2 ⟨?_, ?_⟩
  · refine .inr ⟨by decide, ?_⟩
    have hseg : segment (fun k => if k = 0 then 5 else if k = 1 then -2 ^ 32 else 3) 0 2 =
        [5, -2 ^ 32] ++ [3] := by decide
    rw [hseg]
    exact .step (List.cons_ne_nil _ _) (by decide) (.inl (by decide)) (.short (by decide))
  · exact searchable_of_le (fun i j _ h _ => h) (by decide)

/-- Two elements of which one does not fit into an `int`: 2^31 comes back as -2^31. -/
theorem not_sortsRange_large : ¬SortsRange (fun k => if k = 0 then 2 ^ 31 else 1) 0 1 := by
  intro h
  have hsort := (sortsRange_iff le_rfl (by decide) (by decide)).1 h
  obtain hshort | ⟨hlt, -⟩ := hsort
  · exact absurd hshort (by decide)
  · exact absurd (hlt (2 ^ 31) (by decide)) (by decide)

end SortSearch
