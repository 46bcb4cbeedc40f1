import Coursework.Lib.CInt
import Coursework.Lib.Lomuto
import Mathlib.Data.Int.Order.Basic
import Mathlib.Logic.Function.Basic

/-! Sorting of an array of `long long`, with temporaries of type `int`. An array is a function of
the index, with what lies in front of it and behind it. -/
namespace SortSearch
open CInt Lomuto

/-- A `long long` in an `int`. -/
def toInt (x : ℤ) : ℤ := x.bmod (2 ^ 32)

def swap (array : ℤ → ℤ) (a b : ℤ) : ℤ → ℤ :=
  let t := toInt (array a)
  let array := Function.update array a (array b)
  Function.update array b t

/-- The loop of `partition`, with `n` rounds to go. -/
def partitionFrom (pivot : ℤ) : ℕ → ℤ → ℤ → (ℤ → ℤ) → ℤ × (ℤ → ℤ)
  | 0, _, i, arr => (i, arr)
  | n + 1, j, i, arr =>
    if arr j ≤ pivot then partitionFrom pivot n (j + 1) (i + 1) (swap arr (i + 1) j)
    else partitionFrom pivot n (j + 1) i arr

def partition (arr : ℤ → ℤ) (low high : ℤ) : ℤ × (ℤ → ℤ) :=
  let pivot := toInt (arr high)
  let (i, arr) := partitionFrom pivot (high - low).toNat low (low - 1) arr
  (i + 1, swap arr (i + 1) high)

/-- `quick_sort`, with calls nested at most `n` deep. -/
def quickSort : ℕ → (ℤ → ℤ) → ℤ → ℤ → Option (ℤ → ℤ)
  | 0, _, _, _ => none
  | n + 1, arr, low, high =>
    if low < high then
      let (pi, arr) := partition arr low high
      (quickSort n arr low (pi - 1)).bind fun arr =>
        (checked (pi + 1)).bind fun next => quickSort n arr next high
    else some arr

/-- `n` elements. -/
def slice (arr : ℤ → ℤ) (k : ℤ) : ℕ → List ℤ
  | 0 => []
  | n + 1 => arr k :: slice arr (k + 1) n

/-- The elements from `low` to `high`. -/
def segment (arr : ℤ → ℤ) (low high : ℤ) : List ℤ := slice arr low (high + 1 - low).toNat

section Slice
variable {arr arr' : ℤ → ℤ} {k low i j : ℤ} {m n : ℕ}

@[simp] theorem length_slice (arr : ℤ → ℤ) (k : ℤ) (n : ℕ) : (slice arr k n).length = n := by
  induction n generalizing k with
  | zero => rfl
  | succ n ih => rw [slice, List.length_cons, ih]

theorem slice_add (arr : ℤ → ℤ) (k : ℤ) (m n : ℕ) :
    slice arr k (m + n) = slice arr k m ++ slice arr (k + m) n := by
  induction m generalizing k with
  | zero => simp [slice]
  | succ m ih =>
    have hk : k + 1 + (m : ℤ) = k + (m + 1 : ℕ) := by omega
    rw [Nat.add_right_comm, slice, slice, ih, List.cons_append, hk]

theorem slice_concat (arr : ℤ → ℤ) (k : ℤ) (n : ℕ) :
    slice arr k (n + 1) = slice arr k n ++ [arr (k + n)] := by
  rw [slice_add]
  rfl

theorem slice_congr (h : ∀ i, k ≤ i → i < k + n → arr' i = arr i) :
    slice arr' k n = slice arr k n := by
  induction n generalizing k with
  | zero => rfl
  | succ n ih =>
    rw [slice, slice, h k (by omega) (by omega), ih fun i hi hlt => h i (by omega) (by omega)]

theorem swap_right (arr : ℤ → ℤ) (a b : ℤ) : swap arr a b b = toInt (arr a) :=
  Function.update_self ..

theorem swap_left (arr : ℤ → ℤ) {a b : ℤ} (h : a ≠ b) : swap arr a b a = arr b := by
  unfold swap
  rw [Function.update_of_ne h, Function.update_self]

theorem swap_of_ne (arr : ℤ → ℤ) {a b : ℤ} (ha : i ≠ a) (hb : i ≠ b) : swap arr a b i = arr i := by
  unfold swap
  rw [Function.update_of_ne hb, Function.update_of_ne ha]

/-- The two parts of what the loop has seen. -/
structure Seen (arr : ℤ → ℤ) (low i j : ℤ) (s : Split ℤ) : Prop where
  next : i + 1 = low + s.lows.length
  here : j = i + 1 + s.highs.length
  lows : slice arr low s.lows.length = s.lows
  highs : slice arr (i + 1) s.highs.length = s.highs

/-- The exchange with the first greater element, or with itself if there is none. -/
theorem Seen.swap {s : Split ℤ} (h : Seen arr low i j s) (x : ℤ) (hx : arr j = x) :
    Seen (swap arr (i + 1) j) low (i + 1) (j + 1)
      ⟨s.lows ++ [center toInt x s.highs], rotate toInt s.highs⟩ := by
  obtain ⟨hnext, hhere, hlows, hhighs⟩ := h
  have hfront : slice (SortSearch.swap arr (i + 1) j) low s.lows.length = s.lows := by
    conv_rhs => rw [← hlows]
    exact slice_congr fun k _ hk => swap_of_ne _ (by omega) (by omega)
  obtain ⟨lows, highs⟩ := s
  dsimp only at *
  cases highs with
  | nil =>
    have hij : j = i + 1 := by
      rw [hhere, List.length_nil]
      omega
    refine ⟨?_, ?_, ?_, rfl⟩
    · rw [List.length_append, List.length_singleton]
      omega
    · rw [hij]
      exact (Int.add_zero _).symm
    · rw [List.length_append, List.length_singleton, slice_concat, hfront, ← hnext, hij, swap_right,
        ← hij, hx]
      rfl
  | cons g gs =>
    rw [List.length_cons] at hhere
    rw [List.length_cons, slice, List.cons.injEq] at hhighs
    have hne : i + 1 ≠ j := by omega
    have hlen := length_rotate toInt (g :: gs)
    rw [List.length_cons] at hlen
    refine ⟨?_, ?_, ?_, ?_⟩
    · rw [List.length_append, List.length_singleton]
      omega
    · rw [hlen]
      omega
    · rw [List.length_append, List.length_singleton, slice_concat, hfront, ← hnext,
        swap_left _ hne, hx]
      rfl
    · have hrest : slice (SortSearch.swap arr (i + 1) j) (i + 1 + 1) gs.length = gs := by
        conv_rhs => rw [← hhighs.2]
        exact slice_congr fun k _ hk => swap_of_ne _ (by omega) (by omega)
      have hj : i + 1 + 1 + (gs.length : ℤ) = j := by omega
      rw [hlen, slice_concat, hrest, hj, swap_right, hhighs.1]
      rfl

theorem Seen.concat {s : Split ℤ} (h : Seen arr low i j s) (x : ℤ) (hx : arr j = x) :
    Seen arr low i (j + 1) ⟨s.lows, s.highs ++ [x]⟩ := by
  obtain ⟨hnext, hhere, hlows, hhighs⟩ := h
  refine ⟨hnext, ?_, hlows, ?_⟩
  · rw [List.length_append, List.length_singleton]
    omega
  · rw [List.length_append, List.length_singleton, slice_concat, hhighs, ← hhere, hx]

/-- The loop makes the pass over the elements that are left. -/
theorem partitionFrom_spec {pivot : ℤ} {s : Split ℤ} (h : Seen arr low i j s) (n : ℕ) :
    Seen (partitionFrom pivot n j i arr).2 low (partitionFrom pivot n j i arr).1 (j + n)
        (scan toInt pivot s (slice arr j n)) ∧
      ∀ k, k < low ∨ j + n ≤ k → (partitionFrom pivot n j i arr).2 k = arr k := by
  induction n generalizing i j s arr with
  | zero =>
    rw [Int.natCast_zero, Int.add_zero]
    exact ⟨h, fun _ _ => rfl⟩
  | succ n ih =>
    have hj : j + 1 + (n : ℤ) = j + (n + 1 : ℕ) := by omega
    have hscan : scan toInt pivot s (slice arr j (n + 1)) =
        scan toInt pivot (Lomuto.next toInt pivot s (arr j)) (slice arr (j + 1) n) := rfl
    rw [hscan, partitionFrom, ← hj]
    by_cases hle : arr j ≤ pivot
    · have hseen := h.swap (arr j) rfl
      have hrest : slice (SortSearch.swap arr (i + 1) j) (j + 1) n = slice arr (j + 1) n := by
        have hhere := h.here
        exact slice_congr fun k _ _ => swap_of_ne _ (by omega) (by omega)
      have hnext := h.next
      have hhere := h.here
      obtain ⟨hs, hframe⟩ := ih hseen
      rw [hrest] at hs
      rw [if_pos hle, next_low hle]
      refine ⟨hs, fun k hk => ?_⟩
      rw [hframe k hk, swap_of_ne _ (by omega) (by omega)]
    · rw [if_neg hle, next_high hle]
      exact ih (h.concat (arr j) rfl)

end Slice

section Calls
variable {arr out : ℤ → ℤ} {low high : ℤ}

/-- What `partition` leaves in the array: the two parts and the pivot at `pi` between them. -/
structure Parted (arr out : ℤ → ℤ) (low high pi : ℤ) (s : Split ℤ) : Prop where
  pi_eq : pi = low + s.lows.length
  high_eq : high = pi + s.highs.length
  lows : slice out low s.lows.length = s.lows
  pivot : out pi = center toInt (arr high) s.highs
  highs : slice out (pi + 1) s.highs.length = rotate toInt s.highs
  frame : ∀ k, k < low ∨ high < k → out k = arr k

theorem partition_spec (h : low < high) :
    Parted arr (partition arr low high).2 low high (partition arr low high).1
      (scan toInt (toInt (arr high)) ⟨[], []⟩ (slice arr low (high - low).toNat)) := by
  have hstart : Seen arr low (low - 1) low ⟨[], []⟩ := ⟨by simp, by simp, rfl, rfl⟩
  obtain ⟨hseen, hframe⟩ :=
    @partitionFrom_spec _ _ _ _ (toInt (arr high)) _ hstart (high - low).toNat
  have hend : low + ((high - low).toNat : ℤ) = high := by omega
  rw [hend] at hseen hframe
  unfold partition
  dsimp only
  generalize partitionFrom (toInt (arr high)) (high - low).toNat low (low - 1) arr = r at *
  generalize scan toInt (toInt (arr high)) ⟨[], []⟩ (slice arr low (high - low).toNat) = s at *
  have hpivot : r.2 high = arr high := hframe high (.inr le_rfl)
  have hnext := hseen.next
  have hhere := hseen.here
  obtain ⟨-, -, hlows, hhighs⟩ := hseen.swap (arr high) hpivot
  rw [List.length_append, List.length_singleton, slice_concat] at hlows
  rw [length_rotate] at hhighs
  obtain ⟨hlows, hcenter⟩ := List.append_inj' hlows rfl
  rw [← hnext, List.singleton_inj] at hcenter
  refine ⟨hnext, hhere, hlows, hcenter, hhighs, fun k hk => ?_⟩
  rw [swap_of_ne _ (by omega) (by omega), hframe k (by omega)]

theorem segment_of_le (h : high ≤ low) : (segment arr low high).length ≤ 1 := by
  unfold segment
  rw [length_slice]
  omega

theorem segment_concat (h : low ≤ high) :
    segment arr low high = slice arr low (high - low).toNat ++ [arr high] := by
  have hn : (high + 1 - low).toNat = (high - low).toNat + 1 := by omega
  have hend : low + ((high - low).toNat : ℤ) = high := by omega
  rw [segment, hn, slice_concat, hend]

/-- What the calls make of the elements from `low` to `high`; the others are not changed. -/
theorem quickSort_sorts {n : ℕ} (h : quickSort n arr low high = some out) :
    Sorts toInt (segment arr low high) (segment out low high) ∧
      ∀ k, k < low ∨ high < k → out k = arr k := by
  induction n generalizing arr out low high with
  | zero => cases h
  | succ n ih =>
    rw [quickSort] at h
    by_cases hlt : low < high
    · have hpart := @partition_spec arr _ _ hlt
      rw [if_pos hlt] at h
      generalize partition arr low high = r at *
      obtain ⟨pi, mid⟩ := r
      dsimp only at *
      have hpi := hpart.pi_eq
      have hhigh := hpart.high_eq
      obtain ⟨left, hleft, h⟩ := Option.bind_eq_some_iff.1 h
      obtain ⟨next, hnext, hright⟩ := Option.bind_eq_some_iff.1 h
      have hnext' : pi + 1 = next := by
        unfold checked at hnext
        split at hnext
        · exact Option.some.inj hnext
        · cases hnext
      rw [← hnext'] at hright
      obtain ⟨hlows, hlframe⟩ := ih hleft
      obtain ⟨hhighs, hrframe⟩ := ih hright
      generalize hs : scan toInt (toInt (arr high)) ⟨[], []⟩ (slice arr low (high - low).toNat) = s
        at *
      have hlsize : (pi - 1 + 1 - low).toNat = s.lows.length := by omega
      have hhsize : (high + 1 - (pi + 1)).toNat = s.highs.length := by omega
      unfold segment at hlows hhighs
      rw [hlsize, hpart.lows] at hlows
      have hsame : slice left (pi + 1) s.highs.length = slice mid (pi + 1) s.highs.length :=
        slice_congr fun k hk _ => hlframe k (.inr (by omega))
      rw [hhsize, hsame, hpart.highs] at hhighs
      have hout : segment out low high = slice left low s.lows.length ++
          center toInt (arr high) s.highs :: slice out (pi + 1) s.highs.length := by
        have hsize : (high + 1 - low).toNat = s.lows.length + (s.highs.length + 1) := by omega
        have hfront : slice out low s.lows.length = slice left low s.lows.length :=
          slice_congr fun k _ hk => hrframe k (.inl (by omega))
        rw [segment, hsize, slice_add, hfront, ← hpi, slice, hrframe pi (.inl (by omega)),
          hlframe pi (.inr (by omega)), hpart.pivot]
      have hne : slice arr low (high - low).toNat ≠ [] := by
        rw [← List.length_pos_iff, length_slice]
        omega
      rw [segment_concat hlt.le, hout]
      refine ⟨.step hne hs hlows hhighs, fun k hk => ?_⟩
      rw [hrframe k (by omega), hlframe k (by omega), hpart.frame k hk]
    · rw [if_neg hlt, Option.some.injEq] at h
      subst h
      exact ⟨.short (segment_of_le (Int.not_lt.1 hlt)), fun _ _ => rfl⟩

/-- The calls end: each part is shorter than the whole. -/
theorem quickSort_ends {n : ℕ} (hlow : 0 ≤ low) (hhigh : high + 1 < 2 ^ 31)
    (hn : high - low < n) (hpos : 0 < n) : ∃ out, quickSort n arr low high = some out := by
  induction n generalizing arr low high with
  | zero => cases hpos
  | succ n ih =>
    rw [quickSort]
    by_cases hlt : low < high
    · have hpart := @partition_spec arr _ _ hlt
      have hpi := hpart.pi_eq
      have hhigh' := hpart.high_eq
      rw [if_pos hlt]
      generalize partition arr low high = r at *
      obtain ⟨pi, mid⟩ := r
      dsimp only at *
      have hleft : ∃ left, quickSort n mid low (pi - 1) = some left :=
        ih hlow (by omega) (by omega) (by omega)
      obtain ⟨left, hleft⟩ := hleft
      have hcheck : checked (pi + 1) = some (pi + 1) := if_pos ⟨by omega, by omega⟩
      rw [hleft, Option.bind_some, hcheck, Option.bind_some]
      exact ih (by omega) (by omega) (by omega) (by omega)
    · rw [if_neg hlt]
      exact ⟨arr, rfl⟩

end Calls

end SortSearch
