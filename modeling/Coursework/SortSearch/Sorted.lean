import Coursework.SortSearch.QuickSort

/-! The arrays that `quick_sort` sorts: those whose elements are not changed on their way through
a temporary of type `int`. -/
namespace SortSearch
open CInt Lomuto

/-- What the passes over the elements that are not greater than the pivot need: they do not move
an element that is too small for an `int` through the temporary. -/
inductive Keeps : List ℤ → Prop
  | short {xs} : xs.length ≤ 1 → Keeps xs
  | step {init y} : init ≠ [] → (∀ x ∈ init.takeWhile (· ≤ toInt y), InRange x) →
      (InRange y ∨ (∃ g ∈ init, toInt y < g) ∧ ∀ x ∈ init, x ≤ toInt y → x ≤ y) →
      Keeps (init.filter (· ≤ toInt y)) → Keeps (init ++ [y])

/-- An element that is too large is always moved. -/
def Sortable (xs : List ℤ) : Prop := xs.length ≤ 1 ∨ (∀ x ∈ xs, x < 2 ^ 31) ∧ Keeps xs

/-- `quick_sort` sorts the elements from `low` to `high` and leaves the others alone. -/
def SortsRange (arr : ℤ → ℤ) (low high : ℤ) : Prop :=
  ∃ n out, quickSort n arr low high = some out ∧
    (segment out low high).Perm (segment arr low high) ∧
    (segment out low high).Pairwise (· ≤ ·) ∧ ∀ k, k < low ∨ high < k → out k = arr k

theorem inRange_toInt (x : ℤ) : InRange (toInt x) := by
  have hle := Int.le_bmod (x := x) (m := 2 ^ 32) (by decide)
  have hlt := Int.bmod_lt (x := x) (m := 2 ^ 32) (by decide)
  unfold InRange toInt
  omega

theorem toInt_of_inRange {x : ℤ} (h : InRange x) : toInt x = x := by
  unfold InRange at h
  exact Int.bmod_eq_of_le (by omega) (by omega)

theorem toInt_eq_self_iff {x : ℤ} : toInt x = x ↔ InRange x :=
  ⟨fun h => h ▸ inRange_toInt x, toInt_of_inRange⟩

theorem toInt_toInt (x : ℤ) : toInt (toInt x) = toInt x := toInt_of_inRange (inRange_toInt x)

theorem keeps_of_inRange (xs : List ℤ) (h : ∀ x ∈ xs, InRange x) : Keeps xs := by
  induction hn : xs.length using Nat.strongRecOn generalizing xs with
  | ind n ih =>
    by_cases hshort : xs.length ≤ 1
    · exact .short hshort
    obtain rfl | ⟨init, y, rfl⟩ := xs.eq_nil_or_concat'
    · exact .short (Nat.zero_le 1)
    have hinit : ∀ x ∈ init, InRange x := fun x hx => h x (List.mem_append_left _ hx)
    rw [List.length_append, List.length_singleton] at hn hshort
    refine .step (fun h0 => ?_) ?_ (.inl (h y (by simp))) ?_
    · rw [h0] at hshort
      exact hshort le_rfl
    · exact fun x hx => hinit x ((List.takeWhile_sublist _).subset hx)
    · refine ih _ ?_ _ (fun x hx => hinit x (List.mem_of_mem_filter hx)) rfl
      have hle := List.length_filter_le (· ≤ toInt y) init
      omega

theorem keeps_concat {init : List ℤ} {y : ℤ} (h : Keeps (init ++ [y])) (hne : init ≠ []) :
    (∀ x ∈ init.takeWhile (· ≤ toInt y), InRange x) ∧
      (InRange y ∨ (∃ g ∈ init, toInt y < g) ∧ ∀ x ∈ init, x ≤ toInt y → x ≤ y) ∧
      Keeps (init.filter (· ≤ toInt y)) := by
  generalize hxs : init ++ [y] = xs at h
  cases h with
  | short hshort =>
    have hpos := List.length_pos_iff.2 hne
    rw [← hxs, List.length_append, List.length_singleton] at hshort
    omega
  | step _ hfront hy hkeeps =>
    obtain ⟨rfl, heq⟩ := List.append_inj' hxs rfl
    rw [List.singleton_inj] at heq
    subst heq
    exact ⟨hfront, hy, hkeeps⟩

theorem Sortable.keeps {xs : List ℤ} (h : Sortable xs) : Keeps xs := h.elim .short And.right

theorem Sortable.lt_of_rotate {gs : List ℤ} (h : Sortable (rotate toInt gs)) :
    ∀ x ∈ rotate toInt gs, x < 2 ^ 31 := by
  obtain hshort | ⟨hlt, -⟩ := h
  · cases gs with
    | nil => exact fun x hx => by cases hx
    | cons g gs =>
      rw [length_rotate, List.length_cons] at hshort
      obtain rfl : gs = [] := List.length_eq_zero_iff.1 (by omega)
      intro x hx
      rw [rotate, List.nil_append, List.mem_singleton] at hx
      rw [hx]
      exact (inRange_toInt g).2
  · exact hlt

section Parts
variable {init lows highs : List ℤ} {y : ℤ} {s : Split ℤ}

/-- Sorted parts that are sortable on their own make a sortable whole. -/
theorem sortable_of_intact (hne : init ≠ []) (hi : Intact toInt init y s) (hlp : lows.Perm s.lows)
    (hhp : highs.Perm (rotate toInt s.highs)) (hls : Sortable s.lows)
    (hhs : Sortable (rotate toInt s.highs)) (hly : ∀ x ∈ lows, x ≤ y) (hyh : ∀ x ∈ highs, y ≤ x) :
    Sortable (init ++ [y]) := by
  have hlt := hhs.lt_of_rotate
  have hlast : y < 2 ^ 31 ∧ (InRange y ∨ ∃ g ∈ init, toInt y < g) := by
    obtain hnil | hfix := center_eq_iff.1 hi.center
    · obtain ⟨x, hx⟩ := List.exists_mem_of_ne_nil _ (rotate_ne_nil (t := toInt) hnil)
      have hmem := hi.highs.subset hx
      rw [List.mem_filter] at hmem
      have hle := hyh x (hhp.symm.subset hx)
      exact ⟨lt_of_le_of_lt hle (hlt x hx), .inr ⟨x, hmem.1, by simpa using hmem.2⟩⟩
    · have hrange := toInt_eq_self_iff.1 hfix
      exact ⟨hrange.2, .inl hrange⟩
  refine .inr ⟨fun x hx => ?_, .step hne ?_ ?_ ?_⟩
  · obtain hx | hx := List.mem_append.1 hx
    · by_cases hle : x ≤ toInt y
      · exact lt_of_le_of_lt hle (inRange_toInt y).2
      · have hmem : x ∈ init.filter (toInt y < ·) :=
          List.mem_filter.2 ⟨hx, by simpa using Int.not_le.1 hle⟩
        exact hlt x (hi.highs.symm.subset hmem)
    · rw [List.mem_singleton.1 hx]
      exact hlast.1
  · exact fun x hx => toInt_eq_self_iff.1 (hi.front x hx)
  · refine hlast.2.imp_right fun hg => ⟨hg, fun x hx hle => ?_⟩
    have hmem : x ∈ s.lows := by
      rw [hi.lows]
      exact List.mem_filter.2 ⟨hx, by simpa using hle⟩
    exact hly x (hlp.symm.subset hmem)
  · rw [← hi.lows]
    exact hls.keeps

/-- A sortable whole has sortable parts, and the pivot belongs between them. -/
theorem Sortable.parts (hne : init ≠ []) (h : Sortable (init ++ [y])) :
    Intact toInt init y (scan toInt (toInt y) ⟨[], []⟩ init) ∧
      Sortable (scan toInt (toInt y) ⟨[], []⟩ init).lows ∧
      Sortable (rotate toInt (scan toInt (toInt y) ⟨[], []⟩ init).highs) ∧
      (∀ x ∈ init, x ≤ toInt y → x ≤ y) ∧ ∀ x ∈ init, toInt y < x → y ≤ x := by
  obtain hshort | ⟨hlt, hkeeps⟩ := h
  · have hpos := List.length_pos_iff.2 hne
    rw [List.length_append, List.length_singleton] at hshort
    omega
  obtain ⟨hfront, hy, hkeeps⟩ := keeps_concat hkeeps hne
  have hinit : ∀ x ∈ init, x < 2 ^ 31 := fun x hx => hlt x (List.mem_append_left _ hx)
  have hrange : ∀ x ∈ init, toInt y < x → InRange x := fun x hx hgt =>
    ⟨((inRange_toInt y).1.trans_lt hgt).le, hinit x hx⟩
  have hi : Intact toInt init y (scan toInt (toInt y) ⟨[], []⟩ init) := by
    refine intact_of_fixed toInt_toInt (fun x hx => toInt_of_inRange (hfront x hx)) ?_ ?_
    · exact fun x hx hgt => toInt_of_inRange (hrange x hx hgt)
    · exact hy.elim (fun h => .inr (toInt_of_inRange h)) fun h => .inl h.1
  have hhighs : ∀ x ∈ rotate toInt (scan toInt (toInt y) ⟨[], []⟩ init).highs, InRange x := by
    intro x hx
    have hmem := hi.highs.subset hx
    rw [List.mem_filter] at hmem
    exact hrange x hmem.1 (by simpa using hmem.2)
  refine ⟨hi, .inr ⟨fun x hx => ?_, ?_⟩, .inr ⟨fun x hx => (hhighs x hx).2, ?_⟩, ?_, ?_⟩
  · rw [hi.lows] at hx
    exact hinit x (List.mem_of_mem_filter hx)
  · rw [hi.lows]
    exact hkeeps
  · exact keeps_of_inRange _ hhighs
  · intro x hx hle
    obtain h | h := hy
    · rwa [toInt_of_inRange h] at hle
    · exact h.2 x hx hle
  · intro x hx hgt
    by_cases h : InRange y
    · rw [toInt_of_inRange h] at hgt
      exact hgt.le
    · have hx := hrange x hx hgt
      have hy' := hlt y (by simp)
      unfold InRange at h hx
      omega

end Parts

/-- The result is sorted for the sortable lists only. -/
theorem sorts_iff {xs out : List ℤ} (h : Sorts toInt xs out) :
    out.Perm xs ∧ out.Pairwise (· ≤ ·) ↔ Sortable xs := by
  induction h with
  | @short xs hshort =>
    refine iff_of_true ⟨List.Perm.refl _, ?_⟩ (.inl hshort)
    cases xs with
    | nil => exact .nil
    | cons x xs =>
      obtain rfl : xs = [] := List.length_eq_zero_iff.1
        (Nat.le_zero.1 (Nat.le_of_succ_le_succ hshort))
      exact List.pairwise_singleton _ _
  | @step init y s lows highs hne hs hl hh ihl ihh =>
    subst hs
    constructor
    · rintro ⟨hperm, hsorted⟩
      obtain ⟨hi, hlp, hhp⟩ := Sorts.intact toInt_toInt hl hh hperm
      rw [hi.center, List.pairwise_append, List.pairwise_cons] at hsorted
      obtain ⟨hlsorted, ⟨hyh, hhsorted⟩, hle⟩ := hsorted
      exact sortable_of_intact hne hi hlp hhp (ihl.1 ⟨hlp, hlsorted⟩) (ihh.1 ⟨hhp, hhsorted⟩)
        (fun x hx => hle x hx y List.mem_cons_self) hyh
    · intro hsort
      obtain ⟨hi, hls, hhs, hlow, hhigh⟩ := hsort.parts hne
      obtain ⟨hlp, hlsorted⟩ := ihl.2 hls
      obtain ⟨hhp, hhsorted⟩ := ihh.2 hhs
      rw [hi.lows] at hlp
      have hhp := hhp.trans hi.highs
      have hbelow : ∀ x ∈ lows, x ≤ y := by
        intro x hx
        obtain ⟨hmem, hle⟩ := List.mem_filter.1 (hlp.subset hx)
        exact hlow x hmem (by simpa using hle)
      have habove : ∀ x ∈ highs, y ≤ x := by
        intro x hx
        obtain ⟨hmem, hgt⟩ := List.mem_filter.1 (hhp.subset hx)
        exact hhigh x hmem (by simpa using hgt)
      rw [hi.center, List.pairwise_append, List.pairwise_cons]
      refine ⟨(hlp.append (hhp.cons y)).trans (concat_split_perm (toInt y) init y).symm, hlsorted,
        ⟨habove, hhsorted⟩, fun x hx z hz => ?_⟩
      obtain rfl | hz := List.mem_cons.1 hz
      · exact hbelow x hx
      · exact (hbelow x hx).trans (habove z hz)

theorem sortsRange_iff {arr : ℤ → ℤ} {low high : ℤ} (hlow : 0 ≤ low) (hle : low ≤ high)
    (hhigh : high + 1 < 2 ^ 31) : SortsRange arr low high ↔ Sortable (segment arr low high) := by
  constructor
  · rintro ⟨n, out, hrun, hperm, hsorted, -⟩
    exact (sorts_iff (quickSort_sorts hrun).1).1 ⟨hperm, hsorted⟩
  · intro hsort
    have hends : ∃ out, quickSort ((high - low).toNat + 1) arr low high = some out :=
      quickSort_ends hlow hhigh (by omega) (Nat.succ_pos _)
    obtain ⟨out, hrun⟩ := hends
    obtain ⟨hsorts, hframe⟩ := quickSort_sorts hrun
    obtain ⟨hperm, hsorted⟩ := (sorts_iff hsorts).2 hsort
    exact ⟨_, out, hrun, hperm, hsorted, hframe⟩

end SortSearch
