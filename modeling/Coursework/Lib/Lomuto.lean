import Mathlib.Data.List.Pairwise
import Mathlib.Data.List.TakeWhile
import Mathlib.Data.Multiset.Filter
import Mathlib.Order.Lattice

/-! Quicksort with the last element as pivot, on lists. What is held back in a temporary may come
out of it changed; `t` says how. -/
namespace Lomuto
variable {α : Type*} {t : α → α}

/-- The elements that were found not to be greater than the pivot, and the greater ones. -/
@[ext] structure Split (α : Type*) where
  lows : List α
  highs : List α

/-- The next element; a lower one changes places with the first greater one, or with itself. -/
def next [LinearOrder α] (t : α → α) (p : α) (s : Split α) (x : α) : Split α :=
  if x ≤ p then
    match s.highs with
    | [] => ⟨s.lows ++ [t x], []⟩
    | g :: gs => ⟨s.lows ++ [x], gs ++ [t g]⟩
  else ⟨s.lows, s.highs ++ [x]⟩

def scan [LinearOrder α] (t : α → α) (p : α) (s : Split α) (xs : List α) : Split α :=
  xs.foldl (next t p) s

/-- The pivot changes places with the first greater element, or with itself. -/
def center (t : α → α) (y : α) : List α → α
  | [] => t y
  | _ :: _ => y

def rotate (t : α → α) : List α → List α
  | [] => []
  | g :: gs => gs ++ [t g]

/-- What a list is made into. -/
inductive Sorts [LinearOrder α] (t : α → α) : List α → List α → Prop
  | short {xs} : xs.length ≤ 1 → Sorts t xs xs
  | step {init y s lows highs} : init ≠ [] → scan t (t y) ⟨[], []⟩ init = s → Sorts t s.lows lows →
      Sorts t (rotate t s.highs) highs →
      Sorts t (init ++ [y]) (lows ++ center t y s.highs :: highs)

section Worn

/-- Each element is there as it was or as it came out of the temporary. -/
def Worn (t : α → α) (xs ys : List α) : Prop :=
  Multiset.Rel (fun x z => z = x ∨ z = t x) (xs : Multiset α) (ys : Multiset α)

theorem Worn.of_perm {xs ys : List α} (h : xs.Perm ys) : Worn t xs ys := by
  unfold Worn
  rw [Multiset.coe_eq_coe.2 h]
  exact Multiset.rel_refl_of_refl_on fun _ _ => .inl rfl

theorem Worn.append {xs ys xs' ys' : List α} (h : Worn t xs ys) (h' : Worn t xs' ys') :
    Worn t (xs ++ xs') (ys ++ ys') := by
  unfold Worn
  rw [← Multiset.coe_add, ← Multiset.coe_add]
  exact Multiset.Rel.add h h'

theorem Worn.trans (ht : ∀ x, t (t x) = t x) {xs ys zs : List α} (h : Worn t xs ys)
    (h' : Worn t ys zs) : Worn t xs zs := by
  have htrans : IsTrans α fun x z => z = x ∨ z = t x := by
    refine ⟨?_⟩
    rintro a b c (rfl | rfl) (rfl | rfl)
    · exact .inl rfl
    · exact .inr rfl
    · exact .inr rfl
    · exact .inr (ht a)
  exact Multiset.Rel.trans _ h h'

theorem worn_singleton (x : α) : Worn t [x] [t x] :=
  Multiset.Rel.cons (.inr rfl) Multiset.Rel.zero

theorem worn_map (xs : List α) : Worn t xs (xs.map t) := by
  induction xs with
  | nil => exact Multiset.Rel.zero
  | cons x xs ih => exact Multiset.Rel.cons (.inr rfl) ih

theorem worn_rotate (gs : List α) : Worn t gs (rotate t gs) := by
  cases gs with
  | nil => exact Multiset.Rel.zero
  | cons g gs =>
    have hperm : (g :: gs).Perm (gs ++ [g]) := (List.perm_append_singleton g gs).symm
    unfold Worn rotate
    rw [Multiset.coe_eq_coe.2 hperm]
    exact (Worn.of_perm (List.Perm.refl gs)).append (worn_singleton g)

theorem worn_center (y : α) (gs : List α) : Worn t [y] [center t y gs] := by
  cases gs with
  | nil => exact worn_singleton y
  | cons g gs => exact .of_perm (List.Perm.refl [y])

variable [DecidableEq α]

/-- How many elements the temporary changes. -/
def changed (t : α → α) (xs : List α) : ℕ := xs.countP fun x => t x ≠ x

theorem changed_append (xs ys : List α) : changed t (xs ++ ys) = changed t xs + changed t ys :=
  List.countP_append

theorem changed_perm {xs ys : List α} (h : xs.Perm ys) : changed t xs = changed t ys :=
  h.countP_eq _

theorem changed_eq_zero {xs : List α} : changed t xs = 0 ↔ ∀ x ∈ xs, t x = x := by
  unfold changed
  rw [List.countP_eq_zero]
  simp

/-- Such elements do not become more, and if they do not become less then nothing was changed. -/
theorem Worn.changed_le (ht : ∀ x, t (t x) = t x) {xs ys : List α} (h : Worn t xs ys) :
    changed t ys ≤ changed t xs ∧ (changed t xs ≤ changed t ys → ys.Perm xs) := by
  have hrel : ∀ {a b : Multiset α}, Multiset.Rel (fun x z => z = x ∨ z = t x) a b →
      b.countP (fun x => t x ≠ x) ≤ a.countP (fun x => t x ≠ x) ∧
        (a.countP (fun x => t x ≠ x) ≤ b.countP (fun x => t x ≠ x) → b = a) := by
    intro a b h
    induction h with
    | zero => exact ⟨le_rfl, fun _ => rfl⟩
    | @cons x z as bs hxz _ ih =>
      rw [Multiset.countP_cons, Multiset.countP_cons]
      obtain rfl | rfl := hxz
      · exact ⟨by omega, fun hle => by rw [ih.2 (by omega)]⟩
      · have hz : ¬(t (t x) ≠ t x) := not_not.2 (ht x)
        rw [if_neg hz]
        by_cases hx : t x ≠ x
        · rw [if_pos hx]
          exact ⟨by omega, fun hle => by omega⟩
        · rw [if_neg hx, not_not.1 hx]
          exact ⟨by omega, fun hle => by rw [ih.2 (by omega)]⟩
  have h := hrel h
  rw [Multiset.coe_countP, Multiset.coe_countP, Multiset.coe_eq_coe] at h
  exact h

theorem Worn.perm_of_fixed (ht : ∀ x, t (t x) = t x) {xs ys : List α} (h : Worn t xs ys)
    (hfix : ∀ x ∈ xs, t x = x) : ys.Perm xs :=
  (h.changed_le ht).2 (by rw [changed_eq_zero.2 hfix]; exact Nat.zero_le _)

theorem changed_map (ht : ∀ x, t (t x) = t x) (xs : List α) : changed t (xs.map t) = 0 := by
  rw [changed_eq_zero]
  intro x hx
  obtain ⟨z, -, rfl⟩ := List.mem_map.1 hx
  exact ht z

end Worn

theorem length_rotate (t : α → α) (gs : List α) : (rotate t gs).length = gs.length := by
  cases gs with
  | nil => rfl
  | cons g gs => rw [rotate, List.length_append, List.length_singleton, List.length_cons]

theorem rotate_ne_nil {gs : List α} (h : gs ≠ []) : rotate t gs ≠ [] := by
  cases gs with
  | nil => exact absurd rfl h
  | cons g gs => exact List.append_ne_nil_of_right_ne_nil _ (List.cons_ne_nil _ _)

theorem center_eq_iff {y : α} {gs : List α} : center t y gs = y ↔ gs ≠ [] ∨ t y = y := by
  cases gs with
  | nil => simp [center]
  | cons g gs => simp [center]

section Scan
variable [LinearOrder α] {p : α}

theorem next_low {s : Split α} {x : α} (h : x ≤ p) : next t p s x =
    ⟨s.lows ++ [center t x s.highs], rotate t s.highs⟩ := by
  unfold next
  rw [if_pos h]
  cases s.highs <;> rfl

theorem next_high {s : Split α} {x : α} (h : ¬x ≤ p) :
    next t p s x = ⟨s.lows, s.highs ++ [x]⟩ := if_neg h

theorem scan_cons (s : Split α) (x : α) (xs : List α) :
    scan t p s (x :: xs) = scan t p (next t p s x) xs := rfl

theorem scan_lows_kept {s : Split α} (hs : s.highs ≠ []) (xs : List α) :
    (scan t p s xs).lows = s.lows ++ xs.filter (· ≤ p) := by
  induction xs generalizing s with
  | nil => simp [scan]
  | cons x xs ih =>
    rw [scan_cons]
    by_cases hx : x ≤ p
    · have hcenter : center t x s.highs = x := by
        cases hg : s.highs with
        | nil => exact absurd hg hs
        | cons g gs => rfl
      rw [next_low hx, ih (rotate_ne_nil hs), hcenter, List.filter_cons_of_pos (by simpa using hx),
        List.append_assoc]
      rfl
    · rw [next_high hx, ih (by simp), List.filter_cons_of_neg (by simpa using hx)]

theorem scan_lows {s : Split α} (hs : s.highs = []) (xs : List α) :
    (scan t p s xs).lows = s.lows ++ (xs.takeWhile (· ≤ p)).map t ++
      (xs.dropWhile (· ≤ p)).filter (· ≤ p) := by
  induction xs generalizing s with
  | nil => simp [scan]
  | cons x xs ih =>
    rw [scan_cons]
    by_cases hx : x ≤ p
    · rw [next_low hx, hs, ih rfl]
      simp [hx, center]
    · rw [next_high hx, scan_lows_kept (by simp)]
      simp [hx]

theorem worn_scan_highs (ht : ∀ x, t (t x) = t x) {s : Split α} {pre : List α}
    (hs : Worn t pre s.highs) (xs : List α) :
    Worn t (pre ++ xs.filter (p < ·)) (scan t p s xs).highs := by
  induction xs generalizing s pre with
  | nil => simpa [scan] using hs
  | cons x xs ih =>
    rw [scan_cons]
    by_cases hx : x ≤ p
    · rw [next_low hx, List.filter_cons_of_neg (by simpa using hx)]
      exact ih (hs.trans ht (worn_rotate _))
    · rw [next_high hx, List.filter_cons_of_pos (by simpa using hx), List.append_cons]
      exact ih (hs.append (.of_perm (List.Perm.refl [x])))

theorem filter_split_perm (p : α) (xs : List α) :
    (xs.filter (· ≤ p) ++ xs.filter (p < ·)).Perm xs := by
  have hnot : xs.filter (p < ·) = xs.filter fun x => !decide (x ≤ p) := by
    refine List.filter_congr fun x _ => ?_
    rw [← decide_not]
    exact decide_eq_decide.2 not_le.symm
  rw [hnot]
  exact List.filter_append_perm _ _

theorem concat_split_perm (p : α) (xs : List α) (y : α) :
    (xs ++ [y]).Perm (xs.filter (· ≤ p) ++ y :: xs.filter (p < ·)) := by
  refine ((filter_split_perm p xs).symm.append_right [y]).trans ?_
  rw [List.append_assoc]
  exact List.perm_append_comm.append_left _

theorem filter_le_eq (p : α) (xs : List α) : xs.filter (· ≤ p) =
    xs.takeWhile (· ≤ p) ++ (xs.dropWhile (· ≤ p)).filter (· ≤ p) := by
  have hfront : (xs.takeWhile (· ≤ p)).filter (· ≤ p) = xs.takeWhile (· ≤ p) :=
    List.filter_eq_self.2 fun _ hx => List.mem_takeWhile_imp (p := fun x => decide (x ≤ p)) hx
  conv_lhs => rw [← List.takeWhile_append_dropWhile (p := (· ≤ p)) (l := xs)]
  rw [List.filter_append, hfront]

theorem worn_scan_lows (xs : List α) :
    Worn t (xs.filter (· ≤ p)) (scan t p ⟨[], []⟩ xs).lows := by
  rw [scan_lows rfl, filter_le_eq, List.nil_append]
  exact (worn_map _).append (.of_perm (List.Perm.refl _))

theorem worn_scan_highs_nil (ht : ∀ x, t (t x) = t x) (xs : List α) :
    Worn t (xs.filter (p < ·)) (scan t p ⟨[], []⟩ xs).highs := by
  exact @worn_scan_highs _ _ _ _ ht ⟨[], []⟩ [] Multiset.Rel.zero xs

end Scan

section Sorts
variable [LinearOrder α]

/-- A pass over a list in which no element comes out of the temporary changed. -/
structure Intact (t : α → α) (init : List α) (y : α) (s : Split α) : Prop where
  lows : s.lows = init.filter (· ≤ t y)
  front : ∀ x ∈ init.takeWhile (· ≤ t y), t x = x
  highs : (rotate t s.highs).Perm (init.filter (t y < ·))
  center : center t y s.highs = y

/-- The elements that are moved through the temporary are not changed by it. -/
theorem intact_of_fixed (ht : ∀ x, t (t x) = t x) {init : List α} {y : α}
    (hfront : ∀ x ∈ init.takeWhile (· ≤ t y), t x = x) (hhighs : ∀ x ∈ init, t y < x → t x = x)
    (hy : (∃ g ∈ init, t y < g) ∨ t y = y) : Intact t init y (scan t (t y) ⟨[], []⟩ init) := by
  have hworn := worn_scan_highs_nil (p := t y) ht init
  have hfix : ∀ x ∈ init.filter (t y < ·), t x = x := by
    intro x hx
    rw [List.mem_filter] at hx
    exact hhighs x hx.1 (by simpa using hx.2)
  refine ⟨?_, hfront, (hworn.trans ht (worn_rotate _)).perm_of_fixed ht hfix, ?_⟩
  · have hmap : (init.takeWhile (· ≤ t y)).map t = init.takeWhile (· ≤ t y) :=
      (List.map_congr_left hfront).trans (List.map_id _)
    rw [scan_lows rfl, filter_le_eq (t y) init, hmap]
    rfl
  · rw [center_eq_iff]
    refine hy.imp_left ?_
    rintro ⟨g, hg, hlt⟩ hnil
    have hperm := hworn.perm_of_fixed ht hfix
    rw [hnil] at hperm
    have hmem : g ∈ init.filter (t y < ·) := List.mem_filter.2 ⟨hg, by simpa using hlt⟩
    rw [hperm.symm.eq_nil] at hmem
    cases hmem

theorem Sorts.worn (ht : ∀ x, t (t x) = t x) {xs out : List α} (h : Sorts t xs out) :
    Worn t xs out := by
  induction h with
  | short => exact .of_perm (List.Perm.refl _)
  | @step init y s lows highs _ hs _ _ ihl ihh =>
    subst hs
    have hlows := (worn_scan_lows (t := t) (p := t y) init).trans ht ihl
    have hhighs := ((worn_scan_highs_nil (p := t y) ht init).trans ht (worn_rotate _)).trans ht ihh
    exact (Worn.of_perm (concat_split_perm (t y) init y)).trans ht
      (hlows.append ((worn_center y _).append hhighs))

/-- If all elements are there in the end then the first pass changed none of them, and neither
did the passes over the two parts. -/
theorem Sorts.intact (ht : ∀ x, t (t x) = t x) {init lows highs : List α} {y : α}
    (hl : Sorts t (scan t (t y) ⟨[], []⟩ init).lows lows)
    (hh : Sorts t (rotate t (scan t (t y) ⟨[], []⟩ init).highs) highs)
    (hperm : (lows ++ Lomuto.center t y (scan t (t y) ⟨[], []⟩ init).highs :: highs).Perm
      (init ++ [y])) :
    Intact t init y (scan t (t y) ⟨[], []⟩ init) ∧
      lows.Perm (scan t (t y) ⟨[], []⟩ init).lows ∧
      highs.Perm (rotate t (scan t (t y) ⟨[], []⟩ init).highs) := by
  generalize hs : scan t (t y) ⟨[], []⟩ init = s at *
  have hlows : s.lows = (init.takeWhile (· ≤ t y)).map t ++
      (init.dropWhile (· ≤ t y)).filter (· ≤ t y) := by
    rw [← hs]
    exact scan_lows rfl init
  have hhighs : Worn t (init.filter (t y < ·)) (rotate t s.highs) := by
    rw [← hs]
    exact (worn_scan_highs_nil ht init).trans ht (worn_rotate _)
  have hcl := (hl.worn ht).changed_le ht
  have hch := (hh.worn ht).changed_le ht
  have hch' := hhighs.changed_le ht
  have hcc := (worn_center (t := t) y s.highs).changed_le ht
  have hfront := changed_map ht (init.takeWhile (· ≤ t y))
  -- no element that the temporary changes has been lost
  have hsum := changed_perm (t := t) hperm
  have hinit := changed_perm (t := t) (filter_split_perm (t y) init)
  have hcons : lows ++ Lomuto.center t y s.highs :: highs =
      lows ++ ([Lomuto.center t y s.highs] ++ highs) := rfl
  rw [changed_append, filter_le_eq, changed_append] at hinit
  rw [hcons, changed_append, changed_append, changed_append] at hsum
  rw [hlows, changed_append] at hcl
  have hzero : changed t (init.takeWhile (· ≤ t y)) = 0 := by omega
  have hfix := changed_eq_zero.1 hzero
  refine ⟨⟨?_, hfix, hch'.2 (by omega), ?_⟩, ?_, hch.2 (by omega)⟩
  · rw [hlows, filter_le_eq (t y) init, (List.map_congr_left hfix).trans (List.map_id _)]
  · exact List.singleton_perm_singleton.1 (hcc.2 (by omega))
  · rw [hlows]
    exact hcl.2 (by omega)

end Sorts

end Lomuto
