import Mathlib.Data.Fintype.Card
import Mathlib.Data.Nat.Find
import Mathlib.Data.Set.Basic
import Mathlib.Logic.Function.Basic
import Mathlib.Order.Bounds.Basic

/-! Breadth-first search by levels, over any graph given by lists of neighbours. -/
namespace BreadthFirst
variable {V : Type*} (adj : V → List V) (free : V → Prop) (S : Set V)

/-- A walk of the given length from `S`; only its first vertex may not be free. -/
inductive Walk : ℕ → V → Prop
  | start {v} : v ∈ S → Walk 0 v
  | step {n u v} : Walk n u → v ∈ adj u → free v → Walk (n + 1) v

def IsDistance (n : ℕ) (v : V) : Prop := IsLeast {k | Walk adj free S k v} n

/-- The vertices that have been found, with their levels, and those still to be expanded. -/
structure Search (V : Type*) where
  mark : V → Option ℕ
  queue : List V

/-- What has been found after `n` levels. -/
structure Reached (n : ℕ) (s : Search V) : Prop where
  mark : ∀ v d, s.mark v = some d ↔ d ≤ n ∧ IsDistance adj free S d v
  queue : ∀ v, v ∈ s.queue ↔ IsDistance adj free S n v

section Distance
variable {adj free S} {m n : ℕ} {v : V} {s : Search V}

theorem isDistance_unique (h : IsDistance adj free S m v) (h' : IsDistance adj free S n v) :
    m = n := IsLeast.unique h h'

theorem isDistance_zero_iff : IsDistance adj free S 0 v ↔ v ∈ S := by
  refine ⟨fun h => ?_, fun h => ⟨.start h, fun k _ => Nat.zero_le k⟩⟩
  have hw : Walk adj free S 0 v := h.1
  cases hw with
  | start hv => exact hv

theorem exists_isDistance_le {k : ℕ} (h : Walk adj free S k v) :
    ∃ d ≤ k, IsDistance adj free S d v := by
  classical
  have hex : ∃ k, Walk adj free S k v := ⟨k, h⟩
  exact ⟨Nat.find hex, Nat.find_min' hex h, Nat.find_spec hex, fun j hj => Nat.find_min' hex hj⟩

theorem isDistance_succ_iff :
    IsDistance adj free S (n + 1) v ↔
      (∃ u, IsDistance adj free S n u ∧ v ∈ adj u) ∧ free v ∧
        ¬∃ d ≤ n, IsDistance adj free S d v := by
  constructor
  · intro h
    have hfar : ¬∃ d ≤ n, IsDistance adj free S d v := by
      rintro ⟨d, hd, hv⟩
      have heq := isDistance_unique hv h
      omega
    have hw : Walk adj free S (n + 1) v := h.1
    cases hw with
    | @step n u _ hu hadj hfree =>
      refine ⟨⟨u, ⟨hu, fun k hk => ?_⟩, hadj⟩, hfree, hfar⟩
      have hle := h.2 (Walk.step hk hadj hfree)
      omega
  · rintro ⟨⟨u, hu, hadj⟩, hfree, hfar⟩
    have hw : Walk adj free S n u := hu.1
    refine ⟨hw.step hadj hfree, fun k hk => ?_⟩
    obtain ⟨d, hdk, hd⟩ := exists_isDistance_le hk
    by_contra hlt
    exact hfar ⟨d, by omega, hd⟩

theorem exists_isDistance_of_le (h : IsDistance adj free S n v) :
    ∀ m ≤ n, ∃ u, IsDistance adj free S m u := by
  induction n generalizing v with
  | zero =>
    intro m hm
    obtain rfl := Nat.le_zero.1 hm
    exact ⟨v, h⟩
  | succ n ih =>
    intro m hm
    obtain heq | hlt := hm.eq_or_lt
    · exact ⟨v, heq ▸ h⟩
    · obtain ⟨⟨u, hu, -⟩, -⟩ := isDistance_succ_iff.1 h
      exact ih hu m (Nat.lt_succ_iff.1 hlt)

/-- No distance is as large as the number of vertices. -/
theorem IsDistance.lt_card [DecidableEq V] (s : Finset V) (hstart : ∀ u ∈ S, u ∈ s)
    (hfree : ∀ u, free u → u ∈ s) (h : IsDistance adj free S n v) : n < s.card := by
  have hex : ∀ m : Fin (n + 1), ∃ u, IsDistance adj free S m u :=
    fun m => exists_isDistance_of_le h m (Nat.lt_succ_iff.1 m.2)
  choose f hf using hex
  have hinj : Function.Injective f := fun a b hab => by
    have hb := hf b
    rw [← hab] at hb
    exact Fin.ext (isDistance_unique (hf a) hb)
  have hmem : ∀ m ∈ (Finset.univ : Finset (Fin (n + 1))), f m ∈ s := by
    intro m _
    have hw : Walk adj free S m (f m) := (hf m).1
    generalize (m : ℕ) = k at hw
    cases hw with
    | start hu => exact hstart _ hu
    | step _ _ hu => exact hfree _ hu
  have hcard := Finset.card_le_card_of_injOn f hmem hinj.injOn
  rw [Finset.card_univ, Fintype.card_fin] at hcard
  exact hcard

theorem Reached.mark_eq_none (h : Reached adj free S n s) (v : V) :
    s.mark v = none ↔ ¬∃ d ≤ n, IsDistance adj free S d v := by
  rw [Option.eq_none_iff_forall_ne_some]
  constructor
  · rintro hnone ⟨d, hd, hv⟩
    exact hnone d ((h.mark v d).2 ⟨hd, hv⟩)
  · intro hfar d hd
    exact hfar ⟨d, (h.mark v d).1 hd⟩

theorem Reached.closed (h : Reached adj free S n s) (hempty : s.queue = []) {v : V} {d : ℕ}
    (hd : IsDistance adj free S d v) : s.mark v = some d := by
  rw [h.mark]
  refine ⟨?_, hd⟩
  by_contra hle
  obtain ⟨u, hu⟩ := exists_isDistance_of_le hd n (by omega)
  have hmem := (h.queue u).2 hu
  rw [hempty] at hmem
  cases hmem

end Distance

def start [DecidableEq V] (s : Search V) (v : V) : Search V :=
  ⟨Function.update s.mark v (some 0), s.queue ++ [v]⟩

theorem foldl_start [DecidableEq V] (s : Search V) (vs : List V) :
    vs.foldl start s = ⟨fun v => if v ∈ vs then some 0 else s.mark v, s.queue ++ vs⟩ := by
  induction vs generalizing s with
  | nil => simp
  | cons w vs ih =>
    rw [List.foldl_cons, ih, start, List.append_assoc, List.singleton_append]
    congr 1
    funext v
    by_cases hv : v = w
    · simp [hv]
    · simp [hv]

theorem reached_start [DecidableEq V] {adj : V → List V} {free : V → Prop} (vs : List V) :
    Reached adj free {v | v ∈ vs} 0 (vs.foldl start ⟨fun _ => none, []⟩) := by
  rw [foldl_start]
  refine ⟨fun v d => ?_, fun v => ?_⟩
  · dsimp only
    rw [Nat.le_zero]
    split
    · next hv =>
      rw [Option.some_inj]
      constructor
      · rintro rfl
        exact ⟨rfl, isDistance_zero_iff.2 hv⟩
      · exact fun h => h.1.symm
    · next hv =>
      refine ⟨fun h => (by cases h), ?_⟩
      rintro ⟨rfl, hd⟩
      exact absurd (isDistance_zero_iff.1 hd) hv
  · rw [List.nil_append, isDistance_zero_iff, Set.mem_ofPred_eq]

section Search
variable [DecidableEq V] [DecidablePred free]

def offer (n : ℕ) (s : Search V) (v : V) : Search V :=
  if free v ∧ s.mark v = none then ⟨Function.update s.mark v (some n), s.queue ++ [v]⟩ else s

def expand (n : ℕ) (s : Search V) (u : V) : Search V := (adj u).foldl (offer free n) s

/-- Takes the given number of vertices from the queue and expands them. -/
def expandFront (n : ℕ) : ℕ → Search V → Search V
  | 0, s => s
  | k + 1, s =>
    match s.queue with
    | [] => s
    | u :: rest => expandFront n k (expand adj free n ⟨s.mark, rest⟩ u)

def level (n : ℕ) (s : Search V) : Search V := expandFront adj free n s.queue.length s

/-- All the vertices on offer that are free and not yet found are found. -/
theorem foldl_offer (n : ℕ) (s : Search V) (vs : List V) :
    ∃ found, vs.foldl (offer free n) s =
        ⟨fun v => if v ∈ found then some n else s.mark v, s.queue ++ found⟩ ∧
      ∀ v, v ∈ found ↔ v ∈ vs ∧ free v ∧ s.mark v = none := by
  induction vs generalizing s with
  | nil => exact ⟨[], by simp, by simp⟩
  | cons w vs ih =>
    rw [List.foldl_cons]
    by_cases hw : free w ∧ s.mark w = none
    · obtain ⟨found, heq, hmem⟩ := ih ⟨Function.update s.mark w (some n), s.queue ++ [w]⟩
      have hother : ∀ v, v ≠ w → Function.update s.mark w (some n) v = s.mark v :=
        fun v hv => Function.update_of_ne hv _ _
      rw [offer, if_pos hw, heq]
      refine ⟨w :: found, ?_, fun v => ?_⟩
      · rw [List.append_assoc, List.singleton_append]
        congr 1
        funext v
        by_cases hv : v = w
        · simp [hv]
        · simp [hv]
      · rw [List.mem_cons, List.mem_cons, hmem]
        by_cases hv : v = w
        · simp [hv, hw]
        · simp [hv]
    · obtain ⟨found, heq, hmem⟩ := ih s
      rw [offer, if_neg hw, heq]
      refine ⟨found, rfl, fun v => ?_⟩
      rw [hmem, List.mem_cons]
      constructor
      · exact fun h => ⟨.inr h.1, h.2⟩
      · rintro ⟨rfl | hv, hrest⟩
        · exact absurd hrest hw
        · exact ⟨hv, hrest⟩

theorem foldl_offer_append (n : ℕ) (mark : V → Option ℕ) (front back vs : List V) :
    vs.foldl (offer free n) ⟨mark, front ++ back⟩ =
      ⟨(vs.foldl (offer free n) ⟨mark, back⟩).mark,
        front ++ (vs.foldl (offer free n) ⟨mark, back⟩).queue⟩ := by
  induction vs generalizing mark back with
  | nil => rfl
  | cons v vs ih =>
    rw [List.foldl_cons, List.foldl_cons, offer, offer]
    dsimp only
    split
    · rw [List.append_assoc]
      exact ih _ _
    · exact ih _ _

theorem expandFront_eq (n : ℕ) (front back : List V) (mark : V → Option ℕ) :
    expandFront adj free n front.length ⟨mark, front ++ back⟩ =
      (front.flatMap adj).foldl (offer free n) ⟨mark, back⟩ := by
  induction front generalizing back mark with
  | nil => rfl
  | cons u front ih =>
    have hstep := foldl_offer_append free n mark front back (adj u)
    rw [List.flatMap_cons, List.foldl_append, ← ih, ← hstep]
    rfl

theorem level_eq (n : ℕ) (s : Search V) :
    level adj free n s = (s.queue.flatMap adj).foldl (offer free n) ⟨s.mark, []⟩ := by
  have h := expandFront_eq adj free n s.queue [] s.mark
  rw [List.append_nil] at h
  exact h

variable {adj free S} {n : ℕ} {s : Search V}

theorem Reached.level (h : Reached adj free S n s) :
    Reached adj free S (n + 1) (level adj free (n + 1) s) := by
  obtain ⟨found, heq, hmem⟩ := foldl_offer free (n + 1) ⟨s.mark, []⟩
    (s.queue.flatMap adj)
  have hnext : ∀ v, v ∈ found ↔ IsDistance adj free S (n + 1) v := by
    intro v
    rw [hmem, List.mem_flatMap, isDistance_succ_iff, h.mark_eq_none]
    simp only [h.queue]
  rw [level_eq, heq]
  refine ⟨fun v d => ?_, hnext⟩
  dsimp only
  by_cases hv : v ∈ found
  · have hdist := (hnext v).1 hv
    rw [if_pos hv, Option.some_inj]
    constructor
    · rintro rfl
      exact ⟨le_rfl, hdist⟩
    · exact fun hd => isDistance_unique hdist hd.2
  · rw [if_neg hv, h.mark]
    refine and_congr_left fun hd => ⟨fun hle => by omega, fun hle => ?_⟩
    have hne : d ≠ n + 1 := fun heq' => hv ((hnext v).2 (heq' ▸ hd))
    omega

end Search
end BreadthFirst
