import Mathlib.Data.List.Basic
import Mathlib.Data.List.Nodup
import Mathlib.Logic.Function.Basic

/-! One pass over a list of keys that takes each entry out of a store where it meets it,
and the list of what it took. -/
namespace Sweep

variable {α β : Type*} [DecidableEq α]

/-- What the pass takes, in order. -/
def sweep (m : α → Option β) : List α → List (α × β)
  | [] => []
  | k :: ks =>
    match m k with
    | none => sweep m ks
    | some b => (k, b) :: sweep (Function.update m k none) ks

/-- What the pass leaves. -/
def rest (m : α → Option β) (ks : List α) : α → Option β :=
  fun k => if k ∈ ks then none else m k

@[simp] theorem rest_nil (m : α → Option β) : rest m [] = m := by
  funext k
  simp [rest]

theorem rest_rest (m : α → Option β) (ks ls : List α) :
    rest (rest m ks) ls = rest m (ks ++ ls) := by
  funext k
  by_cases h : k ∈ ks <;> by_cases h' : k ∈ ls <;> simp [rest, h, h']

theorem rest_update (m : α → Option β) (k : α) (ks : List α) :
    rest (Function.update m k none) ks = rest m (k :: ks) := by
  funext j
  by_cases e : j = k <;> by_cases h : j ∈ ks <;> simp [rest, e, h]

theorem rest_cons_of_none {m : α → Option β} {k : α} (h : m k = none) (ks : List α) :
    rest m (k :: ks) = rest m ks := by
  funext j
  by_cases e : j = k
  · subst e
    simp [rest, h]
  · simp [rest, e]

theorem sweep_append (m : α → Option β) (ks ls : List α) :
    sweep m (ks ++ ls) = sweep m ks ++ sweep (rest m ks) ls := by
  induction ks generalizing m with
  | nil => simp [sweep]
  | cons k ks ih =>
    simp only [List.cons_append, sweep]
    cases h : m k with
    | none => rw [ih, rest_cons_of_none h]
    | some b =>
      show (k, b) :: sweep _ (ks ++ ls) = (k, b) :: (sweep _ ks ++ sweep _ ls)
      rw [ih, rest_update]

theorem mem_sweep {m : α → Option β} {ks : List α} {k : α} {b : β} :
    (k, b) ∈ sweep m ks ↔ k ∈ ks ∧ m k = some b := by
  induction ks generalizing m with
  | nil => simp [sweep]
  | cons j ks ih =>
    simp only [sweep]
    cases h : m j with
    | none =>
      by_cases e : k = j
      · subst e
        simp [ih, h]
      · simp [ih, e]
    | some c =>
      by_cases e : k = j
      · subst e
        simp [ih, h, eq_comm]
      · simp [ih, e]

theorem nodup_sweep (m : α → Option β) (ks : List α) : ((sweep m ks).map Prod.fst).Nodup := by
  induction ks generalizing m with
  | nil => simp [sweep]
  | cons k ks ih =>
    simp only [sweep]
    cases h : m k with
    | none => exact ih m
    | some b =>
      rw [List.map_cons, List.nodup_cons]
      refine ⟨?_, ih _⟩
      intro hk
      obtain ⟨⟨k', c⟩, hmem, rfl⟩ := List.mem_map.1 hk
      have := (mem_sweep.1 hmem).2
      simp at this

/-- A value is taken exactly once just when exactly one of the keys holds it. -/
theorem count_sweep_eq_one {γ : Type*} [DecidableEq γ] {m : α → Option β} {ks : List α}
    (g : β → γ) (c : γ) :
    ((sweep m ks).filter fun e => g e.2 = c).length = 1 ↔
      ∃ k b, k ∈ ks ∧ m k = some b ∧ g b = c ∧
        ∀ k' b', k' ∈ ks → m k' = some b' → g b' = c → k' = k := by
  constructor
  · intro h
    obtain ⟨⟨k, b⟩, hl⟩ := List.length_eq_one_iff.1 h
    have hmem : (k, b) ∈ (sweep m ks).filter fun e => g e.2 = c := by simp [hl]
    obtain ⟨hs, hg⟩ := List.mem_filter.1 hmem
    refine ⟨k, b, (mem_sweep.1 hs).1, (mem_sweep.1 hs).2, by simpa using hg, ?_⟩
    intro k' b' hk' hm' hg'
    have : (k', b') ∈ (sweep m ks).filter fun e => g e.2 = c :=
      List.mem_filter.2 ⟨mem_sweep.2 ⟨hk', hm'⟩, by simpa using hg'⟩
    rw [hl, List.mem_singleton, Prod.mk.injEq] at this
    exact this.1
  · rintro ⟨k, b, hk, hm, hg, huniq⟩
    have hnd : (sweep m ks).Nodup := (nodup_sweep m ks).of_map
    have hnd' := hnd.filter fun e => g e.2 = c
    have hmem : (k, b) ∈ (sweep m ks).filter fun e => g e.2 = c :=
      List.mem_filter.2 ⟨mem_sweep.2 ⟨hk, hm⟩, by simpa using hg⟩
    have hsub : ∀ e ∈ (sweep m ks).filter fun e => g e.2 = c, e = (k, b) := by
      rintro ⟨k', b'⟩ he
      obtain ⟨hs, hg'⟩ := List.mem_filter.1 he
      obtain ⟨hk', hm'⟩ := mem_sweep.1 hs
      have e := huniq k' b' hk' hm' (by simpa using hg')
      subst e
      rw [hm] at hm'
      rw [Option.some.inj hm']
    generalize (sweep m ks).filter (fun e => decide (g e.2 = c)) = l at hnd' hmem hsub
    cases l with
    | nil => simp at hmem
    | cons e l =>
      cases l with
      | nil => rfl
      | cons e' l =>
        have h1 := hsub e (by simp)
        have h2 := hsub e' (by simp)
        simp [h1, h2] at hnd'

end Sweep
