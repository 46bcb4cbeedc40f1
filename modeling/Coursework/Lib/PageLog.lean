import Mathlib.Data.Finset.Card
import Mathlib.Data.Set.Insert
import Mathlib.Logic.Function.Basic
import Mathlib.Algebra.Order.Group.Nat
import Mathlib.Order.Interval.Finset.Nat
import Mathlib.Tactic.Ring

/-! Log-structured storage. Values are appended to erase blocks of `P` pages, a map
gives the page that holds the current copy of each key, and a flag per page tells
whether that page may be dropped. One block is kept empty, so that the pages of another
one can be moved there before it is erased. -/

/-- Pages with their key and value, the map to current pages, and the page flags. -/
structure PageLog (κ ν : Type*) where
  cell : ℕ → Option (κ × ν)
  loc : κ → Option ℕ
  valid : ℕ → Bool

namespace PageLog

variable {κ ν : Type*} {L L' : PageLog κ ν}

/-- The value currently stored under a key. -/
def value (L : PageLog κ ν) (k : κ) : Option ν := (L.loc k).bind fun p => (L.cell p).map Prod.snd

/-- The map points at pages of the right key, and outside the set `S` of pages already
vacated a page is flagged valid unless it holds an outdated copy. -/
structure Consistent (S : Set ℕ) (L : PageLog κ ν) : Prop where
  located : ∀ {k p}, L.loc k = some p → p ∉ S ∧ ∃ v, L.cell p = some (k, v)
  valid_iff : ∀ {p}, p ∉ S → (L.valid p = true ↔ ∀ k v, L.cell p = some (k, v) → L.loc k = some p)

theorem value_eq_of_cell {k : κ} {v : ν} {p : ℕ} (hl : L.loc k = some p)
    (hc : L.cell p = some (k, v)) : L.value k = some v := by
  simp [value, hl, hc]

theorem Consistent.cell_ne_none {S : Set ℕ} (h : Consistent S L) (k : κ) (p : ℕ)
    (hl : L.loc k = some p) : L.cell p ≠ none := by
  obtain ⟨-, v, hv⟩ := h.located hl
  simp [hv]

theorem value_eq_none {S : Set ℕ} (h : Consistent S L) (k : κ) :
    L.value k = none ↔ L.loc k = none := by
  cases hl : L.loc k with
  | none => simp [value, hl]
  | some p =>
    obtain ⟨-, v, hv⟩ := h.located hl
    simp [value_eq_of_cell hl hv]

section Program
variable [DecidableEq κ]

/-- Store `v` under `k` at page `q` and redirect the map there. -/
def program (L : PageLog κ ν) (k : κ) (v : ν) (q : ℕ) : PageLog κ ν where
  cell := Function.update L.cell q (some (k, v))
  loc := Function.update L.loc k (some q)
  valid := L.valid

/-- Clear the flag of the page that holds the current copy of `k`, if there is one. -/
def discard (L : PageLog κ ν) (k : κ) : PageLog κ ν where
  cell := L.cell
  loc := L.loc
  valid := match L.loc k with
    | none => L.valid
    | some p => Function.update L.valid p false

/-- Remove a key from the map and clear the flag of its page. -/
def remove (L : PageLog κ ν) (k : κ) : PageLog κ ν where
  cell := L.cell
  loc := Function.update L.loc k none
  valid := (L.discard k).valid

variable {S : Set ℕ} {k : κ} {p q : ℕ}

theorem value_program (h : ∀ k p, L.loc k = some p → L.cell p ≠ none) (hq : L.cell q = none)
    (k : κ) (v : ν) : (L.program k v q).value = Function.update L.value k (some v) := by
  funext k'
  by_cases hk : k' = k
  · subst hk
    simp [value, program]
  · rw [Function.update_of_ne hk]
    cases hl : L.loc k' with
    | none => simp [value, program, hk, hl]
    | some p =>
      have hne : p ≠ q := by
        rintro rfl
        exact h k' p hl hq
      simp [value, program, hk, hl, hne]

theorem value_remove (L : PageLog κ ν) (k : κ) :
    (L.remove k).value = Function.update L.value k none := by
  funext k'
  by_cases hk : k' = k
  · subst hk
    simp [value, remove]
  · simp [value, remove, hk]

/-- Moving the current copy of `k` from `p` to the unwritten page `q` vacates `p`. -/
theorem Consistent.move (h : Consistent S L) (hp : L.loc k = some p) (hq : L.cell q = none)
    (hqS : q ∉ S) (v : ν) : Consistent (insert p S) (L.program k v q) := by
  obtain ⟨hpS, v₀, hv₀⟩ := h.located hp
  have hpq : p ≠ q := by
    rintro rfl
    simp [hq] at hv₀
  constructor
  · intro k' p' hl
    by_cases hk : k' = k
    · subst hk
      obtain rfl : q = p' := by simpa [program] using hl
      exact ⟨by simp [hpq.symm, hqS], v, by simp [program]⟩
    · have hl' : L.loc k' = some p' := by simpa [program, hk] using hl
      obtain ⟨hpS', v', hv'⟩ := h.located hl'
      have hne : p' ≠ p := by
        rintro rfl
        rw [hv₀] at hv'
        exact hk (Prod.mk.inj (Option.some.inj hv')).1.symm
      have hne' : p' ≠ q := by
        rintro rfl
        simp [hq] at hv'
      exact ⟨by simp [hne, hpS'], v', by simpa [program, hne'] using hv'⟩
  · intro p' hp'
    rw [Set.mem_insert_iff, not_or] at hp'
    have hold := h.valid_iff hp'.2
    by_cases hq' : p' = q
    · subst hq'
      have : L.valid p' = true := hold.mpr (by simp [hq])
      simp [program, this]
    · simp only [program, Function.update_of_ne hq']
      rw [hold]
      refine forall₃_congr fun k' v' hc => ?_
      by_cases hk : k' = k
      · subst hk
        simp [hp, Ne.symm hp'.1, Ne.symm hq']
      · simp [hk]

/-- Writing a new copy of `k` to the unwritten page `q`, after discarding the old one. -/
theorem Consistent.overwrite (h : Consistent S L) (hq : L.cell q = none) (hqS : q ∉ S) (k : κ)
    (v : ν) : Consistent S ((L.discard k).program k v q) := by
  have hvq : ∀ p', p' ∉ S → (L.discard k).valid p' = true →
      L.valid p' = true ∧ L.loc k ≠ some p' := by
    intro p' _ hv
    cases hl : L.loc k with
    | none => simpa [discard, hl] using hv
    | some p =>
      by_cases hp : p' = p
      · subst hp
        simp [discard, hl] at hv
      · have : L.valid p' = true := by simpa [discard, hl, hp] using hv
        simpa [Ne.symm hp] using this
  constructor
  · intro k' p' hl
    by_cases hk : k' = k
    · subst hk
      obtain rfl : q = p' := by simpa [program] using hl
      exact ⟨hqS, v, by simp [program]⟩
    · have hl' : L.loc k' = some p' := by simpa [program, hk, discard] using hl
      obtain ⟨hpS', v', hv'⟩ := h.located hl'
      have hne' : p' ≠ q := by
        rintro rfl
        simp [hq] at hv'
      exact ⟨hpS', v', by simpa [program, hne', discard] using hv'⟩
  · intro p' hp'
    have hold := h.valid_iff hp'
    by_cases hq' : p' = q
    · subst hq'
      have hv : L.valid p' = true := hold.mpr (by simp [hq])
      have hd : (L.discard k).valid p' = true := by
        cases hl : L.loc k with
        | none => simpa [discard, hl] using hv
        | some p =>
          have hne : p' ≠ p := by
            rintro rfl
            obtain ⟨-, v', hv'⟩ := h.located hl
            simp [hq] at hv'
          simpa [discard, hl, hne] using hv
      simp [program, hd]
    · constructor
      · intro hv k' v' hc
        obtain ⟨hv', hloc⟩ := hvq p' hp' hv
        have hc' : L.cell p' = some (k', v') := by
          simpa [program, hq', discard] using hc
        have hl := hold.mp hv' k' v' hc'
        have hk : k' ≠ k := by
          rintro rfl
          exact hloc hl
        simpa [program, hk, discard] using hl
      · intro hall
        have hv : L.valid p' = true := by
          refine hold.mpr fun k' v' hc => ?_
          have hl := hall k' v' (by simpa [program, hq', discard] using hc)
          have hk : k' ≠ k := by
            rintro rfl
            simp [program, Ne.symm hq'] at hl
          simpa [program, hk, discard] using hl
        cases hl : L.loc k with
        | none => simpa [program, discard, hl] using hv
        | some p =>
          have hne : p' ≠ p := by
            rintro rfl
            obtain ⟨-, v', hv'⟩ := h.located hl
            have := hall k v' (by simpa [program, hq', discard] using hv')
            simp [program, Ne.symm hq'] at this
          simpa [program, discard, hl, hne] using hv

/-- Dropping a key keeps the log consistent. -/
theorem Consistent.remove (h : Consistent S L) (k : κ) : Consistent S (L.remove k) := by
  constructor
  · intro k' p' hl
    by_cases hk : k' = k
    · subst hk
      simp [PageLog.remove] at hl
    · exact h.located (by simpa [PageLog.remove, hk] using hl)
  · intro p' hp'
    have hold := h.valid_iff hp'
    cases hl : L.loc k with
    | none =>
      have hloc : Function.update L.loc k none = L.loc := by rw [← hl, Function.update_eq_self]
      simpa [PageLog.remove, discard, hl, hloc] using hold
    | some p =>
      obtain ⟨-, v, hv⟩ := h.located hl
      by_cases hp : p' = p
      · subst hp
        simp only [PageLog.remove, discard, hl, Function.update_self, Bool.false_eq_true,
          false_iff, not_forall]
        exact ⟨k, v, hv, by simp⟩
      · simp only [PageLog.remove, discard, hl, Function.update_of_ne hp]
        rw [hold]
        refine forall₃_congr fun k' v' hc => ?_
        by_cases hk : k' = k
        · subst hk
          simp [hl, Ne.symm hp]
        · simp [hk]

end Program

section Erase

/-- Empty block `b` and flag its pages valid again. -/
def erase (P b : ℕ) (L : PageLog κ ν) : PageLog κ ν where
  cell := fun p => if p / P = b then none else L.cell p
  loc := L.loc
  valid := fun p => if p / P = b then true else L.valid p

variable {S : Set ℕ} {P b p : ℕ}

theorem Consistent.retire (h : Consistent S L) (hp : p ∉ S) (hv : L.valid p = false) :
    Consistent (insert p S) L := by
  constructor
  · intro k p' hl
    obtain ⟨hpS, v, hc⟩ := h.located hl
    refine ⟨?_, v, hc⟩
    rw [Set.mem_insert_iff, not_or]
    refine ⟨?_, hpS⟩
    rintro rfl
    have : L.valid p' = true := (h.valid_iff hp).mpr (by
      intro k' v' hc'
      rw [hc] at hc'
      obtain ⟨rfl, -⟩ := Prod.mk.inj (Option.some.inj hc')
      exact hl)
    simp [hv] at this
  · intro p' hp'
    rw [Set.mem_insert_iff, not_or] at hp'
    exact h.valid_iff hp'.2

theorem Consistent.erase (h : Consistent {p | p / P = b} L) : Consistent ∅ (L.erase P b) := by
  constructor
  · intro k p hl
    obtain ⟨hp, v, hc⟩ := h.located hl
    have hp' : ¬p / P = b := hp
    exact ⟨Set.notMem_empty p, v, by simpa [PageLog.erase, hp'] using hc⟩
  · intro p _
    by_cases hp : p / P = b
    · simp [PageLog.erase, hp]
    · simpa [PageLog.erase, hp] using h.valid_iff (p := p) hp

theorem value_erase (h : Consistent {p | p / P = b} L) : (L.erase P b).value = L.value := by
  funext k
  cases hl : L.loc k with
  | none => simp [value, PageLog.erase, hl]
  | some p =>
    have hp : ¬p / P = b := (h.located hl).1
    simp [value, PageLog.erase, hl, hp]

end Erase

/-- Valid written pages hold distinct keys, so a set of written pages larger than the set
of keys in use contains an invalid one. -/
theorem Consistent.exists_invalid (h : Consistent ∅ L) {D : Finset ℕ} {K : Finset κ}
    (hD : ∀ p ∈ D, (L.cell p).isSome) (hK : ∀ k p, L.loc k = some p → k ∈ K)
    (hcard : K.card < D.card) : ∃ p ∈ D, L.valid p = false := by
  by_contra hall
  have hv : ∀ p ∈ D, L.valid p = true := by
    intro p hp
    by_contra hne
    exact hall ⟨p, hp, by simpa using hne⟩
  have hkey : ∀ p ∈ D, ∃ k, L.loc k = some p := by
    intro p hp
    obtain ⟨⟨k, v⟩, hc⟩ := Option.isSome_iff_exists.mp (hD p hp)
    exact ⟨k, (h.valid_iff (Set.notMem_empty p)).mp (hv p hp) k v hc⟩
  obtain ⟨p₀, hp₀⟩ : D.Nonempty := Finset.card_pos.mp (by omega)
  have : Nonempty κ := ⟨(hkey p₀ hp₀).choose⟩
  choose! key hkey using hkey
  have hle : D.card ≤ K.card := by
    refine Finset.card_le_card_of_injOn key (fun p hp => hK _ _ (hkey p hp)) ?_
    intro p hp q hq he
    have h1 := hkey p hp
    rw [he, hkey q hq] at h1
    exact (Option.some.inj h1).symm
  omega

theorem Consistent.located_of_card (h : Consistent ∅ L) {D : Finset ℕ} {K : Finset κ}
    (hD : ∀ p, (L.cell p).isSome → p ∈ D) (hK : ∀ k ∈ K, L.loc k ≠ none)
    (hcard : D.card ≤ K.card) : ∀ p ∈ D, ∃ k, L.loc k = some p := by
  have hpage : ∀ k ∈ K, ∃ p, L.loc k = some p := fun k hk =>
    Option.ne_none_iff_exists'.mp (hK k hk)
  choose! page hpage using hpage
  have hmaps : Set.MapsTo page K D := by
    intro k hk
    obtain ⟨-, v, hv⟩ := h.located (hpage k hk)
    exact hD _ (by rw [hv]; rfl)
  have hinj : Set.InjOn page K := by
    intro k hk k' hk' he
    obtain ⟨-, v, hv⟩ := h.located (hpage k hk)
    obtain ⟨-, v', hv'⟩ := h.located (hpage k' hk')
    rw [he, hv'] at hv
    exact (Prod.mk.inj (Option.some.inj hv)).1.symm
  intro p hp
  obtain ⟨k, hk, rfl⟩ := Finset.surjOn_of_injOn_of_card_le page hmaps hinj hcard hp
  exact ⟨k, hpage k hk⟩

end PageLog
