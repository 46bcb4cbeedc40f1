import Coursework.Lib.PageLog
import Coursework.Lib.Paging

/-! Space management of a log that occupies the erase blocks `lo, …, hi - 1`: where the
next page goes, when the space is used up, and what compaction (moving the valid pages of
one block into the spare block and erasing it) does to the log. -/
namespace PageLog
open Paging

variable {κ ν : Type*} {P lo hi free next trig : ℕ} {L : PageLog κ ν}

/-- The log with spare block `free` and append position `next`: all pages of the other
blocks are written except those from `next` up to `trig`, where a block boundary is. -/
structure Space (P lo hi free next trig : ℕ) (L : PageLog κ ν) : Prop where
  consistent : Consistent ∅ L
  written_iff : ∀ {p}, (L.cell p).isSome ↔
    lo * P ≤ p ∧ p < hi * P ∧ p / P ≠ free ∧ (p < next ∨ trig ≤ p)
  le_free : lo ≤ free
  free_lt : free < hi
  lo_le : lo * P ≤ next
  next_le : next ≤ trig
  trig_le : trig ≤ hi * P
  aligned : P ∣ trig
  gap : ∀ p, next ≤ p → p < trig → p / P ≠ free

namespace Space

/-- In the block of the append position exactly the pages before it are written. -/
theorem block_prefix (h : Space P lo hi free next trig L) (hlt : next < trig) (q : ℕ)
    (hq : q / P = next / P) : (L.cell q).isSome ↔ q < next := by
  have hP : 0 < P := by
    rcases Nat.eq_zero_or_pos P with h0 | h0
    · have := h.aligned
      simp only [h0, zero_dvd_iff] at this
      omega
    · exact h0
  obtain ⟨t, ht⟩ := h.aligned
  have hb : next / P < t := Nat.div_lt_of_lt_mul (by rwa [ht] at hlt)
  have hqt : q < trig := by
    rw [ht, Nat.mul_comm, ← Nat.div_lt_iff_lt_mul hP, hq]
    exact hb
  have hlo : lo * P ≤ q := by
    have hlo' : lo ≤ next / P := (Nat.le_div_iff_mul_le hP).mpr h.lo_le
    rw [← hq] at hlo'
    exact (Nat.le_div_iff_mul_le hP).mp hlo'
  have hfree : q / P ≠ free := by
    rw [hq]
    exact h.gap next le_rfl hlt
  rw [h.written_iff]
  have := h.trig_le
  constructor
  · rintro ⟨-, -, -, h4⟩
    omega
  · intro hqn
    exact ⟨hlo, by omega, hfree, Or.inl hqn⟩

theorem cell_next (h : Space P lo hi free next trig L) (hlt : next < trig) :
    L.cell next = none := by
  rw [← Option.not_isSome_iff_eq_none, h.block_prefix hlt next rfl]
  exact lt_irrefl _

theorem full (h : Space P lo hi free next trig L) (he : next = trig) {b i : ℕ} (hb : b ≠ free)
    (hlo : lo ≤ b) (hhi : b < hi) (hi : i < P) : (L.cell (b * P + i)).isSome := by
  rw [h.written_iff, div_page hi]
  refine ⟨?_, page_lt hhi hi, hb, by omega⟩
  calc lo * P ≤ b * P := Nat.mul_le_mul_right P hlo
    _ ≤ b * P + i := Nat.le_add_right _ _

theorem valid_of_unwritten (h : Space P lo hi free next trig L) {p : ℕ}
    (hp : L.cell p = none) : L.valid p = true :=
  (h.consistent.valid_iff (Set.notMem_empty p)).mpr (by simp [hp])

/-- The pages outside the spare block. -/
def outside (P lo hi free : ℕ) : Finset ℕ :=
  (Finset.Ico (lo * P) (hi * P)).filter fun p => p / P ≠ free

theorem mem_outside (h : Space P lo hi free next trig L) (he : next = trig) {p : ℕ} :
    p ∈ outside P lo hi free ↔ (L.cell p).isSome := by
  rw [h.written_iff, outside, Finset.mem_filter, Finset.mem_Ico]
  omega

theorem card_outside (hP : 0 < P) (hlo : lo ≤ free) (hhi : free < hi) :
    (outside P lo hi free).card = (hi - lo - 1) * P := by
  have hfree : ((Finset.Ico (lo * P) (hi * P)).filter fun p => p / P = free) =
      Finset.Ico (free * P) (free * P + P) := by
    ext p
    rw [Finset.mem_filter, Finset.mem_Ico, Finset.mem_Ico]
    have h1 := Nat.div_add_mod p P
    have h2 := Nat.mod_lt p hP
    rw [Nat.mul_comm] at h1
    constructor
    · rintro ⟨-, rfl⟩
      omega
    · rintro ⟨h3, h4⟩
      have hdiv : p / P = free := by
        obtain ⟨i, rfl⟩ := Nat.exists_eq_add_of_le h3
        exact div_page (by omega)
      have h5 : lo * P ≤ free * P := Nat.mul_le_mul_right P hlo
      have h6 : (free + 1) * P ≤ hi * P := Nat.mul_le_mul_right P hhi
      rw [Nat.add_mul, Nat.one_mul] at h6
      omega
  have hsplit := Finset.card_filter_add_card_filter_not (s := Finset.Ico (lo * P) (hi * P))
    (fun p => p / P = free)
  rw [hfree, Nat.card_Ico, Nat.card_Ico] at hsplit
  have hmul : (hi - lo - 1) * P = hi * P - lo * P - P := by
    rw [Nat.sub_mul, Nat.sub_mul, Nat.one_mul]
  have he : (outside P lo hi free).card =
    ((Finset.Ico (lo * P) (hi * P)).filter fun p => ¬p / P = free).card := rfl
  omega

/-- If the keys in use are fewer than the pages outside the spare block, a log whose space
is used up has an invalid page outside the spare block. -/
theorem exists_invalid (h : Space P lo hi free next trig L) (he : next = trig)
    {K : Finset κ} (hK : ∀ k p, L.loc k = some p → k ∈ K)
    (hcard : K.card < (hi - lo - 1) * P) :
    ∃ b i, lo ≤ b ∧ b < hi ∧ b ≠ free ∧ i < P ∧ L.valid (b * P + i) = false := by
  have hP : 0 < P := by
    rcases Nat.eq_zero_or_pos P with h0 | h0
    · simp [h0] at hcard
    · exact h0
  obtain ⟨p, hp, hv⟩ := h.consistent.exists_invalid (D := outside P lo hi free) (K := K)
    (fun p hp => (h.mem_outside he).mp hp) hK (by rwa [card_outside hP h.le_free h.free_lt])
  obtain ⟨hp, hne⟩ := Finset.mem_filter.mp hp
  obtain ⟨h1, h2⟩ := Finset.mem_Ico.mp hp
  refine ⟨p / P, p % P, (Nat.le_div_iff_mul_le hP).mpr h1, (Nat.div_lt_iff_lt_mul hP).mpr h2,
    hne, Nat.mod_lt p hP, ?_⟩
  rwa [div_mul_add_mod]

/-- If the keys in use are as many as the pages outside the spare block, every page of a log
whose space is used up is a current copy. -/
theorem all_located (h : Space P lo hi free next trig L) (he : next = trig) (hP : 0 < P)
    {K : Finset κ} (hK : ∀ k ∈ K, L.loc k ≠ none) (hcard : (hi - lo - 1) * P ≤ K.card) {p : ℕ}
    (hp : (L.cell p).isSome) : ∃ k, L.loc k = some p :=
  h.consistent.located_of_card (D := outside P lo hi free) (fun _ hq => (h.mem_outside he).mpr hq)
    hK (by rwa [card_outside hP h.le_free h.free_lt]) p ((h.mem_outside he).mpr hp)

variable [DecidableEq κ]

/-- Appending a new copy of a key. -/
theorem append (h : Space P lo hi free next trig L) (hlt : next < trig) (k : κ) (v : ν) :
    Space P lo hi free (next + 1) trig ((L.discard k).program k v next) where
  consistent := h.consistent.overwrite (h.cell_next hlt) (Set.notMem_empty _) k v
  written_iff := by
    intro p
    have hold := h.written_iff (p := p)
    have h1 := h.lo_le
    have h2 := h.trig_le
    have h3 := h.gap next le_rfl hlt
    by_cases hp : p = next
    · subst hp
      simp [program, h1, h3, hlt.trans_le h2]
    · simp only [program, discard, Function.update_of_ne hp]
      rw [hold]
      have : p < next ↔ p < next + 1 := by omega
      rw [this]
  le_free := h.le_free
  free_lt := h.free_lt
  lo_le := h.lo_le.trans (Nat.le_succ _)
  next_le := hlt
  trig_le := h.trig_le
  aligned := h.aligned
  gap := fun p hp => h.gap p (by omega)

theorem value_append (h : Space P lo hi free next trig L) (hlt : next < trig) (k : κ) (v : ν) :
    ((L.discard k).program k v next).value = Function.update L.value k (some v) :=
  value_program (L := L.discard k) h.consistent.cell_ne_none (h.cell_next hlt) k v

theorem remove (h : Space P lo hi free next trig L) (k : κ) :
    Space P lo hi free next trig (L.remove k) where
  consistent := h.consistent.remove k
  written_iff := h.written_iff
  le_free := h.le_free
  free_lt := h.free_lt
  lo_le := h.lo_le
  next_le := h.next_le
  trig_le := h.trig_le
  aligned := h.aligned
  gap := h.gap

end Space

/-- Compaction of block `victim` into the spare block `free`, in the middle: the first `i`
pages of the victim have been visited and `c` of them moved. Keys in `C` may have been given
another value on the way (a newer one that was still cached). -/
structure Compacting (P victim free : ℕ) (C : Set κ) (L₀ : PageLog κ ν) (i c : ℕ)
    (L : PageLog κ ν) : Prop where
  consistent : Consistent {p | p / P = victim ∧ p % P < i} L
  value_eq : ∀ k, k ∉ C → L.value k = L₀.value k
  loc_none : ∀ k, L.loc k = none ↔ L₀.loc k = none
  cell_other : ∀ p, p / P ≠ free → L.cell p = L₀.cell p
  cell_free : ∀ p, p / P = free → ((L.cell p).isSome ↔ p % P < c)
  valid_eq : L.valid = L₀.valid
  count_eq : c = ((List.range i).filter fun j => L₀.valid (victim * P + j)).length

namespace Compacting

variable {victim : ℕ} {C : Set κ} {L₀ : PageLog κ ν} {i c : ℕ}

theorem count_le (h : Compacting P victim free C L₀ i c L) : c ≤ i := by
  rw [h.count_eq]
  exact (List.length_filter_le _ _).trans_eq List.length_range

theorem count_add (h : Compacting P victim free C L₀ P c L) :
    c + clearCount P L₀.valid victim = P := by
  rw [h.count_eq, clearCount]
  have hsplit := List.length_eq_length_filter_add (l := List.range P)
    fun j => L₀.valid (victim * P + j)
  rw [List.length_range] at hsplit
  exact hsplit.symm

theorem count_lt (h : Compacting P victim free C L₀ P c L)
    (hinv : ∃ j < P, L₀.valid (victim * P + j) = false) : c < P := by
  have h1 := h.count_add
  have h2 := clearCount_pos.mpr hinv
  omega

private theorem visited_succ (hi : i < P) :
    {p | p / P = victim ∧ p % P < i + 1} =
      insert (victim * P + i) {p | p / P = victim ∧ p % P < i} := by
  ext p
  simp only [Set.mem_ofPred_eq, Set.mem_insert_iff]
  constructor
  · rintro ⟨h1, h2⟩
    by_cases hp : p % P = i
    · left
      rw [← h1, ← hp, div_mul_add_mod]
    · right
      omega
  · rintro (rfl | h)
    · rw [div_page hi, mod_page hi]
      omega
    · omega

theorem start (h : Space P lo hi free next trig L₀) : Compacting P victim free C L₀ 0 0 L₀ where
  consistent := by simpa using h.consistent
  value_eq := fun _ _ => rfl
  loc_none := fun _ => Iff.rfl
  cell_other := fun _ _ => rfl
  cell_free := by
    intro p hp
    rw [h.written_iff]
    constructor
    · exact fun hc => absurd hp hc.2.2.1
    · intro hc
      omega
  valid_eq := rfl
  count_eq := rfl

theorem skip (h : Compacting P victim free C L₀ i c L) (hi : i < P)
    (hv : L₀.valid (victim * P + i) = false) : Compacting P victim free C L₀ (i + 1) c L where
  consistent := by
    rw [visited_succ hi]
    apply h.consistent.retire
    · simp [div_page hi, mod_page hi]
    · rw [h.valid_eq]
      exact hv
  value_eq := h.value_eq
  loc_none := h.loc_none
  cell_other := h.cell_other
  cell_free := h.cell_free
  valid_eq := h.valid_eq
  count_eq := by
    rw [List.range_succ, List.filter_append, List.length_append, ← h.count_eq]
    simp [hv]

theorem located (h : Compacting P victim free C L₀ i c L) (hi : i < P)
    (hv : L₀.valid (victim * P + i) = true) {k : κ} {v : ν}
    (hc : L.cell (victim * P + i) = some (k, v)) : L.loc k = some (victim * P + i) := by
  refine (h.consistent.valid_iff ?_).mp (by rw [h.valid_eq]; exact hv) k v hc
  simp [div_page hi, mod_page hi]

theorem cell_dest (h : Compacting P victim free C L₀ i c L) (hi : i < P) :
    L.cell (free * P + c) = none := by
  have hc := h.count_le
  have := h.cell_free (free * P + c) (div_page (by omega))
  rw [mod_page (by omega)] at this
  rw [← Option.not_isSome_iff_eq_none, this]
  exact lt_irrefl _

variable [DecidableEq κ]

/-- Moving a valid page. Its key keeps its value, or is one of `C`. -/
theorem move (h : Compacting P victim free C L₀ i c L) (hne : victim ≠ free) (hi : i < P)
    (hv : L₀.valid (victim * P + i) = true) {k : κ} {v : ν}
    (hc : L.cell (victim * P + i) = some (k, v)) (v' : ν) (hv' : k ∉ C → v' = v) :
    Compacting P victim free C L₀ (i + 1) (c + 1) (L.program k v' (free * P + c)) := by
  have hcP : c < P := by
    have := h.count_le
    omega
  have hloc := h.located hi hv hc
  have hdest := h.cell_dest hi
  have hdS : free * P + c ∉ {p | p / P = victim ∧ p % P < i} := by
    simp [div_page hcP, Ne.symm hne]
  constructor
  · rw [visited_succ hi]
    exact h.consistent.move hloc hdest hdS v'
  · intro k' hk'
    rw [value_program h.consistent.cell_ne_none hdest]
    by_cases hk : k' = k
    · subst hk
      rw [Function.update_self, ← h.value_eq k' hk', hv' hk', value_eq_of_cell hloc hc]
    · rw [Function.update_of_ne hk]
      exact h.value_eq k' hk'
  · intro k'
    by_cases hk : k' = k
    · subst hk
      have := h.loc_none k'
      simp [hloc] at this
      simp [program, this]
    · simpa [program, hk] using h.loc_none k'
  · intro p hp
    have hpd : p ≠ free * P + c := by
      rintro rfl
      exact hp (div_page hcP)
    simpa [program, hpd] using h.cell_other p hp
  · intro p hp
    have hold := h.cell_free p hp
    by_cases hpd : p = free * P + c
    · subst hpd
      simp [program, mod_page hcP]
    · have hmod : p % P ≠ c := by
        intro hm
        apply hpd
        rw [← hp, ← hm, div_mul_add_mod]
      simp only [program, Function.update_of_ne hpd]
      rw [hold]
      omega
  · exact h.valid_eq
  · rw [List.range_succ, List.filter_append, List.length_append, ← h.count_eq]
    simp [hv]

omit [DecidableEq κ] in
/-- Erasing the victim ends the compaction: it becomes the spare block, and the append
position follows the moved pages. -/
theorem finish (h : Compacting P victim free C L₀ P c L)
    (h₀ : Space P lo hi free next trig L₀) (he : next = trig) (hne : victim ≠ free)
    (hlo : lo ≤ victim) (hhi : victim < hi) (hP : 0 < P) :
    Space P lo hi victim (free * P + c) (free * P + P) (L.erase P victim) := by
  have hS : {p | p / P = victim ∧ p % P < P} = {p | p / P = victim} := by
    ext p
    simp [Nat.mod_lt p hP]
  have hcons := h.consistent
  rw [hS] at hcons
  have hcP := h.count_le
  have hfree : (free + 1) * P ≤ hi * P := Nat.mul_le_mul_right P h₀.free_lt
  have hfP : (free + 1) * P = free * P + P := by ring
  have hin (p : ℕ) : p / P = free ↔ free * P ≤ p ∧ p < free * P + P := div_eq_iff_range hP
  constructor
  · exact hcons.erase
  · intro p
    by_cases hpv : p / P = victim
    · simp [erase, hpv]
    · simp only [erase, hpv, ↓reduceIte, ne_eq, not_false_eq_true, true_and]
      by_cases hpf : p / P = free
      · rw [h.cell_free p hpf]
        have h1 := (hin p).mp hpf
        have h2 : p % P = p - free * P := by
          have := Nat.div_add_mod p P
          rw [hpf, Nat.mul_comm] at this
          omega
        have hlo' : lo * P ≤ free * P := Nat.mul_le_mul_right P h₀.le_free
        omega
      · rw [h.cell_other p hpf, h₀.written_iff]
        have h1 := mt (hin p).mpr hpf
        constructor
        · rintro ⟨h2, h3, -, -⟩
          exact ⟨h2, h3, by omega⟩
        · rintro ⟨h2, h3, -⟩
          exact ⟨h2, h3, hpf, by omega⟩
  · exact hlo
  · exact hhi
  · have := Nat.mul_le_mul_right P h₀.le_free
    omega
  · omega
  · omega
  · exact ⟨free + 1, by rw [← hfP, Nat.mul_comm]⟩
  · intro p h1 h2
    rw [(hin p).mpr ⟨by omega, h2⟩]
    exact hne.symm

omit [DecidableEq κ] in
theorem value_finish (h : Compacting P victim free C L₀ P c L) (hP : 0 < P) (k : κ) (hk : k ∉ C) :
    (L.erase P victim).value k = L₀.value k := by
  have hS : {p | p / P = victim ∧ p % P < P} = {p | p / P = victim} := by
    ext p
    simp [Nat.mod_lt p hP]
  have hcons := h.consistent
  rw [hS] at hcons
  rw [value_erase hcons]
  exact h.value_eq k hk

end Compacting

end PageLog
