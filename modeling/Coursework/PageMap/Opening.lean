import Coursework.PageMap.Collection

/-! What `garbage_collection` does to the row of a bank, for any victim: which pages move, and which
blocks are opened and erased. -/
namespace PageMap

variable {α : Type} {g : Geometry} {h : Hooks α} {bank victim : ℕ} {s : Bank α}

/-- The valid pages among the first `i` of a block. -/
def validCnt (g : Geometry) (isValid : ℕ → Bool) (pblk i : ℕ) : ℕ :=
  ((List.range i).filter fun j => isValid (pblk * g.pagesPerBlk + j)).length

theorem validCnt_succ (isValid : ℕ → Bool) (pblk i : ℕ) : validCnt g isValid pblk (i + 1) =
    validCnt g isValid pblk i + if isValid (pblk * g.pagesPerBlk + i) then 1 else 0 := by
  unfold validCnt
  rw [List.range_succ, List.filter_append, List.length_append, List.filter_singleton]
  cases isValid (pblk * g.pagesPerBlk + i) <;> rfl

theorem validCnt_le (isValid : ℕ → Bool) (pblk i : ℕ) : validCnt g isValid pblk i ≤ i := by
  have hle := List.length_filter_le (fun j => isValid (pblk * g.pagesPerBlk + j)) (List.range i)
  rwa [List.length_range] at hle

theorem validCnt_pos {isValid : ℕ → Bool} {pblk i : ℕ} : 0 < validCnt g isValid pblk i ↔
    ∃ j < i, isValid (pblk * g.pagesPerBlk + j) = true := by
  unfold validCnt
  rw [List.length_pos_iff_exists_mem]
  simp [List.mem_filter]

theorem validCnt_lt {isValid : ℕ → Bool} {pblk i : ℕ} : validCnt g isValid pblk i < i ↔
    ∃ j < i, isValid (pblk * g.pagesPerBlk + j) = false := by
  induction i with
  | zero => simp
  | succ i ih =>
    have hle := validCnt_le (g := g) isValid pblk i
    rw [validCnt_succ]
    cases hv : isValid (pblk * g.pagesPerBlk + i) with
    | false => exact iff_of_true (by simp; omega) ⟨i, by omega, hv⟩
    | true =>
      rw [if_pos rfl, Nat.add_lt_add_iff_right, ih]
      constructor
      · rintro ⟨j, hj, hjv⟩
        exact ⟨j, by omega, hjv⟩
      · rintro ⟨j, hj, hjv⟩
        refine ⟨j, lt_of_le_of_ne (by omega) fun he => ?_, hjv⟩
        rw [he, hv] at hjv
        cases hjv

/-- What the copy loop leaves alone, how many pages it has moved, and that it opens the spare block
with the first of them. -/
structure Moving (g : Geometry) (h : Hooks α) (victim : ℕ) (s : Bank α) (i : ℕ)
    (st : Bank α × ℕ) : Prop where
  isValid : st.1.isValid = s.isValid
  freePblk : st.1.freePblk = s.freePblk
  count : st.2 = validCnt g s.isValid victim i
  aux : st.1.aux = if st.2 = 0 then s.aux else h.opened s.freePblk s.freePblk s.aux

theorem gcLoop_moving (i : ℕ) : Moving g h victim s i (gcLoop g h bank victim s i) := by
  induction i with
  | zero => exact ⟨rfl, rfl, rfl, (if_pos rfl).symm⟩
  | succ i ih =>
    rw [gcLoop]
    generalize gcLoop g h bank victim s i = st at ih
    have hcount := validCnt_succ (g := g) s.isValid victim i
    unfold gcPage
    dsimp only
    rw [ih.isValid]
    cases hv : s.isValid (victim * g.pagesPerBlk + i) with
    | false =>
      rw [hv, if_neg (by decide), Nat.add_zero] at hcount
      rw [if_neg (by decide)]
      exact ⟨ih.isValid, ih.freePblk, ih.count.trans hcount.symm, ih.aux⟩
    | true =>
      rw [hv, if_pos rfl] at hcount
      rw [if_pos rfl]
      refine ⟨rfl, ih.freePblk, (congrArg (· + 1) ih.count).trans hcount.symm, ?_⟩
      dsimp only
      rw [if_neg (Nat.succ_ne_zero _), ih.aux, ih.freePblk]
      split <;> rfl

section Collect

theorem collect_nextPpn : (collect g h bank victim s).nextPpn =
    s.freePblk * g.pagesPerBlk + validCnt g s.isValid victim g.pagesPerBlk := by
  have hm : Moving g h victim s _ (gcLoop g h bank victim s g.pagesPerBlk) := gcLoop_moving _
  unfold collect
  dsimp only
  rw [hm.freePblk, hm.count]

theorem collect_gcTriggerPpn : (collect g h bank victim s).gcTriggerPpn =
    s.freePblk * g.pagesPerBlk + g.pagesPerBlk := by
  have hm : Moving g h victim s _ (gcLoop g h bank victim s g.pagesPerBlk) := gcLoop_moving _
  unfold collect
  dsimp only
  rw [hm.freePblk]

theorem collect_freePblk : (collect g h bank victim s).freePblk = victim := rfl

theorem collect_aux : (collect g h bank victim s).aux = h.erased victim
    (if validCnt g s.isValid victim g.pagesPerBlk = 0 then s.aux
      else h.opened s.freePblk s.freePblk s.aux) := by
  have hm : Moving g h victim s _ (gcLoop g h bank victim s g.pagesPerBlk) := gcLoop_moving _
  unfold collect
  dsimp only
  rw [hm.aux, hm.count]

end Collect

end PageMap
