import Coursework.BufferedFtl.Policies

/-! Which blocks of a bank have an age. Collection and page writes keep a block's age from `-1`
exactly while the block has a programmed page. -/
namespace BufferedFtl
open Nand Sector PageMap

/-- A block other than the free one that has a programmed page. -/
def Opened (r : Row Wear) (blk : ℕ) : Prop :=
  blk < blksPerBank ∧ blk ≠ r.freePblk ∧
    (blk * pagesPerBlk < r.nextPpn ∨ r.gcTriggerPpn ≤ blk * pagesPerBlk)

/-- Exactly the opened blocks have an age, which is positive. -/
structure AgesFit (r : Row Wear) : Prop where
  fresh : ∀ blk < blksPerBank, ¬Opened r blk → r.aux.age blk = -1
  aged : ∀ blk, Opened r blk → 1 ≤ r.aux.age blk

theorem AgesFit.opened_iff {r : Row Wear} (h : AgesFit r) {blk : ℕ} (hblk : blk < blksPerBank) :
    Opened r blk ↔ r.aux.age blk ≠ -1 := by
  constructor
  · intro ho
    have := h.aged blk ho
    omega
  · intro ha
    by_contra ho
    exact ha (h.fresh blk hblk ho)

theorem ageUpdate_age {freePblk target : ℕ} (ht : target < blksPerBank) (w : Wear) (blk : ℕ) :
    (ageUpdate freePblk target w).age blk =
      if blk = target then 1
      else if blk < blksPerBank ∧ ¬(w.age blk = -1 ∨ w.age blk = freePblk) then w.age blk + 1
      else w.age blk := by
  unfold ageUpdate
  rw [if_neg (by omega)]
  dsimp only
  rw [Function.update_apply]

theorem ageUpdate_fresh {freePblk target : ℕ} (ht : target < blksPerBank) (w : Wear) {blk : ℕ}
    (hne : blk ≠ target) (hage : w.age blk = -1) : (ageUpdate freePblk target w).age blk = -1 := by
  rw [ageUpdate_age ht, if_neg hne, if_neg (fun hc => hc.2 (.inl hage)), hage]

theorem ageUpdate_aged {freePblk target : ℕ} (ht : target < blksPerBank) (w : Wear) {blk : ℕ}
    (hage : blk = target ∨ 1 ≤ w.age blk) : 1 ≤ (ageUpdate freePblk target w).age blk := by
  rw [ageUpdate_age ht]
  split_ifs with h1 h2
  · exact le_rfl
  · have := hage.resolve_left h1
    omega
  · exact hage.resolve_left h1

section Collect
variable {s : Bank Wear} {bank victim : ℕ}

theorem opened_of_full {r : Row Wear} (he : r.nextPpn = r.gcTriggerPpn) {blk : ℕ}
    (hblk : blk < blksPerBank) : Opened r blk ↔ blk ≠ r.freePblk := by
  unfold Opened
  have hpages : blk * pagesPerBlk < r.nextPpn ∨ r.gcTriggerPpn ≤ blk * pagesPerBlk := by
    rw [he]
    exact lt_or_ge _ _
  exact ⟨fun h => h.2.1, fun h => ⟨hblk, h, hpages⟩⟩

/-- What is open after collection: not the victim, and the old free block only if a page was
moved there. -/
theorem opened_collect {blk : ℕ} :
    Opened (collect geometry hooks bank victim s).toRow blk ↔ blk < blksPerBank ∧ blk ≠ victim ∧
      (blk = s.freePblk → validPages s victim ≠ 0) := by
  unfold Opened
  have hnext : (collect geometry hooks bank victim s).nextPpn =
      s.freePblk * pagesPerBlk + validPages s victim := collect_nextPpn
  have htrig : (collect geometry hooks bank victim s).gcTriggerPpn =
      s.freePblk * pagesPerBlk + pagesPerBlk := collect_gcTriggerPpn
  rw [hnext, htrig, collect_freePblk]
  have hle : validPages s victim ≤ 16 := validCnt_le _ _ _
  change _ ∧ _ ∧ (blk * 16 < s.freePblk * 16 + validPages s victim ∨
    s.freePblk * 16 + 16 ≤ blk * 16) ↔ _
  constructor
  · rintro ⟨h1, h2, h3⟩
    refine ⟨h1, h2, ?_⟩
    rintro rfl
    omega
  · rintro ⟨h1, h2, h3⟩
    refine ⟨h1, h2, ?_⟩
    by_cases he : blk = s.freePblk
    · have := h3 he
      omega
    · omega

theorem collect_age (bank : ℕ) (blk : ℕ) :
    (collect geometry hooks bank victim s).aux.age blk = if blk = victim then -1
      else if validPages s victim = 0 then s.aux.age blk
      else (ageUpdate s.freePblk s.freePblk s.aux).age blk := by
  have haux : (collect geometry hooks bank victim s).aux = hooks.erased victim
      (if validPages s victim = 0 then s.aux else ageUpdate s.freePblk s.freePblk s.aux) :=
    collect_aux
  rw [haux]
  change Function.update _ victim (-1) blk = _
  rw [Function.update_apply]
  split_ifs <;> rfl

theorem AgesFit.collect (h : AgesFit s.toRow) (he : s.nextPpn = s.gcTriggerPpn)
    (hfree : s.freePblk < blksPerBank) :
    AgesFit (collect geometry hooks bank victim s).toRow := by
  constructor
  · intro blk hblk hno
    rw [opened_collect] at hno
    rw [collect_age]
    by_cases hv : blk = victim
    · rw [if_pos hv]
    · rw [if_neg hv]
      have hold : blk = s.freePblk ∧ validPages s victim = 0 := by
        by_contra hc
        exact hno ⟨hblk, hv, fun hf h0 => hc ⟨hf, h0⟩⟩
      rw [if_pos hold.2]
      exact h.fresh blk hblk (by rw [opened_of_full he hblk]; exact fun hc => hc hold.1)
  · intro blk ho
    rw [opened_collect] at ho
    obtain ⟨hblk, hv, hmoved⟩ := ho
    rw [collect_age, if_neg hv]
    have hold : blk ≠ s.freePblk → 1 ≤ s.aux.age blk := fun hf =>
      h.aged blk ((opened_of_full he hblk).mpr hf)
    split_ifs with h0
    · exact hold fun hf => hmoved hf h0
    · exact ageUpdate_aged hfree _ (or_iff_not_imp_left.mpr hold)

end Collect

section Append
variable {s : Bank Wear} {bank lpn : ℕ} {data : Sectors}

theorem opened_appendLpn (hlt : s.nextPpn < s.gcTriggerPpn)
    (htrig : s.gcTriggerPpn ≤ blksPerBank * pagesPerBlk)
    (hgap : s.nextPpn / pagesPerBlk ≠ s.freePblk) {blk : ℕ} :
    Opened (appendLpn geometry hooks bank lpn data s).toRow blk ↔
      Opened s.toRow blk ∨ s.nextPpn % pagesPerBlk = 0 ∧ blk = s.nextPpn / pagesPerBlk := by
  unfold Opened
  change _ < 32 ∧ _ ∧ (blk * 16 < s.nextPpn + 1 ∨ s.gcTriggerPpn ≤ blk * 16) ↔
    (_ < 32 ∧ _ ∧ (blk * 16 < s.nextPpn ∨ s.gcTriggerPpn ≤ blk * 16)) ∨
      s.nextPpn % 16 = 0 ∧ blk = s.nextPpn / 16
  change s.gcTriggerPpn ≤ 32 * 16 at htrig
  change s.nextPpn / 16 ≠ s.freePblk at hgap
  constructor
  · rintro ⟨h1, h2, h3⟩
    by_cases hb : blk * 16 = s.nextPpn
    · exact .inr ⟨by omega, by omega⟩
    · exact .inl ⟨h1, h2, by omega⟩
  · rintro (⟨h1, h2, h3⟩ | ⟨h1, rfl⟩)
    · exact ⟨h1, h2, by omega⟩
    · exact ⟨by omega, hgap, by omega⟩

theorem appendLpn_age : (appendLpn geometry hooks bank lpn data s).aux =
    if s.nextPpn % pagesPerBlk = 0 then
      ageUpdate s.freePblk (s.nextPpn / pagesPerBlk) s.aux
    else s.aux := rfl

theorem AgesFit.appendLpn (h : AgesFit s.toRow) (hlt : s.nextPpn < s.gcTriggerPpn)
    (htrig : s.gcTriggerPpn ≤ blksPerBank * pagesPerBlk)
    (hgap : s.nextPpn / pagesPerBlk ≠ s.freePblk) :
    AgesFit (appendLpn geometry hooks bank lpn data s).toRow := by
  have htarget : s.nextPpn / pagesPerBlk < blksPerBank := by
    change s.nextPpn / 16 < 32
    change _ ≤ 32 * 16 at htrig
    omega
  constructor
  · intro blk hblk hno
    rw [opened_appendLpn hlt htrig hgap, not_or] at hno
    rw [appendLpn_age]
    split_ifs with h0
    · exact ageUpdate_fresh htarget _ (fun he => hno.2 ⟨h0, he⟩) (h.fresh blk hblk hno.1)
    · exact h.fresh blk hblk hno.1
  · intro blk ho
    rw [opened_appendLpn hlt htrig hgap] at ho
    rw [appendLpn_age]
    split_ifs with h0
    · exact ageUpdate_aged htarget _ (ho.symm.imp (·.2) (h.aged blk))
    · exact h.aged blk (ho.resolve_right fun hc => h0 hc.1)

end Append

end BufferedFtl
