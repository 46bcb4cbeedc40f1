import Coursework.Nand.Simulator

/-! The contents of the NAND as its clients see them: the page stored at an address,
or nothing. Each operation is specified on this view, so that no client proof
looks at the flat arrays. -/
namespace Nand.Device

variable {δ σ : Type}

/-- The page at an address, if it has been written since its block's last erase. -/
def cell (n : Device δ σ) (bank blk page : ℕ) : Option (Page δ σ) :=
  if n.InRange bank blk page ∧ n.iswritten (n.pageIdx bank blk page) = true then
    some (n.nand (n.pageIdx bank blk page))
  else none

/-- The page with the given page number of a bank, counting through its blocks. -/
def phys (n : Device δ σ) (bank ppn : ℕ) : Option (Page δ σ) :=
  n.cell bank (ppn / n.npages) (ppn % n.npages)

theorem cell_of_inRange {n : Device δ σ} {bank blk page : ℕ} (h : n.InRange bank blk page) :
    n.cell bank blk page = if n.iswritten (n.pageIdx bank blk page) = true then
      some (n.nand (n.pageIdx bank blk page)) else none := by
  simp only [cell, h, true_and]

theorem cell_of_not_inRange {n : Device δ σ} {bank blk page : ℕ}
    (h : ¬n.InRange bank blk page) : n.cell bank blk page = none := by
  simp only [cell, h, false_and, ↓reduceIte]

theorem cell_isSome (n : Device δ σ) (bank blk page : ℕ) :
    (n.cell bank blk page).isSome ↔
      n.InRange bank blk page ∧ page < n.blkIndex (n.blkIdx bank blk) := by
  unfold cell
  by_cases hr : n.InRange bank blk page
  · have h := n.written_iff bank blk page hr.1 hr.2.1 hr.2.2
    change n.iswritten (n.pageIdx bank blk page) = true ↔
      page < n.blkIndex (n.blkIdx bank blk) at h
    by_cases hw : n.iswritten (n.pageIdx bank blk page) = true
    · simp [hr, hw, h.mp hw]
    · simp [hr, hw, ← h]
  · simp [hr]

theorem cell_program (n : Device δ σ) {bank blk page : ℕ} (data : δ) (spare : σ)
    (hr : n.InRange bank blk page) (hpos : n.blkIndex (n.blkIdx bank blk) = page)
    (bank' blk' page' : ℕ) :
    (n.program bank blk page data spare hr hpos).cell bank' blk' page' =
      if bank' = bank ∧ blk' = blk ∧ page' = page then some ⟨data, spare⟩
      else n.cell bank' blk' page' := by
  by_cases hr' : n.InRange bank' blk' page'
  · have hr'' : (n.program bank blk page data spare hr hpos).InRange bank' blk' page' := hr'
    rw [cell_of_inRange hr'', cell_of_inRange hr']
    change (if Function.update n.iswritten (n.pageIdx bank blk page) true
        (n.pageIdx bank' blk' page') = true then
      some (Function.update n.nand (n.pageIdx bank blk page) ⟨data, spare⟩
        (n.pageIdx bank' blk' page')) else none) = _
    by_cases h : bank' = bank ∧ blk' = blk ∧ page' = page
    · obtain ⟨rfl, rfl, rfl⟩ := h
      simp
    · have hne : n.pageIdx bank' blk' page' ≠ n.pageIdx bank blk page := fun he =>
        h (n.pageIdx_inj hr'.2.1 hr.2.1 hr'.2.2 hr.2.2 he)
      rw [Function.update_of_ne hne, Function.update_of_ne hne, if_neg h]
  · have hr'' : ¬(n.program bank blk page data spare hr hpos).InRange bank' blk' page' := hr'
    rw [cell_of_not_inRange hr'', cell_of_not_inRange hr', if_neg]
    rintro ⟨rfl, rfl, rfl⟩
    exact hr' hr

theorem cell_wipe (n : Device δ σ) {bank blk : ℕ} (hk : blk < n.nblks)
    (bank' blk' page' : ℕ) :
    (n.wipe bank blk).cell bank' blk' page' =
      if bank' = bank ∧ blk' = blk then none else n.cell bank' blk' page' := by
  by_cases hr' : n.InRange bank' blk' page'
  · have hr'' : (n.wipe bank blk).InRange bank' blk' page' := hr'
    rw [cell_of_inRange hr'', cell_of_inRange hr']
    change (if (if n.blkIdx bank blk * n.npages ≤ n.pageIdx bank' blk' page' ∧
        n.pageIdx bank' blk' page' < n.blkIdx bank blk * n.npages + n.npages then false
        else n.iswritten (n.pageIdx bank' blk' page')) = true then
      some (n.nand (n.pageIdx bank' blk' page')) else none) = _
    have hidx := n.pageIdx_eq bank' blk' page'
    have hlt := hr'.2.2
    by_cases h : bank' = bank ∧ blk' = blk
    · obtain ⟨rfl, rfl⟩ := h
      have hin : n.blkIdx bank' blk' * n.npages ≤ n.pageIdx bank' blk' page' ∧
          n.pageIdx bank' blk' page' < n.blkIdx bank' blk' * n.npages + n.npages := by omega
      simp [hin]
    · have hne : ¬(n.blkIdx bank blk * n.npages ≤ n.pageIdx bank' blk' page' ∧
          n.pageIdx bank' blk' page' < n.blkIdx bank blk * n.npages + n.npages) := by
        rintro ⟨h1, h2⟩
        have hj : n.pageIdx bank' blk' page' = n.pageIdx bank blk
            (n.pageIdx bank' blk' page' - n.blkIdx bank blk * n.npages) := by
          rw [n.pageIdx_eq bank blk]
          omega
        obtain ⟨hb, hk', -⟩ := n.pageIdx_inj hr'.2.1 hk hlt (by omega) hj
        exact h ⟨hb, hk'⟩
      rw [if_neg hne, if_neg h]
  · have hr'' : ¬(n.wipe bank blk).InRange bank' blk' page' := hr'
    rw [cell_of_not_inRange hr'', cell_of_not_inRange hr', ite_self]

end Nand.Device

namespace Nand
open Device Paging
variable {δ σ : Type}

theorem cell_nandInit {mem : ℕ → Page δ σ} {nbanks nblks npages : ℤ} {n : Device δ σ}
    (h : nandInit mem nbanks nblks npages = some n) :
    (n.nbanks : ℤ) = nbanks ∧ (n.nblks : ℤ) = nblks ∧ (n.npages : ℤ) = npages ∧
      ∀ bank blk page, n.cell bank blk page = none := by
  unfold nandInit at h
  split at h
  · cases h
  · obtain rfl := Option.some.inj h
    refine ⟨by simp; omega, by simp; omega, by simp; omega, ?_⟩
    intro bank blk page
    simp [cell]

theorem address_natCast (n : Device δ σ) (bank blk page : ℕ) :
    n.address? bank blk page = decide (n.InRange bank blk page) := by
  have h1 : ¬((bank : ℤ) < 0) := by omega
  have h2 : ¬((blk : ℤ) < 0) := by omega
  have h3 : ¬((page : ℤ) < 0) := by omega
  by_cases h : n.InRange bank blk page
  · obtain ⟨hb, hk, hp⟩ := h
    simp [address?, InRange, h1, h2, h3, hb, hk, hp]
  · simp only [h, decide_false]
    simp only [InRange, not_and_or, not_lt] at h
    simp only [address?, ge_iff_le, Nat.cast_le, h1, h2, h3, decide_false, Bool.or_false,
      Bool.not_eq_false', Bool.or_eq_true, decide_eq_true_eq]
    tauto

theorem nandRead_some {n : Device δ σ} {bank blk page : ℕ} {pg : Page δ σ}
    (h : n.cell bank blk page = some pg) (data : δ) (spare : σ) :
    nandRead n bank blk page data spare = (.success, pg) := by
  unfold cell at h
  split at h
  next hc =>
    obtain rfl := Option.some.inj h
    simp [nandRead, address_natCast, hc.1, hc.2]
  next => cases h

theorem nandRead_empty {n : Device δ σ} {bank blk page : ℕ} (hr : n.InRange bank blk page)
    (h : n.cell bank blk page = none) (data : δ) (spare : σ) :
    (nandRead n bank blk page data spare).1 = .errEmpty := by
  have hw : n.iswritten (n.pageIdx bank blk page) = false := by
    rw [cell_of_inRange hr] at h
    simpa using h
  simp [nandRead, address_natCast, hr, hw]

/-- `n'` is `n` with the page at one address stored. -/
structure Programmed (n n' : Device δ σ) (bank blk page : ℕ) (pg : Page δ σ) : Prop where
  nbanks : n'.nbanks = n.nbanks
  nblks : n'.nblks = n.nblks
  npages : n'.npages = n.npages
  cell : ∀ bank' blk' page', n'.cell bank' blk' page' =
    if bank' = bank ∧ blk' = blk ∧ page' = page then some pg else n.cell bank' blk' page'

/-- `n'` is `n` with one block emptied. -/
structure Erased (n n' : Device δ σ) (bank blk : ℕ) : Prop where
  nbanks : n'.nbanks = n.nbanks
  nblks : n'.nblks = n.nblks
  npages : n'.npages = n.npages
  cell : ∀ bank' blk' page', n'.cell bank' blk' page' =
    if bank' = bank ∧ blk' = blk then none else n.cell bank' blk' page'

/-- A write to the first unwritten page of a block succeeds and stores that page only. -/
theorem nandWrite_next {n : Device δ σ} {bank blk page : ℕ} (hr : n.InRange bank blk page)
    (hempty : n.cell bank blk page = none)
    (hfull : ∀ page' < page, (n.cell bank blk page').isSome) (data : δ) (spare : σ) :
    ∃ n', nandWrite n bank blk page data spare = (n', .success) ∧
      Programmed n n' bank blk page ⟨data, spare⟩ := by
  have hle : ¬(page < n.blkIndex (n.blkIdx bank blk)) := by
    intro hlt
    have := (n.cell_isSome bank blk page).mpr ⟨hr, hlt⟩
    simp [hempty] at this
  have hpos : n.blkIndex (n.blkIdx bank blk) = page := by
    by_contra hne
    have h := (n.cell_isSome bank blk _).mp (hfull (n.blkIndex (n.blkIdx bank blk)) (by omega))
    exact absurd h.2 (lt_irrefl _)
  have hw : n.iswritten (n.pageIdx bank blk page) = false := by
    by_contra hw
    rw [Bool.not_eq_false] at hw
    exact hle ((n.written_iff bank blk page hr.1 hr.2.1 hr.2.2).mp hw)
  refine ⟨n.program bank blk page data spare hr hpos, ?_, ⟨rfl, rfl, rfl,
    n.cell_program data spare hr hpos⟩⟩
  unfold nandWrite
  rw [dif_pos (by rw [address_natCast]; exact decide_eq_true hr)]
  simp [hpos, hw]

theorem nandWrite_other {n : Device δ σ} {bank blk page : ℕ}
    (h : (n.cell bank blk page).isSome ∨ ¬n.InRange bank blk page ∨
      ∃ page' < page, n.cell bank blk page' = none) (data : δ) (spare : σ) :
    (nandWrite n bank blk page data spare).1 = n ∧
      (nandWrite n bank blk page data spare).2 ≠ .success := by
  unfold nandWrite
  by_cases hr : n.InRange bank blk page
  · have hne : n.blkIndex (n.blkIdx bank blk) ≠ page := by
      intro hpos
      rcases h with hs | hs | ⟨page', hlt, hs⟩
      · have := ((n.cell_isSome bank blk page).mp hs).2
        omega
      · exact hs hr
      · have := (n.cell_isSome bank blk page').mpr
          ⟨⟨hr.1, hr.2.1, hlt.trans hr.2.2⟩, by omega⟩
        simp [hs] at this
    simp [address_natCast, hr, hne]
  · simp [address_natCast, hr]

/-- Erasing a block removes its pages only; it succeeds if there is a page in it. -/
theorem nandErase_eq {n : Device δ σ} {bank blk : ℕ} (hb : bank < n.nbanks)
    (hk : blk < n.nblks) : Erased n (nandErase n bank blk).1 bank blk ∧
      ((nandErase n bank blk).2 = .success ↔ ∃ page, (n.cell bank blk page).isSome) := by
  have hle := n.blkIndex_le bank blk hb hk
  change n.blkIndex (n.blkIdx bank blk) ≤ n.npages at hle
  have hcond : ¬((bank : ℤ) ≥ n.nbanks ∨ (blk : ℤ) ≥ n.nblks ∨ (bank : ℤ) < 0 ∨ (blk : ℤ) < 0) := by
    omega
  by_cases hz : n.blkIndex (n.blkIdx bank blk) = 0
  · have hnone : ∀ page, n.cell bank blk page = none := by
      intro page
      rw [← Option.not_isSome_iff_eq_none, cell_isSome, hz]
      omega
    have he : nandErase n bank blk = (n, .errEmpty) := by
      simp only [nandErase, if_neg hcond, Int.toNat_natCast, hz, ↓reduceIte]
    rw [he]
    refine ⟨⟨rfl, rfl, rfl, ?_⟩, by simp [hnone]⟩
    intro bank' blk' page'
    split_ifs with h
    · obtain ⟨rfl, rfl⟩ := h
      exact hnone page'
    · rfl
  · have he : nandErase n bank blk = (n.wipe bank blk, .success) := by
      simp only [nandErase, if_neg hcond, Int.toNat_natCast, hz, ↓reduceIte]
    rw [he]
    refine ⟨⟨rfl, rfl, rfl, n.cell_wipe hk⟩, fun _ => ⟨0, ?_⟩, fun _ => rfl⟩
    rw [cell_isSome]
    exact ⟨⟨hb, hk, by omega⟩, by omega⟩

/-! Page numbers. The FTLs address a page of a bank by one number, whose quotient and
remainder by the block length are its block and its offset. -/

theorem cell_eq_phys {n : Device δ σ} {page : ℕ} (hp : page < n.npages) (bank blk : ℕ) :
    n.cell bank blk page = n.phys bank (blk * n.npages + page) := by
  rw [Device.phys, div_page hp, mod_page hp]

theorem nandRead_phys {n : Device δ σ} {bank ppn : ℕ} {pg : Page δ σ}
    (h : n.phys bank ppn = some pg) (data : δ) (spare : σ) :
    nandRead n bank ((ppn : ℤ) / n.npages) ((ppn : ℤ) % n.npages) data spare =
      (.success, pg) := by
  have := nandRead_some h data spare
  rwa [Int.natCast_ediv, Int.natCast_emod] at this

/-- `n'` has the dimensions of `n` and the same pages in every bank but one. -/
structure Local (n n' : Device δ σ) (bank : ℕ) : Prop where
  nbanks : n'.nbanks = n.nbanks
  nblks : n'.nblks = n.nblks
  npages : n'.npages = n.npages
  phys : ∀ bank', bank' ≠ bank → n'.phys bank' = n.phys bank'

theorem Local.refl (n : Device δ σ) (bank : ℕ) : Local n n bank :=
  ⟨rfl, rfl, rfl, fun _ _ => rfl⟩

theorem Local.trans {n n' n'' : Device δ σ} {bank : ℕ} (h : Local n n' bank)
    (h' : Local n' n'' bank) : Local n n'' bank :=
  ⟨h'.nbanks.trans h.nbanks, h'.nblks.trans h.nblks, h'.npages.trans h.npages,
    fun b hb => (h'.phys b hb).trans (h.phys b hb)⟩

namespace Programmed
variable {n n' : Device δ σ} {bank blk page : ℕ} {pg : Page δ σ}

theorem isLocal (h : Programmed n n' bank blk page pg) : Local n n' bank where
  nbanks := h.nbanks
  nblks := h.nblks
  npages := h.npages
  phys := by
    intro bank' hb
    funext q
    rw [Device.phys, Device.phys, h.npages, h.cell, if_neg (fun hc => hb hc.1)]

theorem phys (h : Programmed n n' bank blk page pg) (hp : page < n.npages) :
    n'.phys bank = Function.update (n.phys bank) (blk * n.npages + page) (some pg) := by
  funext q
  rw [Device.phys, h.npages, h.cell]
  by_cases hq : q = blk * n.npages + page
  · subst hq
    simp [div_page hp, mod_page hp]
  · rw [Function.update_of_ne hq, if_neg]
    · rfl
    · rintro ⟨-, h1, h2⟩
      apply hq
      rw [← h1, ← h2, div_mul_add_mod]

end Programmed

namespace Erased
variable {n n' : Device δ σ} {bank blk : ℕ}

theorem isLocal (h : Erased n n' bank blk) : Local n n' bank where
  nbanks := h.nbanks
  nblks := h.nblks
  npages := h.npages
  phys := by
    intro bank' hb
    funext q
    rw [Device.phys, Device.phys, h.npages, h.cell, if_neg (fun hc => hb hc.1)]

theorem phys (h : Erased n n' bank blk) :
    n'.phys bank = fun q => if q / n.npages = blk then none else n.phys bank q := by
  funext q
  rw [Device.phys, h.npages, h.cell]
  simp only [true_and]
  rfl

end Erased

theorem nandWrite_isLocal (n : Device δ σ) (bank : ℕ) (blk page : ℤ) (data : δ) (spare : σ) :
    Local n (nandWrite n bank blk page data spare).1 bank := by
  unfold nandWrite
  split_ifs with h hpos hw
  · exact Local.refl n bank
  · have hprog : Programmed n (n.program (bank : ℤ).toNat blk.toNat page.toNat data spare
        (Device.inRange_of_address h) hpos) (bank : ℤ).toNat blk.toNat page.toNat ⟨data, spare⟩ :=
      ⟨rfl, rfl, rfl, n.cell_program data spare (Device.inRange_of_address h) hpos⟩
    exact hprog.isLocal
  · exact Local.refl n bank
  · exact Local.refl n bank

theorem nandErase_isLocal (n : Device δ σ) (bank blk : ℕ) :
    Local n (nandErase n bank blk).1 bank := by
  by_cases h : bank < n.nbanks ∧ blk < n.nblks
  · exact (nandErase_eq h.1 h.2).1.isLocal
  · have hcond : (bank : ℤ) ≥ n.nbanks ∨ (blk : ℤ) ≥ n.nblks ∨ (bank : ℤ) < 0 ∨ (blk : ℤ) < 0 := by
      omega
    unfold nandErase
    rw [if_pos hcond]
    exact Local.refl n bank

theorem nandWrite_cell_of_ne (n : Device δ σ) {bank blk page : ℤ} {blk' : ℕ} (hne : blk ≠ blk')
    (data : δ) (spare : σ) (bank' page' : ℕ) :
    (nandWrite n bank blk page data spare).1.cell bank' blk' page' = n.cell bank' blk' page' := by
  unfold nandWrite
  split_ifs with h hpos hw
  · rfl
  · dsimp only
    rw [Device.cell_program, if_neg]
    simp only [Device.address?, Bool.not_eq_true', Bool.or_eq_false_iff,
      decide_eq_false_iff_not] at h
    omega
  · rfl
  · rfl

theorem nandErase_cell_of_ne (n : Device δ σ) {bank blk : ℤ} {blk' : ℕ} (hne : blk ≠ blk')
    (bank' page' : ℕ) :
    (nandErase n bank blk).1.cell bank' blk' page' = n.cell bank' blk' page' := by
  unfold nandErase
  split_ifs with h hpos
  · rfl
  · rfl
  · rw [n.cell_wipe (by omega), if_neg (by omega)]

theorem Local.nandRead {n n' : Device δ σ} {bank bank' : ℕ} (h : Local n n' bank)
    (hb : bank' ≠ bank) (blk page : ℤ) (data : δ) (spare : σ) :
    nandRead n' bank' blk page data spare = nandRead n bank' blk page data spare := by
  have haddr : n'.address? bank' blk page = n.address? bank' blk page := by
    simp only [Device.address?, h.nbanks, h.nblks, h.npages]
  cases ha : n.address? bank' blk page with
  | false => simp [Nand.nandRead, haddr, ha]
  | true =>
    have hr := Device.inRange_of_address ha
    have hr' := Device.inRange_of_address (haddr.trans ha)
    rw [Int.toNat_natCast] at hr hr'
    have hcell : n'.cell bank' blk.toNat page.toNat = n.cell bank' blk.toNat page.toNat := by
      rw [cell_eq_phys hr'.2.2, cell_eq_phys hr.2.2, h.npages, h.phys bank' hb]
    rw [cell_of_inRange hr, cell_of_inRange hr'] at hcell
    unfold Nand.nandRead
    rw [if_pos (haddr.trans ha), if_pos ha, Int.toNat_natCast]
    split_ifs at hcell ⊢
    · rw [Option.some.inj hcell]
    · rfl

theorem nandWrite_phys {n : Device δ σ} {bank blk page : ℕ} (hb : bank < n.nbanks)
    (hk : blk < n.nblks) (hp : page < n.npages)
    (hblk : ∀ i < n.npages, (n.phys bank (blk * n.npages + i)).isSome ↔ i < page)
    (data : δ) (spare : σ) :
    ∃ n', nandWrite n bank blk page data spare = (n', .success) ∧ Local n n' bank ∧
      n'.phys bank = Function.update (n.phys bank) (blk * n.npages + page)
        (some ⟨data, spare⟩) := by
  have hempty : n.cell bank blk page = none := by
    rw [cell_eq_phys hp, ← Option.not_isSome_iff_eq_none, hblk page hp]
    exact lt_irrefl _
  have hfull : ∀ page' < page, (n.cell bank blk page').isSome := by
    intro page' hlt
    rw [cell_eq_phys (by omega), hblk page' (by omega)]
    exact hlt
  obtain ⟨n', he, h⟩ := nandWrite_next ⟨hb, hk, hp⟩ hempty hfull data spare
  exact ⟨n', he, h.isLocal, h.phys hp⟩

theorem nandWrite_ppn {n : Device δ σ} {bank ppn : ℕ} (hb : bank < n.nbanks)
    (hp : ppn < n.nblks * n.npages)
    (hblk : ∀ q, q / n.npages = ppn / n.npages → ((n.phys bank q).isSome ↔ q < ppn))
    (data : δ) (spare : σ) :
    ∃ n', nandWrite n bank ((ppn : ℤ) / n.npages) ((ppn : ℤ) % n.npages) data spare =
        (n', .success) ∧ Local n n' bank ∧
      n'.phys bank = Function.update (n.phys bank) ppn (some ⟨data, spare⟩) := by
  have hnp : 0 < n.npages := by
    rcases Nat.eq_zero_or_pos n.npages with h0 | h0
    · simp [h0] at hp
    · exact h0
  have hppn := div_mul_add_mod ppn n.npages
  obtain ⟨n', he, hl, h⟩ := @nandWrite_phys _ _ _ _ _ (ppn % n.npages) hb
    (Nat.div_lt_of_lt_mul (by rwa [Nat.mul_comm] at hp)) (Nat.mod_lt _ hnp) (fun i hi => by
      rw [hblk _ (div_page hi)]
      omega) data spare
  rw [hppn] at h
  rw [Int.natCast_ediv, Int.natCast_emod] at he
  exact ⟨n', he, hl, h⟩

end Nand
