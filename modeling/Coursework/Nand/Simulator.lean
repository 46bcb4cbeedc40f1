import Coursework.Lib.Paging
import Mathlib.Logic.Function.Basic

/-! The NAND simulator (`nand.c`) shared by the FTL and ZNS projects: three flat
arrays indexed by bank, block and page. The 32 data bytes and the 4 spare bytes
are copied through `void *`, so the model is generic in both. -/
namespace Nand
open Paging

variable {δ σ : Type}

/-- Return codes of `nand.h`. -/
inductive Code where
  | success | errInvalid | errOverwrite | errPosition | errEmpty
  deriving DecidableEq, Repr

/-- `struct Page`. -/
structure Page (δ σ : Type) where
  data : δ
  spare : σ

/-- The globals of `nand.c`. The last two fields are kept by every operation: in
each block exactly the pages below the write position are written. -/
structure Device (δ σ : Type) where
  nbanks : ℕ
  nblks : ℕ
  npages : ℕ
  nand : ℕ → Page δ σ
  iswritten : ℕ → Bool
  blkIndex : ℕ → ℕ
  written_iff : ∀ bank blk page, bank < nbanks → blk < nblks → page < npages →
    (iswritten (bank * (nblks * npages) + blk * npages + page) = true ↔
      page < blkIndex (bank * nblks + blk))
  blkIndex_le : ∀ bank blk, bank < nbanks → blk < nblks →
    blkIndex (bank * nblks + blk) ≤ npages

namespace Device

/-- `page_idx` of `nand_write` and `nand_read`. -/
def pageIdx (n : Device δ σ) (bank blk page : ℕ) : ℕ :=
  bank * (n.nblks * n.npages) + blk * n.npages + page

/-- `blk_idx` of `nand_write` and `nand_erase`. -/
def blkIdx (n : Device δ σ) (bank blk : ℕ) : ℕ := bank * n.nblks + blk

/-- The address check made first by `nand_write` and `nand_read`. -/
def InRange (n : Device δ σ) (bank blk page : ℕ) : Prop :=
  bank < n.nbanks ∧ blk < n.nblks ∧ page < n.npages

instance (n : Device δ σ) (bank blk page : ℕ) : Decidable (n.InRange bank blk page) := by
  unfold InRange
  infer_instance

end Device

namespace Device

theorem blkIdx_inj (n : Device δ σ) {bank blk bank' blk' : ℕ} (h : blk < n.nblks)
    (h' : blk' < n.nblks) (he : n.blkIdx bank blk = n.blkIdx bank' blk') :
    bank = bank' ∧ blk = blk' := page_inj h h' he

theorem pageIdx_eq (n : Device δ σ) (bank blk page : ℕ) :
    n.pageIdx bank blk page = n.blkIdx bank blk * n.npages + page := by
  unfold pageIdx blkIdx
  ring

theorem pageIdx_inj (n : Device δ σ) {bank blk page bank' blk' page' : ℕ}
    (h : blk < n.nblks) (h' : blk' < n.nblks) (hp : page < n.npages) (hp' : page' < n.npages)
    (he : n.pageIdx bank blk page = n.pageIdx bank' blk' page') :
    bank = bank' ∧ blk = blk' ∧ page = page' := by
  rw [pageIdx_eq, pageIdx_eq] at he
  obtain ⟨hb, hq⟩ := page_inj hp hp' he
  obtain ⟨h1, h2⟩ := n.blkIdx_inj h h' hb
  exact ⟨h1, h2, hq⟩

/-- The stores of a successful `nand_write`. -/
def program (n : Device δ σ) (bank blk page : ℕ) (data : δ) (spare : σ)
    (hr : n.InRange bank blk page) (hpos : n.blkIndex (n.blkIdx bank blk) = page) :
    Device δ σ where
  nbanks := n.nbanks
  nblks := n.nblks
  npages := n.npages
  nand := Function.update n.nand (n.pageIdx bank blk page) ⟨data, spare⟩
  iswritten := Function.update n.iswritten (n.pageIdx bank blk page) true
  blkIndex := Function.update n.blkIndex (n.blkIdx bank blk) (page + 1)
  written_iff := by
    intro bank' blk' page' hb' hk' hp'
    have hold := n.written_iff bank' blk' page' hb' hk' hp'
    change Function.update n.iswritten (n.pageIdx bank blk page) true
      (n.pageIdx bank' blk' page') = true ↔
      page' < Function.update n.blkIndex (n.blkIdx bank blk) (page + 1) (n.blkIdx bank' blk')
    by_cases hblk : n.blkIdx bank' blk' = n.blkIdx bank blk
    · obtain ⟨rfl, rfl⟩ := n.blkIdx_inj hk' hr.2.1 hblk
      rw [Function.update_self]
      by_cases hpg : page' = page
      · subst hpg
        simp
      · have hne : n.pageIdx bank' blk' page' ≠ n.pageIdx bank' blk' page := fun he =>
          hpg (n.pageIdx_inj hk' hk' hp' hr.2.2 he).2.2
        rw [Function.update_of_ne hne]
        change n.iswritten (n.pageIdx bank' blk' page') = true ↔
          page' < n.blkIndex (n.blkIdx bank' blk') at hold
        rw [hold, hpos]
        omega
    · have hne : n.pageIdx bank' blk' page' ≠ n.pageIdx bank blk page := by
        intro he
        obtain ⟨h1, h2, -⟩ := n.pageIdx_inj hk' hr.2.1 hp' hr.2.2 he
        exact hblk (by rw [h1, h2])
      rw [Function.update_of_ne hne, Function.update_of_ne hblk]
      exact hold
  blkIndex_le := by
    intro bank' blk' hb' hk'
    change Function.update n.blkIndex (n.blkIdx bank blk) (page + 1) (n.blkIdx bank' blk') ≤ _
    by_cases hblk : n.blkIdx bank' blk' = n.blkIdx bank blk
    · rw [hblk, Function.update_self]
      exact hr.2.2
    · rw [Function.update_of_ne hblk]
      exact n.blkIndex_le bank' blk' hb' hk'

/-- The stores of a successful `nand_erase`. -/
def wipe (n : Device δ σ) (bank blk : ℕ) : Device δ σ where
  nbanks := n.nbanks
  nblks := n.nblks
  npages := n.npages
  nand := n.nand
  iswritten := fun i => if n.blkIdx bank blk * n.npages ≤ i ∧
    i < n.blkIdx bank blk * n.npages + n.npages then false else n.iswritten i
  blkIndex := Function.update n.blkIndex (n.blkIdx bank blk) 0
  written_iff := by
    intro bank' blk' page' hb' hk' hp'
    have hold := n.written_iff bank' blk' page' hb' hk' hp'
    change (if _ ∧ _ then false else n.iswritten (n.pageIdx bank' blk' page')) = true ↔
      page' < Function.update n.blkIndex (n.blkIdx bank blk) 0 (n.blkIdx bank' blk')
    have hidx := n.pageIdx_eq bank' blk' page'
    by_cases hblk : n.blkIdx bank' blk' = n.blkIdx bank blk
    · rw [if_pos (by change _ ≤ n.pageIdx bank' blk' page' ∧ n.pageIdx bank' blk' page' < _
                     rw [hidx, hblk]; omega), hblk, Function.update_self]
      simp
    · rw [if_neg, Function.update_of_ne hblk]
      · exact hold
      · change ¬(_ ≤ n.pageIdx bank' blk' page' ∧ n.pageIdx bank' blk' page' < _)
        rintro ⟨h1, h2⟩
        rw [hidx] at h1 h2
        apply hblk
        obtain ⟨j, hj⟩ : ∃ j, n.blkIdx bank' blk' * n.npages + page' =
            n.blkIdx bank blk * n.npages + j := ⟨_, (Nat.add_sub_cancel' h1).symm⟩
        exact (page_inj hp' (by omega) hj).1
  blkIndex_le := by
    intro bank' blk' hb' hk'
    change Function.update n.blkIndex (n.blkIdx bank blk) 0 (n.blkIdx bank' blk') ≤ _
    by_cases hblk : n.blkIdx bank' blk' = n.blkIdx bank blk
    · rw [hblk, Function.update_self]
      exact Nat.zero_le _
    · rw [Function.update_of_ne hblk]
      exact n.blkIndex_le bank' blk' hb' hk'

end Device

/-- `nand_init`; `mem` is the storage `malloc` returned for the pages, and `none`
is `NAND_ERR_INVALID`. -/
def nandInit (mem : ℕ → Page δ σ) (nbanks nblks npages : ℤ) : Option (Device δ σ) :=
  if nbanks ≤ 0 ∨ nblks ≤ 0 ∨ npages ≤ 0 then none
  else some
    { nbanks := nbanks.toNat
      nblks := nblks.toNat
      npages := npages.toNat
      nand := mem
      iswritten := fun _ => false
      blkIndex := fun _ => 0
      written_iff := by intros; simp
      blkIndex_le := by intros; simp }

/-- The arguments of `nand_write` and `nand_read` that pass the address check. -/
def Device.address? (n : Device δ σ) (bank blk page : ℤ) : Bool :=
  !(bank ≥ n.nbanks || blk ≥ n.nblks || page ≥ n.npages || bank < 0 || blk < 0 || page < 0)

theorem Device.inRange_of_address {n : Device δ σ} {bank blk page : ℤ}
    (h : n.address? bank blk page = true) : n.InRange bank.toNat blk.toNat page.toNat := by
  simp only [Device.address?, Bool.not_eq_true', Bool.or_eq_false_iff, decide_eq_false_iff_not]
    at h
  unfold Device.InRange
  omega

def nandWrite (n : Device δ σ) (bank blk page : ℤ) (data : δ) (spare : σ) :
    Device δ σ × Code :=
  if h : n.address? bank blk page = true then
    if hpos : n.blkIndex (n.blkIdx bank.toNat blk.toNat) = page.toNat then
      if n.iswritten (n.pageIdx bank.toNat blk.toNat page.toNat) then (n, .errOverwrite)
      else (n.program bank.toNat blk.toNat page.toNat data spare
        (Device.inRange_of_address h) hpos, .success)
    else (n, .errPosition)
  else (n, .errInvalid)

/-- `nand_read`; `data` and `spare` are what the caller's two buffers hold before
the call, and the result has what they hold after it. -/
def nandRead (n : Device δ σ) (bank blk page : ℤ) (data : δ) (spare : σ) : Code × Page δ σ :=
  if n.address? bank blk page then
    if n.iswritten (n.pageIdx bank.toNat blk.toNat page.toNat) then
      (.success, n.nand (n.pageIdx bank.toNat blk.toNat page.toNat))
    else (.errEmpty, ⟨data, spare⟩)
  else (.errInvalid, ⟨data, spare⟩)

def nandErase (n : Device δ σ) (bank blk : ℤ) : Device δ σ × Code :=
  if bank ≥ n.nbanks ∨ blk ≥ n.nblks ∨ bank < 0 ∨ blk < 0 then (n, .errInvalid)
  else if n.blkIndex (n.blkIdx bank.toNat blk.toNat) = 0 then (n, .errEmpty)
  else (n.wipe bank.toNat blk.toNat, .success)

end Nand
