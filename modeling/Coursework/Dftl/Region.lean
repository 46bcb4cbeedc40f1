import Coursework.Dftl.Core
import Coursework.Lib.Compaction

/-! A bank's blocks fall into two regions, one for data and one for map pages, and each is a
log of its own: pages carry a number in their spare bytes and are found through a table. -/
namespace Dftl
open Nand Sector Paging

theorem pagesPerBlk_pos : 0 < pagesPerBlk := by decide

/-- A page number of the blocks `lo, …, hi - 1`. -/
def InRegion (lo hi p : ℕ) : Prop := lo * pagesPerBlk ≤ p ∧ p < hi * pagesPerBlk

instance (lo hi p : ℕ) : Decidable (InRegion lo hi p) := by
  unfold InRegion
  infer_instance

theorem inRegion_iff {lo hi p : ℕ} :
    InRegion lo hi p ↔ lo ≤ p / pagesPerBlk ∧ p / pagesPerBlk < hi :=
  and_congr (Nat.le_div_iff_mul_le pagesPerBlk_pos).symm
    (Nat.div_lt_iff_lt_mul pagesPerBlk_pos).symm

theorem inRegion_page {lo hi b i : ℕ} (h1 : lo ≤ b) (h2 : b < hi) (hi' : i < pagesPerBlk) :
    InRegion lo hi (b * pagesPerBlk + i) := by
  rw [inRegion_iff, div_page hi']
  exact ⟨h1, h2⟩

/-- The pages of a region with the table that points into it. -/
def regionLog (lo hi : ℕ) (phys : ℕ → Option (Page Sectors ℤ)) (tbl : ℕ → ℤ)
    (isValid : ℕ → Bool) : PageLog ℤ Sectors where
  cell := fun p => if InRegion lo hi p then (phys p).map fun pg => (pg.spare, pg.data) else none
  loc := fun k => if 0 ≤ k then entry (tbl k.toNat) else none
  valid := fun p => if InRegion lo hi p then isValid p else true

section Log
variable {lo hi : ℕ} {phys phys' : ℕ → Option (Page Sectors ℤ)} {tbl : ℕ → ℤ}
  {isValid isValid' : ℕ → Bool} {p : ℕ}

theorem regionLog_congr (hphys : ∀ p, InRegion lo hi p → phys' p = phys p)
    (hvalid : ∀ p, InRegion lo hi p → isValid' p = isValid p) :
    regionLog lo hi phys' tbl isValid' = regionLog lo hi phys tbl isValid := by
  unfold regionLog
  congr 1
  · funext p
    split_ifs with hp
    · rw [hphys p hp]
    · rfl
  · funext p
    split_ifs with hp
    · exact hvalid p hp
    · rfl

theorem cell_eq_some (hp : InRegion lo hi p) {k : ℤ} {d : Sectors} :
    (regionLog lo hi phys tbl isValid).cell p = some (k, d) ↔ phys p = some ⟨d, k⟩ := by
  simp only [regionLog, if_pos hp, Option.map_eq_some_iff, Prod.mk.injEq]
  constructor
  · rintro ⟨pg, hpg, rfl, rfl⟩
    exact hpg
  · intro hpg
    exact ⟨_, hpg, rfl, rfl⟩

theorem cell_isSome (hp : InRegion lo hi p) :
    ((regionLog lo hi phys tbl isValid).cell p).isSome = (phys p).isSome := by
  simp [regionLog, hp]

theorem inRegion_of_cell {x : ℤ × Sectors}
    (h : (regionLog lo hi phys tbl isValid).cell p = some x) : InRegion lo hi p := by
  by_contra hp
  simp [regionLog, hp] at h

theorem valid_inRegion (hp : InRegion lo hi p) :
    (regionLog lo hi phys tbl isValid).valid p = isValid p := if_pos hp

theorem loc_natCast (l : ℕ) : (regionLog lo hi phys tbl isValid).loc (l : ℤ) = entry (tbl l) := by
  simp [regionLog]

theorem loc_eq_some (htbl : ∀ l, -1 ≤ tbl l) {k : ℤ}
    (h : (regionLog lo hi phys tbl isValid).loc k = some p) : 0 ≤ k ∧ tbl k.toNat = p := by
  simp only [regionLog] at h
  split_ifs at h with hk
  exact ⟨hk, (entry_eq_some (htbl _)).mp h⟩

theorem regionLog_program {q : ℕ} (hq : InRegion lo hi q) {k : ℤ} (hk : 0 ≤ k) (d : Sectors) :
    (regionLog lo hi phys tbl isValid).program k d q =
      regionLog lo hi (Function.update phys q (some ⟨d, k⟩)) (Function.update tbl k.toNat (q : ℤ))
        isValid := by
  unfold PageLog.program regionLog
  congr 1
  · funext p
    by_cases hp : p = q
    · subst hp
      simp [hq]
    · simp [hp]
  · funext k'
    by_cases hk' : k' = k
    · subst hk'
      simp [hk]
    · rw [Function.update_of_ne hk']
      by_cases h0 : 0 ≤ k'
      · simp only [if_pos h0]
        rw [Function.update_of_ne (by omega)]
      · simp only [if_neg h0]

theorem regionLog_discard {l : ℕ} (htbl : -1 ≤ tbl l)
    (hin : ∀ p : ℕ, tbl l = p → InRegion lo hi p) :
    (regionLog lo hi phys tbl isValid).discard l = regionLog lo hi phys tbl
      (if 0 ≤ tbl l then Function.update isValid (tbl l).toNat false else isValid) := by
  unfold PageLog.discard
  rw [loc_natCast]
  by_cases h : 0 ≤ tbl l
  · obtain ⟨q, hq⟩ : ∃ q : ℕ, tbl l = q := ⟨_, (Int.toNat_of_nonneg h).symm⟩
    have hqin := hin q hq
    simp only [hq, entry_natCast, regionLog]
    congr 1
    rw [if_pos (Int.natCast_nonneg q), Int.toNat_natCast]
    funext p
    by_cases hp : p = q
    · subst hp
      simp [hqin]
    · simp [hp]
  · have hneg : tbl l = -1 := by omega
    simp only [hneg, entry_neg_one, regionLog]
    rfl

theorem regionLog_erase (b : ℕ) : (regionLog lo hi phys tbl isValid).erase pagesPerBlk b =
    regionLog lo hi (fun q => if q / pagesPerBlk = b then none else phys q) tbl
      (fun p => if p / pagesPerBlk = b then true else isValid p) := by
  unfold PageLog.erase regionLog
  congr 1
  · funext p
    by_cases hp : p / pagesPerBlk = b <;> simp [hp]
  · funext p
    by_cases hp : p / pagesPerBlk = b <;> simp [hp]

end Log

/-- The NAND has the dimensions of the FTL and the bank exists. -/
structure Fits (n : Device Sectors ℤ) (bank : ℕ) : Prop where
  bank_lt : bank < n.nbanks
  nblks : n.nblks = blksPerBank
  npages : n.npages = pagesPerBlk

theorem Fits.of_local {n n' : Device Sectors ℤ} {bank bank' : ℕ} (h : Fits n bank)
    (hl : Local n n' bank') : Fits n' bank :=
  ⟨by rw [hl.nbanks]; exact h.bank_lt, by rw [hl.nblks, h.nblks], by rw [hl.npages, h.npages]⟩

/-- A region with its cursors and its one spare block. -/
structure Region (lo hi : ℕ) (kind : Status) (next trig : ℕ) (status : ℕ → Status)
    (L : PageLog ℤ Sectors) (free : ℕ) : Prop where
  space : PageLog.Space pagesPerBlk lo hi free next trig L
  free_empty : status free = .empty
  others : ∀ b, lo ≤ b → b < hi → b ≠ free → status b = kind

namespace Region
variable {lo hi next trig free : ℕ} {kind : Status} {status : ℕ → Status}
  {phys : ℕ → Option (Page Sectors ℤ)} {tbl : ℕ → ℤ} {isValid : ℕ → Bool}
  {n : Device Sectors ℤ} {bank : ℕ}

theorem status_eq (h : Region lo hi kind next trig status (regionLog lo hi phys tbl isValid) free)
    {b : ℕ} (h1 : lo ≤ b) (h2 : b < hi) : status b = if b = free then .empty else kind := by
  split_ifs with hb
  · rw [hb, h.free_empty]
  · exact h.others b h1 h2 hb

theorem entry_written
    (h : Region lo hi kind next trig status (regionLog lo hi phys tbl isValid) free)
    {l p : ℕ} (hl : tbl l = p) :
    InRegion lo hi p ∧ ∃ d, (regionLog lo hi phys tbl isValid).cell p = some ((l : ℤ), d) := by
  obtain ⟨-, d, hc⟩ := h.space.consistent.located (k := (l : ℤ)) (p := p) (by
    rw [loc_natCast, hl, entry_natCast])
  exact ⟨inRegion_of_cell hc, d, hc⟩

theorem next_inRegion
    (h : Region lo hi kind next trig status (regionLog lo hi phys tbl isValid) free)
    (hlt : next < trig) : InRegion lo hi next :=
  ⟨h.space.lo_le, hlt.trans_le h.space.trig_le⟩

theorem next_kind
    (h : Region lo hi kind next trig status (regionLog lo hi phys tbl isValid) free)
    (hlt : next < trig) : status (next / pagesPerBlk) = kind := by
  obtain ⟨h1, h2⟩ := inRegion_iff.mp (h.next_inRegion hlt)
  exact h.others _ h1 h2 (h.space.gap next le_rfl hlt)

theorem write_next
    (h : Region lo hi kind next trig status (regionLog lo hi (n.phys bank) tbl isValid) free)
    (hfits : Fits n bank) (hhi : hi ≤ blksPerBank) (hlt : next < trig) (d : Sectors) (k : ℤ) :
    ∃ n', nandWrite n bank ((next : ℤ) / pagesPerBlk) ((next : ℤ) % pagesPerBlk) d k =
        (n', .success) ∧ Local n n' bank ∧
      n'.phys bank = Function.update (n.phys bank) next (some ⟨d, k⟩) := by
  obtain ⟨h1, h2⟩ := h.next_inRegion hlt
  have hmul : hi * pagesPerBlk ≤ blksPerBank * pagesPerBlk := Nat.mul_le_mul_right _ hhi
  have hres := @nandWrite_ppn _ _ n bank next hfits.bank_lt
    (by rw [hfits.nblks, hfits.npages]; omega) (fun q hq => by
      rw [hfits.npages] at hq
      have hin : InRegion lo hi q := by
        rw [inRegion_iff, hq]
        exact inRegion_iff.mp ⟨h1, h2⟩
      rw [← h.space.block_prefix hlt q hq, cell_isSome hin]) d k
  rwa [hfits.npages] at hres

end Region

theorem Fits.read {n : Device Sectors ℤ} {bank p : ℕ} (hfits : Fits n bank)
    {pg : Page Sectors ℤ} (h : n.phys bank p = some pg) (data : Sectors) (spare : ℤ) :
    nandRead n bank ((p : ℤ) / pagesPerBlk) ((p : ℤ) % pagesPerBlk) data spare =
      (.success, pg) := by
  have hres := nandRead_phys h data spare
  rwa [hfits.npages] at hres

theorem Fits.write_taken {n : Device Sectors ℤ} {bank p : ℕ} (hfits : Fits n bank)
    (h : (n.phys bank p).isSome) (d : Sectors) (k : ℤ) :
    (nandWrite n bank ((p : ℤ) / pagesPerBlk) ((p : ℤ) % pagesPerBlk) d k).1 = n := by
  have hres := (nandWrite_other (.inl h) d k).1
  rwa [Int.natCast_ediv, Int.natCast_emod, hfits.npages] at hres

theorem Fits.read_page {n : Device Sectors ℤ} {bank blk page : ℕ} (hfits : Fits n bank)
    (hp : page < pagesPerBlk) {pg : Page Sectors ℤ}
    (h : n.phys bank (blk * pagesPerBlk + page) = some pg) (data : Sectors) (spare : ℤ) :
    nandRead n bank blk page data spare = (.success, pg) := by
  apply nandRead_some
  rw [cell_eq_phys (by rw [hfits.npages]; exact hp), hfits.npages]
  exact h

theorem Fits.erase {n : Device Sectors ℤ} {bank blk page : ℕ} (hfits : Fits n bank)
    (hblk : blk < blksPerBank) (hp : page < pagesPerBlk)
    (hw : (n.phys bank (blk * pagesPerBlk + page)).isSome) :
    ∃ n', nandErase n bank blk = (n', .success) ∧ Local n n' bank ∧
      n'.phys bank = fun q => if q / pagesPerBlk = blk then none else n.phys bank q := by
  obtain ⟨he, hcode⟩ := nandErase_eq hfits.bank_lt (by rw [hfits.nblks]; exact hblk)
  have hphys := he.phys
  rw [hfits.npages] at hphys
  refine ⟨_, Prod.ext rfl (hcode.mpr ⟨page, ?_⟩), he.isLocal, hphys⟩
  rw [cell_eq_phys (by rw [hfits.npages]; exact hp), hfits.npages]
  exact hw

theorem write_moved {lo hi victim free i c : ℕ} {C : Set ℤ} {L₀ : PageLog ℤ Sectors}
    {n : Device Sectors ℤ} {bank : ℕ} {tbl : ℕ → ℤ} {isValid : ℕ → Bool} (hfits : Fits n bank)
    (h : PageLog.Compacting pagesPerBlk victim free C L₀ i c
      (regionLog lo hi (n.phys bank) tbl isValid))
    (hlo : lo ≤ free) (hhi : free < hi) (hb : hi ≤ blksPerBank) (hc : c < pagesPerBlk)
    (d : Sectors) (k : ℤ) :
    ∃ n', nandWrite n bank free c d k = (n', .success) ∧ Local n n' bank ∧
      n'.phys bank = Function.update (n.phys bank) (free * pagesPerBlk + c) (some ⟨d, k⟩) := by
  have hres := @nandWrite_phys _ _ n bank free c hfits.bank_lt
    (by rw [hfits.nblks]; omega) (by rw [hfits.npages]; exact hc) (fun j hj => by
      rw [hfits.npages] at hj ⊢
      rw [← @cell_isSome _ _ _ tbl isValid _ (inRegion_page hlo hhi hj),
        h.cell_free _ (div_page hj), mod_page hj]) d k
  rwa [hfits.npages] at hres

end Dftl
