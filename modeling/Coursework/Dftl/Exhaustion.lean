import Coursework.Dftl.Refinement
import Mathlib.Data.Finset.Image

/-! The data blocks of a bank hold exactly as many pages as the bank has logical ones. Once all
logical pages are mapped, data garbage collection frees nothing, and the page written next takes
the place of another one. -/
namespace Dftl
open Nand Sector Paging

section Room
variable {bank free : ℕ} {s s' : Bank}

theorem usable_eq : (nPhyDataBlk - 0 - 1) * pagesPerBlk = nLpnsPb := by decide

/-- The logical pages of a bank. -/
def lpns : Finset ℤ := (Finset.range nLpnsPb).image Nat.cast

theorem card_lpns : lpns.card = nLpnsPb := by
  rw [lpns, Finset.card_image_of_injective _ Nat.cast_injective, Finset.card_range]

theorem Region.all_current
    (hr : Region 0 nPhyDataBlk .data s.nextDataPpn s.gcTriggerDataPpn s.blockStatus
      (dataLog bank s) free) (he : s.nextDataPpn = s.gcTriggerDataPpn)
    (hall : ∀ l < nLpnsPb, table bank s l ≠ -1) {p : ℕ} (hp : ((dataLog bank s).cell p).isSome) :
    ∃ k, (dataLog bank s).loc k = some p := by
  refine hr.space.all_located he pagesPerBlk_pos (K := lpns) (fun k hk => ?_)
    (by rw [usable_eq, card_lpns]) hp
  obtain ⟨l, hl, rfl⟩ := Finset.mem_image.mp hk
  rw [dataLog, loc_natCast]
  exact fun hn => hall l (Finset.mem_range.mp hl) (entry_eq_none.mp hn)

theorem Region.valid_of_current
    (hr : Region 0 nPhyDataBlk .data s.nextDataPpn s.gcTriggerDataPpn s.blockStatus
      (dataLog bank s) free) {p : ℕ} {k : ℤ} (hl : (dataLog bank s).loc k = some p) :
    s.isValid p = true := by
  obtain ⟨-, d, hc⟩ := hr.space.consistent.located hl
  have hv : (dataLog bank s).valid p = s.isValid p := valid_inRegion (inRegion_of_cell hc)
  rw [← hv]
  refine (hr.space.consistent.valid_iff (Set.notMem_empty p)).mpr fun k' d' hc' => ?_
  rwa [(Prod.mk.inj (Option.some.inj (hc'.symm.trans hc))).1]

/-- An eviction gets a free data page exactly if the next one is free or some logical page of the
bank is not mapped. -/
theorem canEvict_iff (hs : BankInv bank s) : CanEvict s ↔
    s.nextDataPpn ≠ s.gcTriggerDataPpn ∨ ∃ l < nLpnsPb, table bank s l = -1 := by
  obtain ⟨free, hr⟩ := hs.region
  constructor
  · rintro (h | ⟨blk, hblk, hdata, hinv⟩)
    · exact .inl h
    · by_contra hcon
      rw [not_or, not_not] at hcon
      obtain ⟨he, hall⟩ := hcon
      obtain ⟨i, hi, hv⟩ := clearCount_pos.mp hinv
      have hlt := hs.map.data_lt hblk hdata
      have hne : blk ≠ free := by
        rintro rfl
        rw [hr.free_empty] at hdata
        cases hdata
      obtain ⟨k, hk⟩ := hr.all_current he (fun l hl hn => hall ⟨l, hl, hn⟩)
        (hr.space.full he hne (Nat.zero_le blk) hlt hi)
      rw [hr.valid_of_current hk] at hv
      cases hv
  · rintro (h | ⟨l, hl, hn⟩)
    · exact .inl h
    · by_cases he : s.nextDataPpn = s.gcTriggerDataPpn
      · have hcard : (lpns.erase l).card < (nPhyDataBlk - 0 - 1) * pagesPerBlk := by
          have hmem : (l : ℤ) ∈ lpns := Finset.mem_image_of_mem _ (Finset.mem_range.mpr hl)
          have hpos : 0 < nLpnsPb := by decide
          rw [usable_eq, Finset.card_erase_of_mem hmem, card_lpns]
          omega
        have hkeys : ∀ k p, (dataLog bank s).loc k = some p → k ∈ lpns.erase (l : ℤ) := by
          intro k p hk
          obtain ⟨hk0, hp⟩ := loc_eq_some hs.map.table_ge hk
          have hlt := hs.lpn_lt k.toNat (by omega)
          refine Finset.mem_erase.mpr ⟨?_, Finset.mem_image.mpr
            ⟨k.toNat, Finset.mem_range.mpr hlt, Int.toNat_of_nonneg hk0⟩⟩
          rintro rfl
          rw [Int.toNat_natCast] at hp
          omega
        obtain ⟨b, i, -, hb, hbf, hi, hv⟩ := hr.space.exists_invalid he hkeys hcard
        have hin := inRegion_page (Nat.zero_le b) hb hi
        rw [dataLog, valid_inRegion hin] at hv
        exact .inr ⟨b, hb.trans (by decide), hr.others b (Nat.zero_le b) hb hbf,
          clearCount_pos.mpr ⟨i, hi, hv⟩⟩
      · exact .inl he

end Room

end Dftl
