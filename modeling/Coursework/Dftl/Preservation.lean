import Coursework.Dftl.LostPage
import Coursework.Dftl.Overrun

/-! Data garbage collection in any run: wherever a bank's next data page meets its trigger, the
pages of all banks read the same before and after, and two different blocks are left empty. -/
namespace Dftl
open Nand Sector Paging

/-- `garbage_collection(bank)`. -/
def Ftl.garbageCollection (s : Ftl) (bank : ℕ) : Ftl :=
  s.put bank (Dftl.garbageCollection bank (s.bank bank))

/-- A logical page has an entry in both states or in neither, and through its entry NAND reads the
same. -/
def SameRead (b l : ℕ) (s s' : Ftl) : Prop :=
  (table b (s'.bank b) l = -1 ↔ table b (s.bank b) l = -1) ∧
    (table b (s.bank b) l ≠ -1 → ∀ data spare,
      nandRead s'.nand b (table b (s'.bank b) l / pagesPerBlk)
        (table b (s'.bank b) l % pagesPerBlk) data spare =
      nandRead s.nand b (table b (s.bank b) l / pagesPerBlk)
        (table b (s.bank b) l % pagesPerBlk) data spare)

/-- The write buffers of a bank are the same. -/
structure SameBuffers (r r' : Row) : Prop where
  s2l : r'.bufferS2l = r.bufferS2l
  data : r'.bufferData = r.bufferData
  spare : r'.bufferSpare = r.bufferSpare

/-- The victim is erased and empty, one other block is empty, and the two searches for a free
block find one each. -/
structure TwoEmpty (bank victim spareBlk : ℕ) (s' : Ftl) : Prop where
  erased : ∀ page < pagesPerBlk, ∀ data spare,
    (nandRead s'.nand bank victim page data spare).1 = .errEmpty
  ne : spareBlk ≠ victim
  empty_iff : ∀ blk < blksPerBank,
    (s'.row bank).blockStatus blk = .empty ↔ blk = victim ∨ blk = spareBlk
  freeData : getFreeBlkData (s'.row bank) = some victim
  freeMap : getFreeBlkMap (s'.row bank) = some spareBlk

/-- What a data garbage collection of `bank` keeps, and the blocks it leaves. -/
structure Preserved (bank : ℕ) (s s' : Ftl) : Prop where
  translated : ∀ l < nLpnsPb, translate s bank l = table bank (s.bank bank) l ∧
    translate s' bank l = table bank (s'.bank bank) l
  reads : ∀ b < nBanks, ∀ l < nLpnsPb, SameRead b l s s'
  buffers : ∀ b < nBanks, SameBuffers (s.row b) (s'.row b)
  blocks : ∃ victim spareBlk, greedyDataBlk (s.row bank) = some victim ∧
    TwoEmpty bank victim spareBlk s'

section Collect
variable {bank b l victim free : ℕ} {s : Ftl}

theorem sameRead_other (hloc : Local s.nand (s.garbageCollection bank).nand bank) (hb : b ≠ bank) :
    SameRead b l s (s.garbageCollection bank) := by
  have hrow : ((s.garbageCollection bank).bank b).toRow = (s.bank b).toRow :=
    Function.update_of_ne hb _ _
  have htable : table b ((s.garbageCollection bank).bank b) = table b (s.bank b) :=
    table_other hrow (hloc.phys b hb)
  refine ⟨by rw [htable], fun _ data spare => ?_⟩
  rw [htable]
  exact hloc.nandRead hb _ _ data spare

theorem BankInv.sameRead {s' : Ftl} (hs : BankInv bank (s.bank bank))
    (hs' : BankInv bank (s'.bank bank))
    (hvalue : (dataLog bank (s'.bank bank)).value = (dataLog bank (s.bank bank)).value) :
    SameRead bank l s s' := by
  obtain ⟨_, hr⟩ := hs.region
  obtain ⟨_, hr'⟩ := hs'.region
  have hmapped : table bank (s'.bank bank) l = -1 ↔ table bank (s.bank bank) l = -1 := by
    rw [← hr'.value_eq_none, ← hr.value_eq_none, hvalue]
  refine ⟨hmapped, fun hne data spare => ?_⟩
  obtain ⟨d, hd, hread⟩ := hs.read_entry hne
  obtain ⟨d', hd', hread'⟩ := hs'.read_entry (mt hmapped.mp hne)
  obtain rfl : d' = d := by
    rw [hvalue, hd] at hd'
    exact (Option.some.inj hd').symm
  exact (hread' data spare).trans (hread data spare).symm

/-- The empty blocks of a bank are the spare blocks of its two regions. -/
theorem BankInv.twoEmpty (hs : BankInv bank (s.bank bank))
    (hr : Region 0 nPhyDataBlk .data (s.bank bank).nextDataPpn (s.bank bank).gcTriggerDataPpn
      (s.bank bank).blockStatus (dataLog bank (s.bank bank)) victim) :
    ∃ spareBlk, TwoEmpty bank victim spareBlk s := by
  obtain ⟨spareBlk, hm⟩ := hs.map.region
  have hlt := hr.space.free_lt
  have hge := hm.space.le_free
  refine ⟨spareBlk, fun page hp data spare => ?_, by omega, fun blk hblk => ?_,
    getFreeBlkData_eq hr, getFreeBlkMap_eq hm⟩
  · have hin := inRegion_page (Nat.zero_le victim) hlt hp
    have hfits := hs.map.fits
    have hnone : ((s.bank bank).nand.phys bank (victim * pagesPerBlk + page)).isSome = false := by
      rw [← @cell_isSome _ _ _ (table bank (s.bank bank)) (s.bank bank).isValid _ hin,
        ← Bool.not_eq_true]
      exact fun hw => (hr.space.written_iff.mp hw).2.2.1 (div_page hp)
    have hpage : page < (s.bank bank).nand.npages := by
      rw [hfits.npages]
      exact hp
    refine nandRead_empty ⟨hfits.bank_lt, ?_, hpage⟩ ?_ data spare
    · rw [hfits.nblks]
      exact hlt.trans (by decide)
    · rw [cell_eq_phys hpage, hfits.npages]
      exact Option.isSome_eq_false_iff.mp hnone |> Option.isNone_iff_eq_none.mp
  · change (s.bank bank).blockStatus blk = .empty ↔ _
    by_cases hdata : blk < nPhyDataBlk
    · rw [hr.status_eq (Nat.zero_le blk) hdata]
      split_ifs with he
      · simp [he]
      · simp only [he, false_or, false_iff]
        omega
    · rw [hm.status_eq (not_lt.mp hdata) hblk]
      split_ifs with he
      · simp [he]
      · simp only [he, or_false, false_iff]
        omega

/-- Data garbage collection of a bank that keeps its invariant. -/
theorem BankInv.preserved (hs : BankInv bank (s.bank bank))
    (he : (s.row bank).nextDataPpn = (s.row bank).gcTriggerDataPpn) :
    Preserved bank s (s.garbageCollection bank) := by
  obtain ⟨free, hr⟩ := hs.region
  obtain ⟨v, hv, -, -, hcol, hspare⟩ := garbageCollection_picks hs.map hs.lpn_lt hr he
  have hself : (s.garbageCollection bank).bank bank =
      Dftl.garbageCollection bank (s.bank bank) := bank_put _ _ _
  have hinv : BankInv bank (Dftl.garbageCollection bank (s.bank bank)) :=
    ⟨hcol.inv, ⟨v, hcol.region⟩, hcol.lpn_lt, by rw [hcol.bufferS2l]; exact hs.buffers⟩
  have hvalue := hcol.value
  have hregion := hcol.region
  rw [← hself] at hinv hvalue hregion
  refine ⟨fun l hl => ?_, fun b hb l hl => ?_, fun b hb => ?_, ?_⟩
  · exact ⟨(lpn2ppn_kept hs.map hl).2, (lpn2ppn_kept hinv.map hl).2⟩
  · by_cases hbb : b = bank
    · rw [hbb]
      exact hs.sameRead hinv hvalue
    · exact sameRead_other hcol.isLocal hbb
  · by_cases hbb : b = bank
    · subst hbb
      have hrow : (s.garbageCollection b).row b =
          (Dftl.garbageCollection b (s.bank b)).toRow := Function.update_self _ _ _
      rw [hrow]
      exact ⟨hcol.bufferS2l, hcol.bufferData, hspare⟩
    · have hrow : (s.garbageCollection bank).row b = s.row b := Function.update_of_ne hbb _ _
      rw [hrow]
      exact ⟨rfl, rfl, rfl⟩
  · obtain ⟨spareBlk, hempty⟩ := hinv.twoEmpty hregion
    exact ⟨v, spareBlk, hv, hempty⟩

end Collect

section Runs
variable (mem : ℕ → Page Sectors ℤ) (stack : Page Sectors ℤ) (dataVictims slotVictims : ℕ → ℕ)

/-- Data garbage collection keeps what all pages read, in every state a run reaches in which the
next data page of the bank is its trigger. -/
theorem garbageCollection_preserves {ops : List Op} (hops : ∀ op ∈ ops, op.InRange) {bank : ℕ}
    (hb : bank < nBanks) :
    let s := Machine.run step (ftlOpen mem stack dataVictims slotVictims) ops
    (s.row bank).nextDataPpn = (s.row bank).gcTriggerDataPpn →
      Preserved bank s (s.garbageCollection bank) := by
  intro s he
  rcases run_steady mem stack dataVictims slotVictims hops bank hb with hs | hs
  · exact hs.preserved he
  · exact absurd he hs.ne'

theorem Evicted.atTrigger {bank : ℕ} {s : Bank} (h : Evicted bank 512 s) :
    s.nextDataPpn = s.gcTriggerDataPpn := by
  rcases h with ⟨-, h⟩ | ⟨h, -⟩
  · exact h.stage.next.trans h.stage.trig.symm
  · exact absurd h (by decide)

/-- A run of page writes just before its first data garbage collection. -/
theorem garbageCollection_preserves_fillOps :
    Preserved 0 (Machine.run step fifoOpen (fillOps 522))
      ((Machine.run step fifoOpen (fillOps 522)).garbageCollection 0) := by
  have hload : Evicted 0 512 ((Machine.run step fifoOpen (fillOps 522)).bank 0) :=
    (loaded_fillOps 522 (by decide)).evicted
  have hops : ∀ op ∈ fillOps 522, op.InRange := fillOps_inRange (by decide)
  generalize fillOps 522 = ops at *
  exact garbageCollection_preserves _ _ _ _ hops (by decide) hload.atTrigger

end Runs

end Dftl
