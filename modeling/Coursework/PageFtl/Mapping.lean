import Coursework.PageFtl.ReadAfterWrite

/-! The mapping of the page-mapping FTL in every reachable state, and the room each garbage
collection leaves. -/
namespace PageMap
open Nand Sector Paging

variable {α : Type} {g : Geometry} {bank : ℕ} {s : Bank α}

/-- What `L2P`, `isValid`, the spare areas and the reserved block of a bank say to each other. -/
structure Bank.Mapped (g : Geometry) (bank : ℕ) (s : Bank α) : Prop where
  injective : ∀ l l', s.l2p l ≠ -1 → s.l2p l = s.l2p l' → l = l'
  valid_iff : ∀ p l d, s.nand.phys bank p = some ⟨d, l⟩ → (s.isValid p = true ↔ s.l2p l = p)
  free_erased : ∀ p, p / g.pagesPerBlk = s.freePblk →
    s.nand.phys bank p = none ∧ ∀ l, s.l2p l ≠ p

theorem Bank.Ok.entry_written (hs : s.Ok g bank) {l p : ℕ} (hl : s.l2p l = p) :
    ∃ d, s.nand.phys bank p = some ⟨d, l⟩ := by
  have hloc : (s.toRow.log (s.nand.phys bank)).loc l = some p := by simp [Row.log, hl]
  obtain ⟨-, d, hc⟩ := hs.inv.space.consistent.located hloc
  exact ⟨d, (cell_eq_some _ _).mp hc⟩

theorem Bank.Ok.mapped (hs : s.Ok g bank) : s.Mapped g bank := by
  have hfree : ∀ p, p / g.pagesPerBlk = s.freePblk → s.nand.phys bank p = none := by
    intro p hp
    rw [← Option.not_isSome_iff_eq_none, ← cell_isSome s.toRow, hs.inv.space.written_iff]
    exact fun h => h.2.2.1 hp
  refine ⟨fun l l' hne he => ?_, fun p l d hp => ?_, fun p hp => ⟨hfree p hp, fun l hl => ?_⟩⟩
  · have hge := hs.inv.entry_ge l
    obtain ⟨p, hp⟩ : ∃ p : ℕ, s.l2p l = p := ⟨(s.l2p l).toNat, by omega⟩
    obtain ⟨d, hd⟩ := hs.entry_written hp
    obtain ⟨d', hd'⟩ := hs.entry_written (he ▸ hp)
    rw [hd] at hd'
    exact (Page.mk.inj (Option.some.inj hd')).2
  · have hc : (s.toRow.log (s.nand.phys bank)).cell p = some (l, d) := (cell_eq_some _ _).mpr hp
    have hval := hs.inv.space.consistent.valid_iff (Set.notMem_empty p)
    change s.isValid p = true ↔ _ at hval
    rw [hval, ← entry_eq_some (hs.inv.entry_ge l)]
    constructor
    · exact fun h => h l d hc
    · intro h l' d' hc'
      rw [hc] at hc'
      obtain ⟨rfl, -⟩ := Prod.mk.inj (Option.some.inj hc')
      exact h
  · obtain ⟨d, hd⟩ := hs.entry_written hl
    rw [hfree p hp] at hd
    cases hd

theorem gcLoop_codes (h : Hooks α) (victim : ℕ) (s : Bank α) (codes : List Code) : ∀ i, ∃ codes',
    gcLoop g h bank victim { s with codes := codes } i =
      ({ (gcLoop g h bank victim s i).1 with codes := codes' }, (gcLoop g h bank victim s i).2)
  | 0 => ⟨codes, rfl⟩
  | i + 1 => by
    obtain ⟨codes', he⟩ := gcLoop_codes h victim s codes i
    rw [gcLoop, gcLoop, he]
    unfold gcPage
    simp only
    cases hv : (gcLoop g h bank victim s i).1.isValid (victim * g.pagesPerBlk + i) with
    | true => exact ⟨_, rfl⟩
    | false => exact ⟨codes', rfl⟩

theorem garbageCollection_room (h : Hooks α) (hs : s.Ok g bank) (codes : List Code)
    (he : s.nextPpn = s.gcTriggerPpn) :
    (garbageCollection g h bank { s with codes := codes }).nextPpn <
      (garbageCollection g h bank { s with codes := codes }).gcTriggerPpn := by
  obtain ⟨-, -, -, hlt⟩ := garbageCollection_spec h hs he
  obtain ⟨codes', hloop⟩ := @gcLoop_codes _ g bank h (getVictimPblk g s.isValid)
    { s with stats := { s.stats with gcCnt := s.stats.gcCnt + 1 } } codes g.pagesPerBlk
  unfold garbageCollection collect at hlt ⊢
  simp only at hlt hloop ⊢
  rw [hloop]
  exact hlt

end PageMap

namespace PageFtl
open Nand Sector PageMap

variable {s : Ftl} {flat : ℕ → Word}

/-- Bank `b` when the write of page `pp` of a request gets to `write_through_lpn`: since the
round started there has been at most a read of the old page, whose return code is in `codes`. -/
def atRound (s : Ftl) (lba nsect : ℕ) (buf : ℕ → Word) (data : Sectors) (pp b : ℕ)
    (codes : List Code) : Bank Unit :=
  { (writeLoop ⟨lba, nsect⟩ buf ⟨s, 0, data⟩ pp).ftl.bank b with codes := codes }

theorem Refines.round_ok (h : Refines s flat) {lba nsect : ℕ} (hin : InRange lba nsect)
    (buf : ℕ → Word) (data : Sectors) {pp : ℕ} (hpp : pp < (⟨lba, nsect⟩ : Request).sendKazu)
    {b : ℕ} (hb : b < nBanks) :
    ((writeLoop ⟨lba, nsect⟩ buf ⟨s, 0, data⟩ pp).ftl.bank b).Ok geometry b := by
  set r : Request := ⟨lba, nsect⟩
  have hn : 0 < r.nsect := hin.1
  have hstart : Refines (writeLoop r buf ⟨s, 0, data⟩ 0).ftl flat := h
  by_cases hone : r.sendKazu = 1
  · obtain rfl : pp = 0 := by omega
    exact hstart.ok.bank_ok b hb
  · have hloop : ∀ pp ≤ r.sendKazu, Written r flat buf pp (writeLoop r buf ⟨s, 0, data⟩ pp) := by
      intro pp
      induction pp with
      | zero =>
        refine fun _ => ⟨?_, (Request.pos_zero r).symm⟩
        have hnone : writeFlat flat r.lba (r.pos 0) buf = flat := by
          funext a
          exact if_neg (by rw [Request.pos_zero]; omega)
        rwa [hnone]
      | succ pp ih =>
        intro hpp
        exact writePage_written hn hone hpp (Request.lpn_lt hn hpp hin.2) (ih (by omega))
    exact (hloop pp hpp.le).refines.ok.bank_ok b hb

/-- In every reachable state each bank's mapping is consistent and every NAND operation has
succeeded, and a garbage collection started by a further write makes room for it. -/
theorem mapping_invariant (mem : ℕ → Page Sectors ℕ) (stack : Page Sectors ℕ) {ops : List Op}
    (hops : ∀ op ∈ ops, op.InRange) :
    let s := Machine.run step (ftlOpen mem stack) ops
    (∀ b < nBanks, (s.bank b).Mapped geometry b) ∧ (∀ c ∈ s.codes, c = .success) ∧
      ∀ lba nsect, InRange lba nsect → ∀ buf data,
        ∀ pp < (⟨lba, nsect⟩ : Request).sendKazu, ∀ b < nBanks, ∀ codes,
          let x := atRound s lba nsect buf data pp b codes
          x.nextPpn = x.gcTriggerPpn →
            (garbageCollection b x).nextPpn < (garbageCollection b x).gcTriggerPpn := by
  have h := refines_run mem stack hops
  refine ⟨fun b hb => (h.ok.bank_ok b hb).mapped, (h.ok.bank_ok 0 (by decide)).clean, ?_⟩
  intro lba nsect hin buf data pp hpp b hb codes x he
  exact garbageCollection_room hooks (h.round_ok hin buf data hpp hb) codes he

/-- Two overlapping writes. -/
theorem mapping_invariant_rewrites :
    ((Machine.run step (ftlOpen (fun _ => ⟨fun _ => 0, 0⟩) ⟨fun _ => 0, 0⟩)
      [.write 0 16 (fun i => i) fun _ => 0, .write 4 9 (fun i => i) fun _ => 0]).bank 1).Mapped
        geometry 1 :=
  (mapping_invariant (fun _ => ⟨fun _ => 0, 0⟩) ⟨fun _ => 0, 0⟩ (by simp [Op.InRange, InRange,
    nLpns, nLpnsPb, nUserBlocksPb, blksPerBank, nGcBlocks, opRatio, pagesPerBlk, nBanks])).1
      1 (by decide)

end PageFtl
