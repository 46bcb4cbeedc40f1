import Coursework.Dftl.Region

/-! The flat translation table that a bank's CMT, GTD and map pages stand for, and the
invariant of the translation. -/
namespace Dftl
open Nand Sector Paging

/-- The number of map pages the logical pages of a bank need. -/
def nVpns : ℕ := nLpnsPb / nMapEntriesPerPage

theorem lpn2vpn_lt {lpn : ℕ} (h : lpn < nLpnsPb) : lpn2vpn lpn < nVpns := by
  have h1 : nLpnsPb = 512 := rfl
  have h2 : nMapEntriesPerPage = 8 := rfl
  have h3 : nVpns = 64 := rfl
  rw [lpn2vpn, h2, h3]
  omega

/-- The map pages of a bank in NAND, found through the GTD. -/
def mapLog (bank : ℕ) (s : Bank) : PageLog ℤ Sectors :=
  regionLog nPhyDataBlk blksPerBank (s.nand.phys bank) s.gtd s.isValid

/-- The current entries of a map page: its slot if it is cached, else its page in NAND. -/
def mapPage (bank : ℕ) (s : Bank) (vpn : ℕ) : Sectors :=
  match slotOf s.toRow vpn with
  | some o => s.cmtData o
  | none => ((mapLog bank s).value vpn).getD fun _ => -1

/-- The translation table: what `lpn2ppn` stands for. -/
def table (bank : ℕ) (s : Bank) (lpn : ℕ) : ℤ :=
  (mapPage bank s (lpn2vpn lpn)).get (lpn % nMapEntriesPerPage)

section Slots
variable {r r' : Row} {o : ℕ}

/-- The CMT holds different map pages, each of them marked dirty. -/
structure Cmt (r : Row) : Prop where
  slots : Slots.Distinct nSlotPb nVpns r.cmtVpn
  dirty : ∀ o < nSlotPb, r.cmtVpn o ≠ -1 → r.cmtDirty o = true

theorem Cmt.slotOf_eq (h : Cmt r) (ho : o < nSlotPb) {v : ℕ} (hv : r.cmtVpn o = v) :
    slotOf r v = some o := h.slots.find_eq ho hv (by omega)

theorem slotOf_congr (h : r'.cmtVpn = r.cmtVpn) (v : ℤ) : slotOf r' v = slotOf r v := by
  unfold slotOf
  rw [h]

theorem Cmt.congr (h : Cmt r) (hvpn : r'.cmtVpn = r.cmtVpn) (hdirty : r'.cmtDirty = r.cmtDirty) :
    Cmt r' :=
  ⟨by rw [hvpn]; exact h.slots, by rw [hvpn, hdirty]; exact h.dirty⟩

end Slots

/-- The invariant of the translation between two calls. -/
structure MapInv (bank : ℕ) (s : Bank) : Prop where
  fits : Fits s.nand bank
  region : ∃ free, Region nPhyDataBlk blksPerBank .map s.nextMapPpn s.gcTriggerMapPpn
    s.blockStatus (mapLog bank s) free
  outside : ∀ b < nPhyDataBlk, s.blockStatus b ≠ .map
  gtd_ge : ∀ v, -1 ≤ s.gtd v
  gtd_lt : ∀ v, s.gtd v ≠ -1 → v < nVpns
  cmt : Cmt s.toRow
  fresh : ∀ v : ℕ, s.isVpnFirstTime v = true ↔ s.gtd v = -1 ∧ slotOf s.toRow v = none
  table_ge : ∀ l, -1 ≤ table bank s l

/-- What the FTL records of a run in which nothing goes wrong. -/
structure Trace.Clean (t : Trace) : Prop where
  asserted : t.asserted = true
  codes : ∀ c ∈ t.codes, c = .success
  placed : ∀ x ∈ t.placed, x.1 = x.2
  gcReturns : ∀ x ∈ t.gcReturns, x.1 < x.2

/-- The part of a bank's state that belongs to the data path. -/
structure DataSide where
  nextDataPpn : ℕ
  gcTriggerDataPpn : ℕ
  bufferS2l : ℕ → ℤ
  bufferData : ℕ → Sectors
  bufferSpare : ℕ → ℤ
  stack : Page Sectors ℤ
  dataVictims : ℕ → ℕ
  gcReturns : List (ℕ × ℕ)

def Bank.dataSide (s : Bank) : DataSide :=
  ⟨s.nextDataPpn, s.gcTriggerDataPpn, s.bufferS2l, s.bufferData, s.bufferSpare, s.stack,
    s.dataVictims, s.trace.gcReturns⟩

/-- A step of the translation leaves the data blocks and the data path alone. -/
structure MapStep (bank : ℕ) (s s' : Bank) : Prop where
  isLocal : Local s.nand s'.nand bank
  phys : ∀ p, InRegion 0 nPhyDataBlk p → s'.nand.phys bank p = s.nand.phys bank p
  isValid : ∀ p, InRegion 0 nPhyDataBlk p → s'.isValid p = s.isValid p
  status : ∀ b < nPhyDataBlk, s'.blockStatus b = s.blockStatus b
  dataSide : s'.dataSide = s.dataSide
  clean : s.trace.Clean → s'.trace.Clean

namespace MapStep
variable {bank : ℕ} {s s' s'' : Bank}

theorem refl (bank : ℕ) (s : Bank) : MapStep bank s s :=
  ⟨Local.refl _ _, fun _ _ => rfl, fun _ _ => rfl, fun _ _ => rfl, rfl, id⟩

theorem trans (h : MapStep bank s s') (h' : MapStep bank s' s'') : MapStep bank s s'' where
  isLocal := h.isLocal.trans h'.isLocal
  phys := fun p hp => (h'.phys p hp).trans (h.phys p hp)
  isValid := fun p hp => (h'.isValid p hp).trans (h.isValid p hp)
  status := fun b hb => (h'.status b hb).trans (h.status b hb)
  dataSide := h'.dataSide.trans h.dataSide
  clean := fun hc => h'.clean (h.clean hc)

variable (h : MapStep bank s s')
include h

theorem nextDataPpn : s'.nextDataPpn = s.nextDataPpn := congrArg DataSide.nextDataPpn h.dataSide

theorem gcTriggerDataPpn : s'.gcTriggerDataPpn = s.gcTriggerDataPpn :=
  congrArg DataSide.gcTriggerDataPpn h.dataSide

theorem bufferS2l : s'.bufferS2l = s.bufferS2l := congrArg DataSide.bufferS2l h.dataSide

theorem bufferData : s'.bufferData = s.bufferData := congrArg DataSide.bufferData h.dataSide

theorem stack : s'.stack = s.stack := congrArg DataSide.stack h.dataSide

theorem dataVictims : s'.dataVictims = s.dataVictims := congrArg DataSide.dataVictims h.dataSide

theorem gcReturns : s'.trace.gcReturns = s.trace.gcReturns :=
  congrArg DataSide.gcReturns h.dataSide

end MapStep

/-- A step that keeps the invariant and the translation table. -/
structure Kept (bank : ℕ) (s s' : Bank) : Prop where
  inv : MapInv bank s'
  table : table bank s' = table bank s
  step : MapStep bank s s'

theorem Kept.refl {bank : ℕ} {s : Bank} (h : MapInv bank s) : Kept bank s s :=
  ⟨h, rfl, MapStep.refl bank s⟩

theorem Kept.trans {bank : ℕ} {s s' s'' : Bank} (h : Kept bank s s') (h' : Kept bank s' s'') :
    Kept bank s s'' := ⟨h'.inv, h'.table.trans h.table, h.step.trans h'.step⟩

section Elementary
variable {bank : ℕ} {s : Bank}

theorem Bank.require_eq {p : Prop} [Decidable p] (hp : p) : s.require p = s := by
  simp [Bank.require, hp]

theorem kept_count (h : MapInv bank s) (f : Stats → Stats) : Kept bank s (s.count f) :=
  ⟨⟨h.fits, h.region, h.outside, h.gtd_ge, h.gtd_lt, h.cmt, h.fresh, h.table_ge⟩, rfl,
    ⟨Local.refl _ _, fun _ _ => rfl, fun _ _ => rfl, fun _ _ => rfl, rfl, id⟩⟩

/-- The state after a NAND operation that succeeded. -/
def Bank.stored (s : Bank) (n' : Device Sectors ℤ) : Bank := { s.returned .success with nand := n' }

theorem Bank.write_eq {blk page : ℤ} {d : Sectors} {k : ℤ} {n' : Device Sectors ℤ}
    (h : nandWrite s.nand bank blk page d k = (n', .success)) :
    s.write bank blk page d k = s.stored n' := by
  unfold Bank.write Bank.stored
  rw [h]

theorem Bank.eraseBlk_eq {blk : ℕ} {n' : Device Sectors ℤ}
    (h : nandErase s.nand bank blk = (n', .success)) : s.eraseBlk bank blk = s.stored n' := by
  unfold Bank.eraseBlk Bank.stored
  rw [h]

theorem Trace.Clean.returned (h : s.trace.Clean) : (s.returned .success).trace.Clean := by
  refine ⟨h.asserted, fun c hc => ?_, h.placed, h.gcReturns⟩
  rcases List.mem_cons.mp hc with rfl | hc
  · rfl
  · exact h.codes c hc

theorem Trace.Clean.place (h : s.trace.Clean) {n blk : ℕ} {k : Status}
    (hk : s.blockStatus blk = k) : (s.place n k blk).trace.Clean := by
  refine ⟨h.asserted, h.codes, fun x hx => ?_, h.gcReturns⟩
  rcases List.mem_append.mp hx with hx | hx
  · rw [List.eq_of_mem_replicate hx, hk]
  · exact h.placed x hx

theorem mapPage_cached {v o : ℕ} (h : slotOf s.toRow v = some o) :
    mapPage bank s v = s.cmtData o := by
  simp only [mapPage, h]

theorem mapPage_uncached {v : ℕ} (h : slotOf s.toRow v = none) :
    mapPage bank s v = ((mapLog bank s).value v).getD fun _ => -1 := by
  simp only [mapPage, h]

theorem table_congr {s' : Bank} (h : ∀ v, mapPage bank s' v = mapPage bank s v) :
    table bank s' = table bank s := by
  funext l
  rw [table, table, h]

theorem MapInv.page_ge (h : MapInv bank s) (v : ℕ) (i : Fin 8) : -1 ≤ mapPage bank s v i := by
  have hl := h.table_ge (8 * v + i.val)
  have h8 : nMapEntriesPerPage = 8 := rfl
  have h1 : lpn2vpn (8 * v + i.val) = v := by
    rw [lpn2vpn, h8]
    omega
  have h2 : Fin.ofNat 8 ((8 * v + i.val) % 8) = i := by
    ext
    simp only [Fin.ofNat]
    omega
  rw [table, h1, h8, Sectors.get, h2] at hl
  exact hl

end Elementary

end Dftl
