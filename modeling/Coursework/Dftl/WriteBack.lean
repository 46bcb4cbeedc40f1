import Coursework.Dftl.MapCollection

/-! Evicting a map page from the CMT: its entries go to NAND, and the table stays as it is. -/
namespace Dftl
open Nand Sector Paging

variable {bank o : ℕ} {s : Bank} {v : ℕ}

section Slots

theorem Cmt.clear (h : Cmt s.toRow) (o : ℕ) : Cmt (clearSlot o s).toRow := by
  refine ⟨h.slots.clear o, fun o' ho' hv => ?_⟩
  simp only [clearSlot] at hv ⊢
  by_cases he : o' = o
  · rw [he, Function.update_self] at hv
    exact absurd rfl hv
  · rw [Function.update_of_ne he] at hv ⊢
    exact h.dirty o' ho' hv

theorem Cmt.use {r r' : Row} (h : Cmt r) (hv : v < nVpns) (hnone : slotOf r v = none)
    (hvpn : r'.cmtVpn = Function.update r.cmtVpn o (v : ℤ))
    (hdirty : r'.cmtDirty = Function.update r.cmtDirty o true) : Cmt r' := by
  refine ⟨by rw [hvpn]; exact h.slots.use hv hnone o, fun o' ho' hne => ?_⟩
  rw [hvpn] at hne
  rw [hdirty]
  by_cases he : o' = o
  · rw [he, Function.update_self]
  · rw [Function.update_of_ne he] at hne ⊢
    exact h.dirty o' ho' hne

end Slots

section WriteBack

/-- What `append` on the map log is in the state. -/
theorem appendMapPage_kept (hs : MapInv bank s) (hlt : s.nextMapPpn < s.gcTriggerMapPpn)
    (hv : v < nVpns) (ho : o < nSlotPb) (hvpn : s.cmtVpn o = v) :
    Kept bank s (appendMapPage bank o s) ∧ (appendMapPage bank o s).cmtVpn = s.cmtVpn ∧
      (appendMapPage bank o s).cmtDirty = s.cmtDirty ∧
      (appendMapPage bank o s).cmtData = s.cmtData ∧
      (mapLog bank (appendMapPage bank o s)).value v = some (s.cmtData o) := by
  obtain ⟨free, hr⟩ := hs.region
  have hslot := hs.cmt.slotOf_eq ho hvpn
  have hnext := hr.next_inRegion hlt
  have hin : ∀ p : ℕ, s.gtd v = p → InRegion nPhyDataBlk blksPerBank p ∧ p ≠ s.nextMapPpn := by
    intro p hp
    obtain ⟨hpin, d, hc⟩ := hr.entry_written hp
    refine ⟨hpin, ?_⟩
    rintro rfl
    have := hr.space.cell_next hlt
    rw [mapLog, hc] at this
    cases this
  -- the next map page is flagged valid, also after the old page of `v` was flagged invalid
  have hvalid : (s.discard (s.gtd v)).isValid s.nextMapPpn = true := by
    have hold : s.isValid s.nextMapPpn = true := by
      have := hr.space.valid_of_unwritten (hr.space.cell_next hlt)
      rwa [mapLog, valid_inRegion hnext] at this
    simp only [Bank.discard]
    split_ifs with hg
    · rw [Function.update_of_ne]
      · exact hold
      · exact ((hin (s.gtd v).toNat (by omega)).2).symm
    · exact hold
  obtain ⟨n', hwr, hloc, hphys⟩ := hr.write_next hs.fits le_rfl hlt (s.cmtData o) v
  set s' : Bank := (((((s.discard (s.gtd v)).setGtd v s.nextMapPpn).stored n').count fun t =>
    { t with mapWrite := t.mapWrite + 1 }).place 1 .map
      (s.nextMapPpn / pagesPerBlk)).setMapPpns (s.nextMapPpn + 1) s.gcTriggerMapPpn with hs'
  have heq : appendMapPage bank o s = s' := by
    have hreq : ((s.discard (s.gtd v)).setGtd v s.nextMapPpn).require
        (((s.discard (s.gtd v)).setGtd v s.nextMapPpn).isValid s.nextMapPpn = true) =
        (s.discard (s.gtd v)).setGtd v s.nextMapPpn := Bank.require_eq hvalid
    have hwrite : ((s.discard (s.gtd v)).setGtd v s.nextMapPpn).write bank
        ((s.nextMapPpn : ℤ) / pagesPerBlk) ((s.nextMapPpn : ℤ) % pagesPerBlk) (s.cmtData o) v =
        ((s.discard (s.gtd v)).setGtd v s.nextMapPpn).stored n' := Bank.write_eq hwr
    simp only [appendMapPage, hvpn, Int.toNat_natCast]
    rw [hreq, hwrite]
    rfl
  have hlog : mapLog bank s' =
      ((mapLog bank s).discard v).program v (s.cmtData o) s.nextMapPpn := by
    have h1 := @regionLog_discard _ _ (s.nand.phys bank) _ s.isValid _
      (hs.gtd_ge v) fun p hp => (hin p hp).1
    have h2 := @regionLog_program _ _ (s.nand.phys bank) s.gtd
      (s.discard (s.gtd v)).isValid _ hnext _ (Int.natCast_nonneg v) (s.cmtData o)
    rw [← hphys, Int.toNat_natCast] at h2
    calc mapLog bank s' = _ := h2.symm
      _ = _ := by
        rw [mapLog, h1]
        rfl
  have hvalue : (mapLog bank s').value =
      Function.update (mapLog bank s).value v (some (s.cmtData o)) := by
    rw [hlog, hr.space.value_append hlt]
  have hslots (u : ℤ) : slotOf s'.toRow u = slotOf s.toRow u := rfl
  have htable : table bank s' = table bank s := by
    refine table_congr fun u => ?_
    cases hu : slotOf s.toRow u with
    | some o' =>
      rw [mapPage_cached hu, mapPage_cached ((hslots u).trans hu)]
      rfl
    | none =>
      have hne : (u : ℤ) ≠ v := by
        intro he
        rw [he, hslot] at hu
        cases hu
      rw [mapPage_uncached hu, mapPage_uncached ((hslots u).trans hu), hvalue,
        Function.update_of_ne hne]
  have hstep : MapStep bank s s' := by
    refine ⟨hloc, fun p hp => ?_, fun p hp => ?_, fun _ _ => rfl, rfl, fun hc => ?_⟩
    · change n'.phys bank p = _
      rw [hphys, Function.update_of_ne]
      rintro rfl
      exact absurd (hnext.1.trans_lt hp.2) (lt_irrefl _)
    · change (s.discard (s.gtd v)).isValid p = _
      simp only [Bank.discard]
      split_ifs with hg
      · rw [Function.update_of_ne]
        have hge := (hin (s.gtd v).toNat (by omega)).1.1
        have := hp.2
        omega
      · rfl
    · have hkind := hr.next_kind hlt
      exact Trace.Clean.place (s := ((s.discard (s.gtd v)).setGtd v s.nextMapPpn).stored n')
        hc.returned hkind
  rw [heq]
  refine ⟨⟨?_, htable, hstep⟩, rfl, rfl, rfl, by rw [hvalue, Function.update_self]⟩
  constructor
  · exact hs.fits.of_local hloc
  · refine ⟨free, ?_, hr.free_empty, hr.others⟩
    rw [hlog]
    exact hr.space.append hlt v (s.cmtData o)
  · exact hs.outside
  · intro u
    change -1 ≤ Function.update s.gtd v (s.nextMapPpn : ℤ) u
    by_cases hu : u = v
    · rw [hu, Function.update_self]
      omega
    · rw [Function.update_of_ne hu]
      exact hs.gtd_ge u
  · intro u hu
    change Function.update s.gtd v (s.nextMapPpn : ℤ) u ≠ -1 at hu
    by_cases huv : u = v
    · rwa [huv]
    · rw [Function.update_of_ne huv] at hu
      exact hs.gtd_lt u hu
  · exact hs.cmt.congr rfl rfl
  · intro u
    change s.isVpnFirstTime u = true ↔ Function.update s.gtd v (s.nextMapPpn : ℤ) u = -1 ∧ _
    rw [hs.fresh, hslots]
    by_cases hu : u = v
    · rw [hu, Function.update_self, hslot]
      simp
    · rw [Function.update_of_ne hu]
  · rw [htable]
    exact hs.table_ge

/-- Writing a slot back stores its entries in NAND. -/
theorem writeBack_kept (hs : MapInv bank s) (hv : v < nVpns) (ho : o < nSlotPb)
    (hvpn : s.cmtVpn o = v) :
    Kept bank s (writeBack bank o s) ∧ (writeBack bank o s).cmtVpn = s.cmtVpn ∧
      (writeBack bank o s).cmtDirty = s.cmtDirty ∧
      (mapLog bank (writeBack bank o s)).value v = some ((writeBack bank o s).cmtData o) := by
  obtain ⟨free, hr⟩ := hs.region
  have htrig : s.gcTriggerMapPpn ≤ pagesPerBlk * blksPerBank := by
    rw [Nat.mul_comm]
    exact hr.space.trig_le
  have heq : writeBack bank o s = appendMapPage bank o
      (if s.nextMapPpn = s.gcTriggerMapPpn then mapGarbageCollection bank s else s) := by
    simp only [writeBack, Bank.require_eq (hr.space.next_le.trans htrig), Bank.require_eq htrig]
  rw [heq]
  obtain ⟨s₁, hs₁, hkept, e1, e2, hlt⟩ : ∃ s₁ : Bank, s₁ = (if s.nextMapPpn = s.gcTriggerMapPpn
      then mapGarbageCollection bank s else s) ∧ Kept bank s s₁ ∧ s₁.cmtVpn = s.cmtVpn ∧
      s₁.cmtDirty = s.cmtDirty ∧ s₁.nextMapPpn < s₁.gcTriggerMapPpn := by
    refine ⟨_, rfl, ?_⟩
    split_ifs with he
    · obtain ⟨h1, h2, h3, -, h5⟩ := mapGarbageCollection_kept hs he
      exact ⟨h1, h2, h3, h5⟩
    · exact ⟨Kept.refl hs, rfl, rfl, lt_of_le_of_ne hr.space.next_le he⟩
  rw [← hs₁]
  obtain ⟨h1, h2, h3, h4, h5⟩ := appendMapPage_kept hkept.inv hlt hv ho (by rw [e1, hvpn])
  exact ⟨hkept.trans h1, h2.trans e1, h3.trans e2, by rw [h5, h4]⟩

/-- Clearing a slot whose entries are in NAND. -/
theorem clearSlot_kept (hs : MapInv bank s) (ho : o < nSlotPb) (hvpn : s.cmtVpn o = v)
    (hval : (mapLog bank s).value v = some (s.cmtData o)) : Kept bank s (clearSlot o s) := by
  have hslot := hs.cmt.slotOf_eq ho hvpn
  have hcmt : Cmt (clearSlot o s).toRow := hs.cmt.clear o
  have hgone : slotOf (clearSlot o s).toRow v = none := hs.cmt.slots.find_clear ho hvpn (by omega)
  have hother : ∀ u : ℕ, u ≠ v → slotOf (clearSlot o s).toRow u = slotOf s.toRow u := fun u hu =>
    Slots.find_update (by omega) (by omega)
  have htable : table bank (clearSlot o s) = table bank s := by
    refine table_congr fun u => ?_
    by_cases hu : u = v
    · subst hu
      rw [mapPage_cached hslot, mapPage_uncached hgone]
      change ((mapLog bank s).value u).getD _ = _
      rw [hval]
      rfl
    · cases hsu : slotOf s.toRow u with
      | some o' =>
        rw [mapPage_cached hsu, mapPage_cached ((hother u hu).trans hsu)]
        rfl
      | none =>
        rw [mapPage_uncached hsu, mapPage_uncached ((hother u hu).trans hsu)]
        rfl
  refine ⟨⟨hs.fits, hs.region, hs.outside, hs.gtd_ge, hs.gtd_lt, hcmt, fun u => ?_, ?_⟩, htable,
    ⟨Local.refl _ _, fun _ _ => rfl, fun _ _ => rfl, fun _ _ => rfl, rfl, id⟩⟩
  · change s.isVpnFirstTime u = true ↔ s.gtd u = -1 ∧ _
    rw [hs.fresh]
    by_cases hu : u = v
    · -- the page is in NAND, so the GTD has an entry for it
      subst hu
      have hloc : s.gtd u ≠ -1 := by
        intro hneg
        have : (mapLog bank s).loc u = none := by rw [mapLog, loc_natCast, hneg, entry_neg_one]
        rw [PageLog.value, this] at hval
        cases hval
      simp [hloc]
    · rw [hother u hu]
  · rw [htable]
    exact hs.table_ge

theorem makeFreeSlot_kept (hs : MapInv bank s) (ho : o < nSlotPb) (hvpn : s.cmtVpn o ≠ -1) :
    Kept bank s (makeFreeSlot bank o s) ∧
      (makeFreeSlot bank o s).cmtVpn = Function.update s.cmtVpn o (-1) := by
  obtain ⟨v, hv, he⟩ := hs.cmt.slots.in_use ho hvpn
  obtain ⟨h1, h2, -, h4⟩ := writeBack_kept hs hv ho he
  have heq : makeFreeSlot bank o s = clearSlot o (writeBack bank o s) := by
    simp only [makeFreeSlot, originalMakeFreeSlot, Bank.require_eq, hs.cmt.dirty o ho hvpn,
      ↓reduceIte]
  rw [heq]
  exact ⟨h1.trans (clearSlot_kept h1.inv ho (by rw [h2, he]) h4), by simp only [clearSlot, h2]⟩

end WriteBack

end Dftl
