import Coursework.Dftl.WriteBack
import Coursework.Lib.Machine

/-! `lpn2ppn` and `update_L2P` read and write one entry of the flat table, whatever they move
between the CMT and NAND on the way. -/
namespace Dftl
open Nand Sector Paging

variable {bank o : ℕ} {s : Bank} {v : ℕ}

section Use

/-- The entries a slot is filled with are those of the map page. -/
theorem fillSlot_eq (hs : MapInv bank s) (hnone : slotOf s.toRow v = none) :
    ∃ F t, fillSlot bank v o s = { s with
        isVpnFirstTime := F
        cmtData := Function.update s.cmtData o (mapPage bank s v)
        trace := t } ∧
      F v = false ∧ (∀ u, u ≠ v → F u = s.isVpnFirstTime u) ∧
      (s.trace.Clean → t.Clean) ∧ t.gcReturns = s.trace.gcReturns := by
  have hpage := @mapPage_uncached bank _ _ hnone
  have hfresh := hs.fresh v
  unfold fillSlot
  simp only
  by_cases hg : s.gtd v ≥ 0
  · rw [if_pos hg]
    obtain ⟨p, hp⟩ : ∃ p : ℕ, s.gtd v = p := ⟨_, (Int.toNat_of_nonneg hg).symm⟩
    obtain ⟨free, hr⟩ := hs.region
    have hloc : (mapLog bank s).loc v = some p := by rw [mapLog, loc_natCast, hp, entry_natCast]
    obtain ⟨-, d, hc⟩ := hr.space.consistent.located hloc
    have hphys := (cell_eq_some (inRegion_of_cell hc)).mp hc
    have hd : mapPage bank s v = d := by
      rw [hpage, PageLog.value_eq_of_cell hloc hc]
      rfl
    rw [hp, hs.fits.read hphys]
    rw [Bank.require_eq (fun i => by have := hs.page_ge v i; rwa [hd] at this)]
    have hold : s.isVpnFirstTime v = false := by
      rw [← Bool.not_eq_true, hfresh]
      omega
    refine ⟨s.isVpnFirstTime, (s.returned .success).trace, ?_, hold, fun _ _ => rfl,
      Trace.Clean.returned, rfl⟩
    rw [hd]
    rfl
  · have hneg : s.gtd v = -1 := by
      have := hs.gtd_ge v
      omega
    have hloc : (mapLog bank s).loc v = none := by
      rw [mapLog, loc_natCast, hneg, entry_neg_one]
    have hd : mapPage bank s v = fun _ => -1 := by
      rw [hpage, PageLog.value, hloc]
      rfl
    rw [if_neg hg, if_pos (hfresh.mpr ⟨hneg, hnone⟩), hd]
    exact ⟨Function.update s.isVpnFirstTime v false, s.trace, rfl, Function.update_self _ _ _,
      fun u hu => Function.update_of_ne hu _ _, id, rfl⟩

/-- `use_free_slot` caches the map page. -/
theorem useFreeSlot_kept (hs : MapInv bank s) (hv : v < nVpns) (ho : o < nSlotPb)
    (hfree : s.cmtVpn o = -1) (hnone : slotOf s.toRow v = none) :
    Kept bank s (useFreeSlot bank v o s) ∧ slotOf (useFreeSlot bank v o s).toRow v = some o := by
  obtain ⟨F, t, he, hF, hF', hclean, hgc⟩ := fillSlot_eq (o := o) hs hnone
  set s' : Bank := { s with
    isVpnFirstTime := F
    cmtData := Function.update s.cmtData o (mapPage bank s v)
    cmtVpn := Function.update s.cmtVpn o (v : ℤ)
    cmtDirty := Function.update s.cmtDirty o true
    trace := t } with hs'
  have heq : useFreeSlot bank v o s = s' := by
    simp only [useFreeSlot, Bank.require_eq hfree]
    rw [he]
  have hcmt : Cmt s'.toRow := hs.cmt.use hv hnone rfl rfl
  have hslot : slotOf s'.toRow v = some o := hcmt.slotOf_eq ho (Function.update_self _ _ _)
  have hother : ∀ u : ℕ, u ≠ v → slotOf s'.toRow u = slotOf s.toRow u := fun u hu =>
    Slots.find_update (by omega) (by omega)
  have htable : table bank s' = table bank s := by
    refine table_congr fun u => ?_
    by_cases hu : u = v
    · rw [hu, mapPage_cached hslot]
      exact Function.update_self _ _ _
    · cases hsu : slotOf s.toRow u with
      | some o' =>
        rw [mapPage_cached hsu, mapPage_cached ((hother u hu).trans hsu)]
        refine Function.update_of_ne ?_ _ _
        rintro rfl
        have := (Slots.find_some hsu).2
        omega
      | none =>
        rw [mapPage_uncached hsu, mapPage_uncached ((hother u hu).trans hsu)]
        rfl
  have hstep : MapStep bank s s' := by
    refine ⟨Local.refl _ _, fun _ _ => rfl, fun _ _ => rfl, fun _ _ => rfl, ?_, hclean⟩
    simp only [Bank.dataSide, s', hgc]
  rw [heq]
  refine ⟨⟨⟨hs.fits, hs.region, hs.outside, hs.gtd_ge, hs.gtd_lt, hcmt, fun u => ?_, ?_⟩, htable,
    hstep⟩, hslot⟩
  · change F u = true ↔ s.gtd u = -1 ∧ _
    by_cases hu : u = v
    · rw [hu, hF, hslot]
      simp
    · rw [hF' u hu, hs.fresh, hother u hu]
  · rw [htable]
    exact hs.table_ge

theorem kept_getLruSlot (hs : MapInv bank s) : Kept bank s (getLruSlot s).2 :=
  ⟨⟨hs.fits, hs.region, hs.outside, hs.gtd_ge, hs.gtd_lt, hs.cmt, hs.fresh, hs.table_ge⟩, rfl,
    ⟨Local.refl _ _, fun _ _ => rfl, fun _ _ => rfl, fun _ _ => rfl, rfl, id⟩⟩

/-- After `ensureFreeSlot` there is a free slot, and no page was brought in. -/
theorem ensureFreeSlot_kept (hs : MapInv bank s) :
    Kept bank s (ensureFreeSlot bank s) ∧
      (∃ o < nSlotPb, getFreeSlot (ensureFreeSlot bank s).toRow = some o ∧
        (ensureFreeSlot bank s).cmtVpn o = -1) ∧
      ∀ v : ℕ, slotOf s.toRow v = none → slotOf (ensureFreeSlot bank s).toRow v = none := by
  unfold ensureFreeSlot
  split_ifs with hfull
  · have hlru := kept_getLruSlot hs
    have ho : (getLruSlot s).1 < nSlotPb := Nat.mod_lt _ (by decide)
    have hvpn : (getLruSlot s).2.cmtVpn (getLruSlot s).1 ≠ -1 :=
      Slots.find_eq_none.mp hfull _ ho
    obtain ⟨h1, h2⟩ := makeFreeSlot_kept hlru.inv ho hvpn
    refine ⟨hlru.trans h1, ?_, fun v hv => ?_⟩
    · cases hfree : getFreeSlot (makeFreeSlot bank (getLruSlot s).1 (getLruSlot s).2).toRow with
      | none =>
        have := Slots.find_eq_none.mp hfree _ ho
        rw [h2, Function.update_self] at this
        exact absurd rfl this
      | some o => exact ⟨o, (Slots.find_some hfree).1, rfl, (Slots.find_some hfree).2⟩
    · refine Slots.find_eq_none.mpr fun o' ho' => ?_
      rw [h2]
      by_cases he : o' = (getLruSlot s).1
      · rw [he, Function.update_self]
        omega
      · rw [Function.update_of_ne he]
        exact Slots.find_eq_none.mp hv o' ho'
  · refine ⟨Kept.refl hs, ?_, fun v hv => hv⟩
    obtain ⟨o, ho⟩ := Option.ne_none_iff_exists'.mp hfull
    exact ⟨o, (Slots.find_some ho).1, ho, (Slots.find_some ho).2⟩

end Use

theorem cacheVpn_kept (hs : MapInv bank s) (hv : v < nVpns) :
    Kept bank s (cacheVpn bank v s).2 ∧
      slotOf (cacheVpn bank v s).2.toRow v = some (cacheVpn bank v s).1 := by
  have hlook := kept_count hs fun t => t.lookup (slotOf s.toRow v).isSome
  unfold cacheVpn isVpnCached
  simp only
  cases hslot : slotOf s.toRow v with
  | some o =>
    rw [hslot] at hlook
    exact ⟨hlook, hslot⟩
  | none =>
    rw [hslot] at hlook
    obtain ⟨h1, ⟨o, ho, hfree, hvpn⟩, h3⟩ := ensureFreeSlot_kept hlook.inv
    obtain ⟨h4, h5⟩ := useFreeSlot_kept h1.inv hv ho hvpn (h3 v hslot)
    have h6 := kept_count h4.inv fun t => t.lookup true
    simp only [hfree, h5, Bank.require_eq, Option.isSome_some, Option.getD_some]
    exact ⟨((hlook.trans h1).trans h4).trans h6, h5⟩

theorem lpn2ppn_kept (hs : MapInv bank s) {lpn : ℕ} (hl : lpn < nLpnsPb) :
    Kept bank s (lpn2ppn bank lpn s).2 ∧ (lpn2ppn bank lpn s).1 = table bank s lpn := by
  obtain ⟨h1, h2⟩ := cacheVpn_kept hs (lpn2vpn_lt hl)
  refine ⟨h1, ?_⟩
  rw [← h1.table, table, mapPage_cached h2]
  rfl

theorem get_patch_one (d : Sectors) {j k : ℕ} (hk : k < 8) (w : Word) :
    (d.patch j 1 fun _ => w).get k = if k = j then w else d.get k := by
  have hval : (Fin.ofNat 8 k).val = k := Nat.mod_eq_of_lt hk
  simp only [Sectors.get, Sectors.patch, hval]
  exact if_congr (by omega) rfl rfl

/-- `update_L2P` sets an entry of the table. -/
theorem updateL2p_spec (hs : MapInv bank s) {lpn : ℕ} (hl : lpn < nLpnsPb) {ppn : ℤ}
    (hp : 0 ≤ ppn) : MapInv bank (updateL2p bank lpn ppn s) ∧
      table bank (updateL2p bank lpn ppn s) = Function.update (table bank s) lpn ppn ∧
      MapStep bank s (updateL2p bank lpn ppn s) := by
  obtain ⟨h1, h2⟩ := cacheVpn_kept hs (lpn2vpn_lt hl)
  unfold updateL2p
  simp only
  generalize cacheVpn bank (lpn2vpn lpn) s = x at *
  obtain ⟨o, s₁⟩ := x
  simp only at h1 h2 ⊢
  have hs₁ := h1.inv
  have hold : s₁.isVpnFirstTime (lpn2vpn lpn) = false := by
    rw [← Bool.not_eq_true, hs₁.fresh, h2]
    simp
  obtain ⟨ho, hvpn⟩ := Slots.find_some h2
  set s' : Bank := { s₁.loadSlot o ((s₁.cmtData o).patch (lpn % nMapEntriesPerPage) 1 fun _ => ppn)
    with cmtDirty := Function.update s₁.cmtDirty o true } with hs'
  have heq : setEntry (lpn2vpn lpn) o lpn ppn s₁ = s' := by
    simp only [setEntry, hold, Bool.false_eq_true, ↓reduceIte]
    rw [Bank.require_eq hp]
    rfl
  have hcmt : Cmt s'.toRow := by
    refine ⟨hs₁.cmt.slots, fun o' ho' hne => ?_⟩
    change Function.update s₁.cmtDirty o true o' = true
    by_cases he : o' = o
    · rw [he, Function.update_self]
    · rw [Function.update_of_ne he]
      exact hs₁.cmt.dirty o' ho' hne
  have hslots (u : ℤ) : slotOf s'.toRow u = slotOf s₁.toRow u := rfl
  have htable : table bank s' = Function.update (table bank s) lpn ppn := by
    rw [← h1.table]
    funext l
    have hl8 : l % nMapEntriesPerPage < 8 := Nat.mod_lt _ (by decide)
    by_cases hpage : lpn2vpn l = lpn2vpn lpn
    · rw [table, hpage, mapPage_cached ((hslots _).trans h2)]
      change (Function.update s₁.cmtData o _ o).get _ = _
      rw [Function.update_self, get_patch_one _ hl8]
      by_cases he : l = lpn
      · subst he
        rw [Function.update_self, if_pos rfl]
      · rw [Function.update_of_ne he, if_neg, table, hpage, mapPage_cached h2]
        intro hmod
        apply he
        rw [← Nat.div_add_mod l nMapEntriesPerPage, ← Nat.div_add_mod lpn nMapEntriesPerPage, hmod]
        exact congrArg (fun x => nMapEntriesPerPage * x + _) hpage
    · have he : l ≠ lpn := fun he => hpage (by rw [he])
      rw [Function.update_of_ne he, table, table]
      congr 1
      cases hsu : slotOf s₁.toRow (lpn2vpn l) with
      | some o' =>
        rw [mapPage_cached hsu, mapPage_cached ((hslots _).trans hsu)]
        refine Function.update_of_ne ?_ _ _
        rintro rfl
        have := (Slots.find_some hsu).2
        omega
      | none =>
        rw [mapPage_uncached hsu, mapPage_uncached ((hslots _).trans hsu)]
        rfl
  rw [heq]
  refine ⟨⟨hs₁.fits, hs₁.region, hs₁.outside, hs₁.gtd_ge, hs₁.gtd_lt, hcmt, hs₁.fresh, ?_⟩, htable,
    h1.step.trans ⟨Local.refl _ _, fun _ _ => rfl, fun _ _ => rfl, fun _ _ => rfl, rfl, id⟩⟩
  intro l
  rw [htable]
  by_cases he : l = lpn
  · rw [he, Function.update_self]
    omega
  · rw [Function.update_of_ne he]
    exact hs.table_ge l

end Dftl
