import Coursework.Dftl.Table

/-! Map garbage collection keeps the translation table and makes room for map pages. -/
namespace Dftl
open Nand Sector Paging

section Search
variable {r : Row}

theorem scanMapBlk_none : ∀ {n : ℕ}, (∀ b < n, r.blockStatus b ≠ .map) →
    scanMapBlk r n = (-1, none)
  | 0, _ => rfl
  | n + 1, h => by
    simp only [scanMapBlk]
    rw [if_pos (h n n.lt_succ_self), scanMapBlk_none fun b hb => h b (by omega)]

theorem scanMapBlk_some : ∀ {n : ℕ}, (∃ b < n, r.blockStatus b = .map) →
    ∃ v < n, scanMapBlk r n = ((invalidCnt r.isValid v : ℤ), some v) ∧ r.blockStatus v = .map ∧
      ∀ b < n, r.blockStatus b = .map → invalidCnt r.isValid b ≤ invalidCnt r.isValid v
  | 0, ⟨b, hb, _⟩ => absurd hb (Nat.not_lt_zero b)
  | n + 1, ⟨b, hb, hmap⟩ => by
    simp only [scanMapBlk]
    by_cases hbelow : ∃ b < n, r.blockStatus b = .map
    · obtain ⟨v, hv, he, hvm, hmax⟩ := scanMapBlk_some hbelow
      rw [he]
      by_cases hn : r.blockStatus n = .map
      · rw [if_neg (not_not.mpr hn)]
        by_cases hlt : invalidCnt r.isValid v < invalidCnt r.isValid n
        · rw [if_pos (by simpa using hlt)]
          refine ⟨n, n.lt_succ_self, rfl, hn, fun b hb hbm => ?_⟩
          rcases Nat.lt_succ_iff_lt_or_eq.mp hb with hb | rfl
          · exact (hmax b hb hbm).trans hlt.le
          · exact le_rfl
        · rw [if_neg (by simpa using hlt)]
          refine ⟨v, by omega, rfl, hvm, fun b hb hbm => ?_⟩
          rcases Nat.lt_succ_iff_lt_or_eq.mp hb with hb | rfl
          · exact hmax b hb hbm
          · exact not_lt.mp hlt
      · rw [if_pos hn]
        refine ⟨v, by omega, rfl, hvm, fun b hb hbm => ?_⟩
        rcases Nat.lt_succ_iff_lt_or_eq.mp hb with hb | rfl
        · exact hmax b hb hbm
        · exact absurd hbm hn
    · have hnone : ∀ b < n, r.blockStatus b ≠ .map := fun b hb hbm => hbelow ⟨b, hb, hbm⟩
      obtain rfl : b = n := by
        by_contra hne
        exact hnone b (by omega) hmap
      rw [if_neg (not_not.mpr hmap), scanMapBlk_none hnone, if_pos (by omega)]
      refine ⟨b, b.lt_succ_self, rfl, hmap, fun b' hb' hbm => ?_⟩
      rcases Nat.lt_succ_iff_lt_or_eq.mp hb' with hb' | rfl
      · exact absurd hbm (hnone b' hb')
      · exact le_rfl

theorem greedyMapBlk_some (h : ∃ b < blksPerBank, r.blockStatus b = .map) :
    ∃ v < blksPerBank, greedyMapBlk r = some v ∧ r.blockStatus v = .map ∧
      ∀ b < blksPerBank, r.blockStatus b = .map →
        invalidCnt r.isValid b ≤ invalidCnt r.isValid v := by
  obtain ⟨v, hv, he, h1, h2⟩ := scanMapBlk_some h
  exact ⟨v, hv, by rw [greedyMapBlk, he], h1, h2⟩

theorem find_reverse_range {p : ℕ → Bool} {b : ℕ} : ∀ {n : ℕ}, b < n → p b = true →
    (∀ c, b < c → c < n → p c = false) → (List.range n).reverse.find? p = some b
  | 0, hb, _, _ => absurd hb (Nat.not_lt_zero b)
  | n + 1, hb, hp, hlast => by
    rw [List.range_succ, List.reverse_append]
    change List.find? p (n :: (List.range n).reverse) = some b
    rcases Nat.lt_succ_iff_lt_or_eq.mp hb with hb | rfl
    · rw [List.find?_cons_of_neg (by simp [hlast n hb n.lt_succ_self])]
      exact find_reverse_range hb hp fun c h1 h2 => hlast c h1 (by omega)
    · rw [List.find?_cons_of_pos hp]

end Search

variable {bank victim free i : ℕ} {s : Bank} {st : MapCopy}

theorem getFreeBlkMap_eq {next trig : ℕ} {L : PageLog ℤ Sectors}
    (h : Region nPhyDataBlk blksPerBank .map next trig s.blockStatus L free) :
    getFreeBlkMap s.toRow = some free := by
  refine find_reverse_range h.space.free_lt (by simp [h.free_empty]) fun c h1 h2 => ?_
  rw [h.others c (h.space.le_free.trans h1.le) h2 h1.ne']
  rfl

/-- The part of a bank's state that the copy loop leaves alone. -/
structure CmtSide where
  cmtVpn : ℕ → ℤ
  cmtDirty : ℕ → Bool
  cmtData : ℕ → Sectors
  isVpnFirstTime : ℕ → Bool
  blockStatus : ℕ → Status
  isValid : ℕ → Bool

def Bank.cmtSide (s : Bank) : CmtSide :=
  ⟨s.cmtVpn, s.cmtDirty, s.cmtData, s.isVpnFirstTime, s.blockStatus, s.isValid⟩

/-- What the copy loop has done after its first `i` rounds. Pages of cached map pages get the
newer entries of the cache. -/
structure MapCopied (bank victim free : ℕ) (s : Bank) (i : ℕ) (st : MapCopy) : Prop where
  compacting : PageLog.Compacting pagesPerBlk victim free {k | slotOf s.toRow k ≠ none}
    (mapLog bank s) i st.copyCnt (mapLog bank st.state)
  step : MapStep bank s st.state
  cmtSide : st.state.cmtSide = s.cmtSide
  gtd_ge : ∀ v, -1 ≤ st.state.gtd v
  gtd_lt : ∀ v, st.state.gtd v ≠ -1 → v < nVpns

theorem mapGcPage_eq {pg : Page Sectors ℤ} {n' : Device Sectors ℤ}
    (hv : st.state.isValid (victim * pagesPerBlk + i) = true)
    (hrd : ∀ d k, nandRead st.state.nand bank victim i d k = (.success, pg))
    (hk : pg.spare ≠ -1)
    (hwr : nandWrite st.state.nand bank free st.copyCnt
      ((slotOf st.state.toRow pg.spare).elim pg.data st.state.cmtData) pg.spare = (n', .success)) :
    ∃ f g, mapGcPage bank victim free st i =
      ⟨((((st.state.returned .success).count f).stored n').count g).setGtd pg.spare.toNat
        (free * pagesPerBlk + st.copyCnt), pg, st.copyCnt + 1⟩ := by
  unfold mapGcPage
  simp only [hv, ↓reduceIte, hrd, isVpnCached, Bank.require_eq hk]
  refine ⟨fun t => t.lookup (slotOf st.state.toRow pg.spare).isSome,
    fun t => { t with mapGcWrite := t.mapGcWrite + 1 }, ?_⟩
  rw [@Bank.write_eq _ _ _ _ _ _ n']
  · rfl
  · rw [← hwr]
    congr 1
    have hsame : slotOf (st.state.returned .success).toRow pg.spare =
        slotOf st.state.toRow pg.spare := rfl
    rw [hsame]
    cases slotOf st.state.toRow pg.spare <;> rfl

theorem MapCopied.round (hs : MapInv bank s)
    (hr : Region nPhyDataBlk blksPerBank .map s.nextMapPpn s.gcTriggerMapPpn s.blockStatus
      (mapLog bank s) free) (he : s.nextMapPpn = s.gcTriggerMapPpn) (hvf : victim ≠ free)
    (hlo : nPhyDataBlk ≤ victim) (hhi : victim < blksPerBank) (hi : i < pagesPerBlk)
    (h : MapCopied bank victim free s i st) :
    MapCopied bank victim free s (i + 1) (mapGcPage bank victim free st i) := by
  have hin := inRegion_page hlo hhi hi
  have hvalid : st.state.isValid = s.isValid := congrArg CmtSide.isValid h.cmtSide
  have hvpn : st.state.cmtVpn = s.cmtVpn := congrArg CmtSide.cmtVpn h.cmtSide
  cases hv : st.state.isValid (victim * pagesPerBlk + i) with
  | false =>
    have hskip : (mapLog bank s).valid (victim * pagesPerBlk + i) = false := by
      rw [mapLog, valid_inRegion hin, ← hvalid, hv]
    unfold mapGcPage
    simp only [hv, Bool.false_eq_true, ↓reduceIte]
    exact { h with compacting := h.compacting.skip hi hskip }
  | true =>
    have hmoved : (mapLog bank s).valid (victim * pagesPerBlk + i) = true := by
      rw [mapLog, valid_inRegion hin, ← hvalid, hv]
    have hfits := hs.fits.of_local h.step.isLocal
    have hcP : st.copyCnt < pagesPerBlk := h.compacting.count_le.trans_lt hi
    -- the victim block is full, so its page can be read
    have hfull := hr.space.full he hvf hlo hhi hi
    rw [← h.compacting.cell_other _ (by rw [div_page hi]; exact hvf)] at hfull
    obtain ⟨⟨k, d⟩, hcell⟩ := Option.isSome_iff_exists.mp hfull
    have hphys : st.state.nand.phys bank (victim * pagesPerBlk + i) = some ⟨d, k⟩ :=
      (cell_eq_some hin).mp hcell
    -- it holds the map page the GTD has at this place
    obtain ⟨hk, hgtd⟩ := loc_eq_some h.gtd_ge (h.compacting.located hi hmoved hcell)
    have hklt : k.toNat < nVpns := h.gtd_lt _ (by omega)
    obtain ⟨n', hwr, hloc, hphys'⟩ := write_moved hfits h.compacting hr.space.le_free
      hr.space.free_lt le_rfl hcP ((slotOf st.state.toRow k).elim d st.state.cmtData) k
    obtain ⟨f, g, heq⟩ := @mapGcPage_eq _ _ _ _ _ ⟨d, k⟩ _ hv
      (fun d' k' => hfits.read_page hi hphys d' k') (by change k ≠ -1; omega) hwr
    have hdest := inRegion_page hr.space.le_free hr.space.free_lt hcP
    rw [heq]
    constructor
    · have hmove := h.compacting.move hvf hi hmoved hcell
        ((slotOf st.state.toRow k).elim d st.state.cmtData) (by
          intro hC
          have hnone : slotOf st.state.toRow k = none := by
            rw [slotOf_congr hvpn]
            exact not_not.mp hC
          rw [hnone]
          rfl)
      have hprog := @regionLog_program _ _ (st.state.nand.phys bank) st.state.gtd
        st.state.isValid _ hdest _ hk ((slotOf st.state.toRow k).elim d st.state.cmtData)
      rw [← hphys'] at hprog
      rw [show (mapLog bank st.state).program k _ _ = _ from hprog] at hmove
      exact hmove
    · refine h.step.trans ⟨hloc, fun p hp => ?_, fun _ _ => rfl, fun _ _ => rfl, rfl,
        fun hc => ?_⟩
      · change n'.phys bank p = _
        rw [hphys', Function.update_of_ne]
        rintro rfl
        exact absurd (hdest.1.trans_lt hp.2) (lt_irrefl _)
      · exact Trace.Clean.returned (s := (st.state.returned .success)) hc.returned
    · exact h.cmtSide
    · intro v
      by_cases hvk : v = k.toNat
      · subst hvk
        simp only [Bank.setGtd, Function.update_self]
        omega
      · simp only [Bank.setGtd]
        rw [Function.update_of_ne hvk]
        exact h.gtd_ge v
    · intro v hgv
      by_cases hvk : v = k.toNat
      · rw [hvk]
        exact hklt
      · simp only [Bank.setGtd] at hgv
        rw [Function.update_of_ne hvk] at hgv
        exact h.gtd_lt v hgv

theorem mapGcLoop_copied (hs : MapInv bank s)
    (hr : Region nPhyDataBlk blksPerBank .map s.nextMapPpn s.gcTriggerMapPpn s.blockStatus
      (mapLog bank s) free) (he : s.nextMapPpn = s.gcTriggerMapPpn) (hvf : victim ≠ free)
    (hlo : nPhyDataBlk ≤ victim) (hhi : victim < blksPerBank) :
    ∀ i ≤ pagesPerBlk, MapCopied bank victim free s i (mapGcLoop bank victim free s i)
  | 0, _ => ⟨PageLog.Compacting.start hr.space, MapStep.refl bank s, rfl, hs.gtd_ge, hs.gtd_lt⟩
  | i + 1, hi => (mapGcLoop_copied hs hr he hvf hlo hhi i (by omega)).round hs hr he hvf hlo hhi
      (by omega)

/-- `map_garbage_collection` keeps the translation table; afterwards there is a free page. -/
theorem mapCollect_kept (hs : MapInv bank s)
    (hr : Region nPhyDataBlk blksPerBank .map s.nextMapPpn s.gcTriggerMapPpn s.blockStatus
      (mapLog bank s) free) (he : s.nextMapPpn = s.gcTriggerMapPpn) (hvf : victim ≠ free)
    (hlo : nPhyDataBlk ≤ victim) (hhi : victim < blksPerBank)
    (hinv : ∃ j < pagesPerBlk, s.isValid (victim * pagesPerBlk + j) = false) :
    Kept bank s (mapCollect bank victim free s) ∧
      (mapCollect bank victim free s).cmtVpn = s.cmtVpn ∧
      (mapCollect bank victim free s).cmtDirty = s.cmtDirty ∧
      (mapCollect bank victim free s).cmtData = s.cmtData ∧
      (mapCollect bank victim free s).nextMapPpn <
        (mapCollect bank victim free s).gcTriggerMapPpn := by
  have h := mapGcLoop_copied hs hr he hvf hlo hhi pagesPerBlk le_rfl
  have hvpn : (mapGcLoop bank victim free s pagesPerBlk).state.cmtVpn = s.cmtVpn :=
    congrArg CmtSide.cmtVpn h.cmtSide
  have hdirty : (mapGcLoop bank victim free s pagesPerBlk).state.cmtDirty = s.cmtDirty :=
    congrArg CmtSide.cmtDirty h.cmtSide
  have hdata : (mapGcLoop bank victim free s pagesPerBlk).state.cmtData = s.cmtData :=
    congrArg CmtSide.cmtData h.cmtSide
  have hfirst : (mapGcLoop bank victim free s pagesPerBlk).state.isVpnFirstTime =
      s.isVpnFirstTime := congrArg CmtSide.isVpnFirstTime h.cmtSide
  have hstatus : (mapGcLoop bank victim free s pagesPerBlk).state.blockStatus = s.blockStatus :=
    congrArg CmtSide.blockStatus h.cmtSide
  unfold mapCollect
  generalize mapGcLoop bank victim free s pagesPerBlk = st at *
  have hfits := hs.fits.of_local h.step.isLocal
  -- the victim still holds its pages and can be erased
  have hfull := hr.space.full he hvf hlo hhi pagesPerBlk_pos
  rw [← h.compacting.cell_other _ (by rw [div_page pagesPerBlk_pos]; exact hvf), mapLog,
    cell_isSome (inRegion_page hlo hhi pagesPerBlk_pos)] at hfull
  obtain ⟨n', her, hloc, hphys⟩ := hfits.erase hhi pagesPerBlk_pos hfull
  let s₁ := (st.state.setMapPpns (free * pagesPerBlk + st.copyCnt)
    ((free + 1) * pagesPerBlk)).revalidate victim
  have herase : s₁.eraseBlk bank victim = s₁.stored n' := Bank.eraseBlk_eq her
  simp only
  rw [herase]
  set s' := ((s₁.stored n').setStatus victim .empty).setStatus free .map with hs'
  have htrig : (free + 1) * pagesPerBlk = free * pagesPerBlk + pagesPerBlk := Nat.succ_mul _ _
  have hlog : mapLog bank (s'.place st.copyCnt .map free) =
      (mapLog bank st.state).erase pagesPerBlk victim := by
    rw [mapLog, mapLog, regionLog_erase, ← hphys]
    rfl
  have hmap : s'.blockStatus free = .map := Function.update_self _ _ _
  have hold : ∀ b, b ≠ free → b ≠ victim → s'.blockStatus b = s.blockStatus b := by
    intro b h1 h2
    rw [hs', ← hstatus]
    simp only [Bank.setStatus]
    rw [Function.update_of_ne h1, Function.update_of_ne h2]
    rfl
  have hslot (v : ℤ) : slotOf (s'.place st.copyCnt .map free).toRow v = slotOf s.toRow v :=
    slotOf_congr hvpn v
  have htable : table bank (s'.place st.copyCnt .map free) = table bank s := by
    refine table_congr fun v => ?_
    cases hv : slotOf s.toRow v with
    | some o =>
      rw [mapPage_cached hv, mapPage_cached ((hslot v).trans hv)]
      exact congrFun hdata o
    | none =>
      rw [mapPage_uncached hv, mapPage_uncached ((hslot v).trans hv), hlog,
        h.compacting.value_finish pagesPerBlk_pos v (not_not.mpr hv)]
  have hstep : MapStep bank s (s'.place st.copyCnt .map free) := by
    refine h.step.trans ⟨hloc, fun p hp => ?_, fun p hp => ?_, fun b hb => ?_, rfl, fun hc => ?_⟩
    · change n'.phys bank p = _
      have := (inRegion_iff.mp hp).2
      rw [hphys]
      exact if_neg (by omega)
    · have := (inRegion_iff.mp hp).2
      exact if_neg (by omega)
    · have := hr.space.le_free
      rw [hstatus]
      exact hold b (by omega) (by omega)
    · exact Trace.Clean.place (s := s') hc.returned hmap
  refine ⟨⟨?_, htable, hstep⟩, hvpn, hdirty, hdata, ?_⟩
  · constructor
    · exact hs.fits.of_local hstep.isLocal
    · refine ⟨victim, ?_, ?_, fun b h1 h2 h3 => ?_⟩
      · rw [hlog]
        have hfin := h.compacting.finish hr.space he hvf hlo hhi pagesPerBlk_pos
        rw [← htrig] at hfin
        exact hfin
      · rw [hs']
        change Function.update (Function.update _ victim _) free _ victim = _
        rw [Function.update_of_ne hvf, Function.update_self]
      · by_cases hb : b = free
        · rw [hb]
          exact hmap
        · exact (hold b hb h3).trans (hr.others b h1 h2 hb)
    · intro b hb
      have := hr.space.le_free
      change s'.blockStatus b ≠ .map
      rw [hold b (by omega) (by omega)]
      exact hs.outside b hb
    · exact h.gtd_ge
    · exact h.gtd_lt
    · exact hs.cmt.congr hvpn hdirty
    · intro v
      rw [hslot]
      change st.state.isVpnFirstTime v = true ↔ st.state.gtd v = -1 ∧ _
      have hnone := h.compacting.loc_none v
      rw [mapLog, mapLog, loc_natCast, loc_natCast, entry_eq_none, entry_eq_none] at hnone
      rw [hfirst, hs.fresh, hnone]
    · rw [htable]
      exact hs.table_ge
  · change free * pagesPerBlk + st.copyCnt < (free + 1) * pagesPerBlk
    have := h.compacting.count_lt (by
      obtain ⟨j, hj, hv⟩ := hinv
      exact ⟨j, hj, by rw [mapLog, valid_inRegion (inRegion_page hlo hhi hj), hv]⟩)
    omega

/-- When the map region is used up, fewer pages are in use than it has, so the victim has an
invalid page. -/
theorem MapInv.exists_victim (hs : MapInv bank s)
    (hr : Region nPhyDataBlk blksPerBank .map s.nextMapPpn s.gcTriggerMapPpn s.blockStatus
      (mapLog bank s) free) (he : s.nextMapPpn = s.gcTriggerMapPpn) :
    ∃ v, greedyMapBlk s.toRow = some v ∧ v ≠ free ∧ nPhyDataBlk ≤ v ∧ v < blksPerBank ∧
      ∃ j < pagesPerBlk, s.isValid (v * pagesPerBlk + j) = false := by
  have hkeys : ∀ k p, (mapLog bank s).loc k = some p →
      k ∈ (Finset.range nVpns).image fun v : ℕ => (v : ℤ) := by
    intro k p hl
    obtain ⟨hk, hp⟩ := loc_eq_some hs.gtd_ge hl
    rw [Finset.mem_image]
    exact ⟨k.toNat, Finset.mem_range.mpr (hs.gtd_lt _ (by omega)), Int.toNat_of_nonneg hk⟩
  obtain ⟨b, i, hlo, hhi, hbf, hi, hv⟩ := hr.space.exists_invalid he hkeys
    (Finset.card_image_le.trans_lt (by rw [Finset.card_range]; decide))
  rw [mapLog, valid_inRegion (inRegion_page hlo hhi hi)] at hv
  have hb := hr.others b hlo hhi hbf
  obtain ⟨v, hvb, hgreedy, hvm, hmax⟩ := greedyMapBlk_some ⟨b, hhi, hb⟩
  refine ⟨v, hgreedy, ?_, ?_, hvb, ?_⟩
  · rintro rfl
    rw [hr.free_empty] at hvm
    cases hvm
  · by_contra hlt
    exact hs.outside v (not_le.mp hlt) hvm
  · exact clearCount_pos.mp ((clearCount_pos.mpr ⟨i, hi, hv⟩).trans_le (hmax b hhi hb))

theorem mapGarbageCollection_kept (hs : MapInv bank s) (he : s.nextMapPpn = s.gcTriggerMapPpn) :
    Kept bank s (mapGarbageCollection bank s) ∧
      (mapGarbageCollection bank s).cmtVpn = s.cmtVpn ∧
      (mapGarbageCollection bank s).cmtDirty = s.cmtDirty ∧
      (mapGarbageCollection bank s).cmtData = s.cmtData ∧
      (mapGarbageCollection bank s).nextMapPpn <
        (mapGarbageCollection bank s).gcTriggerMapPpn := by
  obtain ⟨free, hr⟩ := hs.region
  obtain ⟨v, hv, hvf, hlo, hhi, hinv⟩ := hs.exists_victim hr he
  have hcount := kept_count hs fun t => { t with mapGcCnt := t.mapGcCnt + 1 }
  have hfree := getFreeBlkMap_eq hr
  have heq : mapGarbageCollection bank s = mapCollect bank v free
      (s.count fun t => { t with mapGcCnt := t.mapGcCnt + 1 }) := by
    unfold mapGarbageCollection
    simp only [Bank.require_eq he]
    rw [show greedyMapBlk (s.count _).toRow = some v from hv,
      show getFreeBlkMap (s.count _).toRow = some free from hfree]
  rw [heq]
  obtain ⟨h1, h2, h3, h4, h5⟩ := mapCollect_kept hcount.inv hr he hvf hlo hhi hinv
  exact ⟨hcount.trans h1, h2, h3, h4, h5⟩

end Dftl
