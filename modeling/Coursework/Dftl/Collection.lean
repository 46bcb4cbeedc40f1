import Coursework.Dftl.Ftl
import Coursework.Dftl.FlatTable

/-! Data garbage collection keeps the contents of the data pages, also where the translation
evicts map pages and collects map blocks in the middle of it. -/
namespace Dftl
open Nand Sector Paging

/-- The data pages of a bank, found through the translation table. -/
def dataLog (bank : ℕ) (s : Bank) : PageLog ℤ Sectors :=
  regionLog 0 nPhyDataBlk (s.nand.phys bank) (table bank s) s.isValid

variable {bank victim free i : ℕ} {s s' : Bank} {st : DataCopy}

theorem MapInv.data_lt (hs : MapInv bank s) {b : ℕ} (hb : b < blksPerBank)
    (hd : s.blockStatus b = .data) : b < nPhyDataBlk := by
  by_contra hle
  obtain ⟨free, hr⟩ := hs.region
  have hkind := hr.status_eq (not_lt.mp hle) hb
  rw [hd] at hkind
  split_ifs at hkind

theorem dataLog_step (h : MapStep bank s s') : dataLog bank s' =
    regionLog 0 nPhyDataBlk (s.nand.phys bank) (table bank s') s.isValid :=
  regionLog_congr h.phys h.isValid

theorem Kept.dataLog (h : Kept bank s s') : dataLog bank s' = dataLog bank s := by
  rw [dataLog_step h.step, h.table]
  rfl

section DataStep

/-- The part of a bank's state that belongs to the translation. -/
structure MapSide where
  isVpnFirstTime : ℕ → Bool
  cmtVpn : ℕ → ℤ
  cmtDirty : ℕ → Bool
  cmtData : ℕ → Sectors
  gtd : ℕ → ℤ
  nextMapPpn : ℕ
  gcTriggerMapPpn : ℕ

def Bank.mapSide (s : Bank) : MapSide :=
  ⟨s.isVpnFirstTime, s.cmtVpn, s.cmtDirty, s.cmtData, s.gtd, s.nextMapPpn, s.gcTriggerMapPpn⟩

/-- A step of the data path leaves the map blocks and the translation alone. -/
structure DataStep (bank : ℕ) (s s' : Bank) : Prop where
  isLocal : Local s.nand s'.nand bank
  phys : ∀ p, InRegion nPhyDataBlk blksPerBank p → s'.nand.phys bank p = s.nand.phys bank p
  isValid : ∀ p, InRegion nPhyDataBlk blksPerBank p → s'.isValid p = s.isValid p
  status : ∀ b, nPhyDataBlk ≤ b → b < blksPerBank → s'.blockStatus b = s.blockStatus b
  outside : (∀ b < nPhyDataBlk, s.blockStatus b ≠ .map) → ∀ b < nPhyDataBlk, s'.blockStatus b ≠ .map
  mapSide : s'.mapSide = s.mapSide

namespace DataStep
variable (h : DataStep bank s s')
include h

theorem mapLog : mapLog bank s' = mapLog bank s := by
  have hgtd : s'.gtd = s.gtd := congrArg MapSide.gtd h.mapSide
  rw [Dftl.mapLog, hgtd]
  exact regionLog_congr h.phys h.isValid

theorem slotOf (v : ℤ) : slotOf s'.toRow v = slotOf s.toRow v :=
  slotOf_congr (congrArg MapSide.cmtVpn h.mapSide) v

theorem table : table bank s' = table bank s := by
  refine table_congr fun v => ?_
  have hdata : s'.cmtData = s.cmtData := congrArg MapSide.cmtData h.mapSide
  rw [mapPage, mapPage, h.slotOf, h.mapLog, hdata]

theorem mapInv (hs : MapInv bank s) : MapInv bank s' := by
  have hgtd : s'.gtd = s.gtd := congrArg MapSide.gtd h.mapSide
  have hnext : s'.nextMapPpn = s.nextMapPpn := congrArg MapSide.nextMapPpn h.mapSide
  have htrig : s'.gcTriggerMapPpn = s.gcTriggerMapPpn := congrArg MapSide.gcTriggerMapPpn h.mapSide
  have hfirst : s'.isVpnFirstTime = s.isVpnFirstTime := congrArg MapSide.isVpnFirstTime h.mapSide
  constructor
  · exact hs.fits.of_local h.isLocal
  · obtain ⟨free, hr⟩ := hs.region
    refine ⟨free, ?_, ?_, fun b h1 h2 h3 => ?_⟩
    · rw [h.mapLog, hnext, htrig]
      exact hr.space
    · rw [h.status free hr.space.le_free hr.space.free_lt, hr.free_empty]
    · rw [h.status b h1 h2, hr.others b h1 h2 h3]
  · exact h.outside hs.outside
  · rw [hgtd]
    exact hs.gtd_ge
  · rw [hgtd]
    exact hs.gtd_lt
  · exact hs.cmt.congr (congrArg MapSide.cmtVpn h.mapSide) (congrArg MapSide.cmtDirty h.mapSide)
  · intro v
    rw [hfirst, hgtd, h.slotOf, hs.fresh]
  · rw [h.table]
    exact hs.table_ge

end DataStep

theorem dataStep_stored {n' : Device Sectors ℤ} {q : ℕ} {pg : Page Sectors ℤ}
    (hq : InRegion 0 nPhyDataBlk q) (hloc : Local s.nand n' bank)
    (hphys : n'.phys bank = Function.update (s.nand.phys bank) q (some pg)) :
    DataStep bank s (s.stored n') := by
  refine ⟨hloc, fun p hp => ?_, fun _ _ => rfl, fun _ _ _ => rfl, id, rfl⟩
  change n'.phys bank p = _
  rw [hphys, Function.update_of_ne]
  rintro rfl
  exact absurd (hp.1.trans_lt hq.2) (lt_irrefl _)

end DataStep

section Search
variable {r : Row}

/-- Block `v` has the most invalid pages of the data blocks from `n` on, and of those with as
many it is the first. -/
structure Greedy (r : Row) (n N v : ℕ) : Prop where
  lt : v < N
  isData : r.blockStatus v = .data
  max : ∀ b, n ≤ b → b < N → r.blockStatus b = .data →
    invalidCnt r.isValid b ≤ invalidCnt r.isValid v
  first : ∀ b, n ≤ b → b < v → r.blockStatus b = .data →
    invalidCnt r.isValid b < invalidCnt r.isValid v

theorem scanDataBlk_spec (N : ℕ) : ∀ (n : ℕ) (acc : ℕ × Option ℕ), n ≤ N →
    (∀ v, acc.2 = some v → acc.1 = invalidCnt r.isValid v ∧ Greedy r n N v) →
    (acc.2 = none → acc.1 = 0 ∧ ∀ b, n ≤ b → b < N → r.blockStatus b ≠ .data) →
    (∃ b < N, r.blockStatus b = .data) →
    ∃ v, (scanDataBlk r n acc).2 = some v ∧ Greedy r 0 N v
  | 0, acc, _, hsome, hnone, ⟨b, hb, hd⟩ => by
    cases hv : acc.2 with
    | none => exact absurd hd ((hnone hv).2 b (Nat.zero_le b) hb)
    | some v => exact ⟨v, hv, (hsome v hv).2⟩
  | n + 1, acc, hn, hsome, hnone, hex => by
    rw [scanDataBlk]
    have hsplit : ∀ b, n ≤ b → b = n ∨ n + 1 ≤ b := fun b hb => by omega
    by_cases hd : r.blockStatus n = .data
    · rw [if_neg (not_not.mpr hd)]
      by_cases hle : acc.1 ≤ invalidCnt r.isValid n
      · rw [if_pos hle]
        refine scanDataBlk_spec N n _ (by omega) (fun v hv => ?_) (fun hv => by cases hv) hex
        obtain rfl : n = v := Option.some.inj hv
        refine ⟨rfl, by omega, hd, fun b hb hbN hbd => ?_, fun b h1 h2 => absurd h1 (by omega)⟩
        rcases hsplit b hb with rfl | hb
        · exact le_rfl
        · cases hacc : acc.2 with
          | none => exact absurd hbd ((hnone hacc).2 b hb hbN)
          | some v =>
            obtain ⟨h1, h2⟩ := hsome v hacc
            exact (h2.max b hb hbN hbd).trans (h1 ▸ hle)
      · rw [if_neg hle]
        refine scanDataBlk_spec N n acc (by omega) (fun v hv => ?_)
          (fun hv => absurd (hnone hv).1 (by omega)) hex
        obtain ⟨h1, h2⟩ := hsome v hv
        refine ⟨h1, h2.lt, h2.isData, fun b hb hbN hbd => ?_, fun b hb hbv hbd => ?_⟩
        · rcases hsplit b hb with rfl | hb
          · omega
          · exact h2.max b hb hbN hbd
        · rcases hsplit b hb with rfl | hb
          · omega
          · exact h2.first b hb hbv hbd
    · rw [if_pos hd]
      refine scanDataBlk_spec N n acc (by omega) (fun v hv => ?_)
        (fun hv => ⟨(hnone hv).1, fun b hb hbN => ?_⟩) hex
      · obtain ⟨h1, h2⟩ := hsome v hv
        refine ⟨h1, h2.lt, h2.isData, fun b hb hbN hbd => ?_, fun b hb hbv hbd => ?_⟩
        · rcases hsplit b hb with rfl | hb
          · exact absurd hbd hd
          · exact h2.max b hb hbN hbd
        · rcases hsplit b hb with rfl | hb
          · exact absurd hbd hd
          · exact h2.first b hb hbv hbd
      · rcases hsplit b hb with rfl | hb
        · exact hd
        · exact (hnone hv).2 b hb hbN

theorem greedyDataBlk_some (h : ∃ b < blksPerBank, r.blockStatus b = .data) :
    ∃ v, greedyDataBlk r = some v ∧ Greedy r 0 blksPerBank v :=
  scanDataBlk_spec blksPerBank blksPerBank (0, none) le_rfl (fun v hv => by cases hv)
    (fun _ => ⟨rfl, fun b h1 h2 => absurd h1 (by omega)⟩) h

theorem getFreeBlkData_eq {next trig : ℕ} {L : PageLog ℤ Sectors}
    (h : Region 0 nPhyDataBlk .data next trig r.blockStatus L free) :
    getFreeBlkData r = some free := by
  unfold getFreeBlkData
  have hlt : free < blksPerBank := h.space.free_lt.trans (by decide)
  rw [List.find?_range_eq_some]
  refine ⟨by simp [h.free_empty], List.mem_range.mpr hlt, fun b hb => ?_⟩
  rw [h.others b (Nat.zero_le b) (hb.trans h.space.free_lt) hb.ne]
  rfl

end Search

section Loop

/-- What the copy loop has done after its first `i` rounds. -/
structure Copied (bank victim free : ℕ) (s : Bank) (i : ℕ) (st : DataCopy) : Prop where
  compacting : PageLog.Compacting pagesPerBlk victim free ∅ (dataLog bank s) i st.immigrantsCnt
    (dataLog bank st.state)
  inv : MapInv bank st.state
  isLocal : Local s.nand st.state.nand bank
  status : ∀ b < nPhyDataBlk, st.state.blockStatus b = s.blockStatus b
  dataSide : st.state.dataSide = s.dataSide
  lpn_lt : ∀ l, table bank st.state l ≠ -1 → l < nLpnsPb
  clean : s.trace.Clean → st.state.trace.Clean

theorem gcPage_eq {pg : Page Sectors ℤ} {n' : Device Sectors ℤ}
    (hv : st.state.isValid (victim * pagesPerBlk + i) = true)
    (hrd : ∀ d k, nandRead st.state.nand bank victim i d k = (.success, pg))
    (hwr : nandWrite st.state.nand bank free st.immigrantsCnt pg.data pg.spare = (n', .success)) :
    ∃ f, gcPage bank victim free st i =
      ⟨updateL2p bank pg.spare.toNat ((free * pagesPerBlk + st.immigrantsCnt : ℕ) : ℤ)
        (((st.state.returned .success).stored n').count f), st.immigrantsCnt + 1⟩ := by
  unfold gcPage
  simp only [hv, ↓reduceIte, hrd]
  refine ⟨fun t => { t with gcWrite := t.gcWrite + 1 }, ?_⟩
  rw [Bank.write_eq (s := st.state.returned .success) hwr]

theorem Copied.round
    (hr : Region 0 nPhyDataBlk .data s.nextDataPpn s.gcTriggerDataPpn s.blockStatus
      (dataLog bank s) free) (he : s.nextDataPpn = s.gcTriggerDataPpn) (hvf : victim ≠ free)
    (hhi : victim < nPhyDataBlk) (hi : i < pagesPerBlk) (h : Copied bank victim free s i st) :
    Copied bank victim free s (i + 1) (gcPage bank victim free st i) := by
  have hin := inRegion_page (Nat.zero_le victim) hhi hi
  have hvalid : st.state.isValid (victim * pagesPerBlk + i) =
      (dataLog bank s).valid (victim * pagesPerBlk + i) := by
    rw [← h.compacting.valid_eq, dataLog, valid_inRegion hin]
  cases hv : st.state.isValid (victim * pagesPerBlk + i) with
  | false =>
    rw [hv] at hvalid
    unfold gcPage
    simp only [hv, Bool.false_eq_true, ↓reduceIte]
    exact { h with compacting := h.compacting.skip hi hvalid.symm }
  | true =>
    have hmoved : (dataLog bank s).valid (victim * pagesPerBlk + i) = true := hvalid.symm.trans hv
    have hcP : st.immigrantsCnt < pagesPerBlk := h.compacting.count_le.trans_lt hi
    -- the victim block is full, so its page can be read
    have hfull := hr.space.full he hvf (Nat.zero_le victim) hhi hi
    rw [← h.compacting.cell_other _ (by rw [div_page hi]; exact hvf)] at hfull
    obtain ⟨⟨k, d⟩, hcell⟩ := Option.isSome_iff_exists.mp hfull
    have hphys : st.state.nand.phys bank (victim * pagesPerBlk + i) = some ⟨d, k⟩ :=
      (cell_eq_some hin).mp hcell
    -- it holds the logical page that is translated to this place
    obtain ⟨hk, htbl⟩ := loc_eq_some h.inv.table_ge (h.compacting.located hi hmoved hcell)
    have hklt : k.toNat < nLpnsPb := h.lpn_lt _ (by omega)
    have hdest := inRegion_page hr.space.le_free hr.space.free_lt hcP
    obtain ⟨n', hwr, hloc, hphys'⟩ := write_moved h.inv.fits h.compacting hr.space.le_free
      hr.space.free_lt (by decide) hcP d k
    obtain ⟨f, heq⟩ := @gcPage_eq _ _ _ _ _ ⟨d, k⟩ _ hv
      (fun d' k' => h.inv.fits.read_page hi hphys d' k') hwr
    -- programming the page touches no map page, updating its entry no data page
    have hstored : DataStep bank st.state (((st.state.returned .success).stored n').count f) := by
      obtain ⟨h1, h2, h3, h4, h5, h6⟩ := @dataStep_stored _
        (st.state.returned .success) _ _ ⟨d, k⟩ hdest hloc hphys'
      exact ⟨h1, h2, h3, h4, h5, h6⟩
    obtain ⟨hinv, htable, hstep⟩ := updateL2p_spec (hstored.mapInv h.inv) hklt
      (Int.natCast_nonneg (free * pagesPerBlk + st.immigrantsCnt))
    rw [hstored.table] at htable
    have hlog : dataLog bank (updateL2p bank k.toNat
        ((free * pagesPerBlk + st.immigrantsCnt : ℕ) : ℤ)
        (((st.state.returned .success).stored n').count f)) =
        (dataLog bank st.state).program k d (free * pagesPerBlk + st.immigrantsCnt) := by
      have hprog := @regionLog_program _ _ (st.state.nand.phys bank)
        (table bank st.state) st.state.isValid _ hdest _ hk d
      rw [dataLog_step hstep, htable]
      rw [← hphys'] at hprog
      exact hprog.symm
    rw [heq]
    refine ⟨?_, hinv, (h.isLocal.trans hloc).trans hstep.isLocal,
      fun b hb => (hstep.status b hb).trans (h.status b hb), hstep.dataSide.trans h.dataSide,
      fun l hl => ?_, fun hc => hstep.clean ?_⟩
    · rw [hlog]
      exact h.compacting.move hvf hi hmoved hcell d fun _ => rfl
    · simp only [htable] at hl
      by_cases hlk : l = k.toNat
      · rwa [hlk]
      · rw [Function.update_of_ne hlk] at hl
        exact h.lpn_lt l hl
    · exact Trace.Clean.returned (s := st.state.returned .success) (h.clean hc).returned

theorem gcLoop_copied (hs : MapInv bank s) (hlpn : ∀ l, table bank s l ≠ -1 → l < nLpnsPb)
    (hr : Region 0 nPhyDataBlk .data s.nextDataPpn s.gcTriggerDataPpn s.blockStatus
      (dataLog bank s) free) (he : s.nextDataPpn = s.gcTriggerDataPpn) (hvf : victim ≠ free)
    (hhi : victim < nPhyDataBlk) :
    ∀ i ≤ pagesPerBlk, Copied bank victim free s i (gcLoop bank victim free s i)
  | 0, _ => ⟨PageLog.Compacting.start hr.space, hs, Local.refl _ _, fun _ _ => rfl, rfl, hlpn, id⟩
  | i + 1, hi => (gcLoop_copied hs hlpn hr he hvf hhi i (by omega)).round hr he hvf hhi (by omega)

end Loop

/-- What `garbage_collection` does to a bank: the contents of the data pages stay, and as many
pages become free as the victim had invalid ones. -/
structure Collected (bank victim free : ℕ) (s s' : Bank) : Prop where
  inv : MapInv bank s'
  region : Region 0 nPhyDataBlk .data s'.nextDataPpn s'.gcTriggerDataPpn s'.blockStatus
    (dataLog bank s') victim
  room : s'.nextDataPpn + invalidCnt s.isValid victim = s'.gcTriggerDataPpn
  trig : s'.gcTriggerDataPpn = free * pagesPerBlk + pagesPerBlk
  value : (dataLog bank s').value = (dataLog bank s).value
  cell_other : ∀ p, p / pagesPerBlk ≠ free → p / pagesPerBlk ≠ victim →
    (dataLog bank s').cell p = (dataLog bank s).cell p
  isValid : ∀ p, InRegion 0 nPhyDataBlk p →
    s'.isValid p = if p / pagesPerBlk = victim then true else s.isValid p
  lpn_lt : ∀ l, table bank s' l ≠ -1 → l < nLpnsPb
  isLocal : Local s.nand s'.nand bank
  bufferS2l : s'.bufferS2l = s.bufferS2l
  bufferData : s'.bufferData = s.bufferData
  dataVictims : s'.dataVictims = s.dataVictims
  stack : s'.stack = s.stack
  gcReturns : s'.trace.gcReturns = (s'.nextDataPpn, s'.gcTriggerDataPpn) :: s.trace.gcReturns
  clean : s'.nextDataPpn < s'.gcTriggerDataPpn → s.trace.Clean → s'.trace.Clean

theorem Trace.Clean.noteGc (h : s.trace.Clean) (hlt : s.nextDataPpn < s.gcTriggerDataPpn) :
    s.noteGc.trace.Clean := by
  refine ⟨h.asserted, h.codes, h.placed, fun x hx => ?_⟩
  rcases List.mem_cons.mp hx with rfl | hx
  · exact hlt
  · exact h.gcReturns x hx

theorem collect_collected (hs : MapInv bank s) (hlpn : ∀ l, table bank s l ≠ -1 → l < nLpnsPb)
    (hr : Region 0 nPhyDataBlk .data s.nextDataPpn s.gcTriggerDataPpn s.blockStatus
      (dataLog bank s) free) (he : s.nextDataPpn = s.gcTriggerDataPpn) (hvf : victim ≠ free)
    (hhi : victim < nPhyDataBlk) : Collected bank victim free s (collect bank victim free s) := by
  have h := gcLoop_copied hs hlpn hr he hvf hhi pagesPerBlk le_rfl
  unfold collect
  generalize gcLoop bank victim free s pagesPerBlk = st at *
  have hlo := Nat.zero_le victim
  have hP := pagesPerBlk_pos
  -- the victim still holds its pages and can be erased
  have hfull := hr.space.full he hvf hlo hhi hP
  rw [← h.compacting.cell_other _ (by rw [div_page hP]; exact hvf), dataLog,
    cell_isSome (inRegion_page hlo hhi hP)] at hfull
  obtain ⟨n', her, hloc, hphys⟩ := h.inv.fits.erase (hhi.trans (by decide)) hP hfull
  let s₁ := (st.state.revalidate victim).setDataPpns (free * pagesPerBlk + st.immigrantsCnt)
    (free * pagesPerBlk + pagesPerBlk)
  have herase : s₁.eraseBlk bank victim = s₁.stored n' := Bank.eraseBlk_eq her
  simp only
  rw [herase]
  set s₂ := ((s₁.stored n').setStatus victim .empty).setStatus free .data with hs₂
  set s' := (s₂.place st.immigrantsCnt .data free).noteGc with hs'
  have hdata : s₂.blockStatus free = .data := Function.update_self _ _ _
  have hempty : s'.blockStatus victim = .empty := by
    change Function.update (Function.update _ victim _) free _ victim = _
    rw [Function.update_of_ne hvf, Function.update_self]
  have hold : ∀ b, b ≠ free → b ≠ victim → s'.blockStatus b = st.state.blockStatus b := by
    intro b h1 h2
    change Function.update (Function.update _ victim _) free _ b = _
    rw [Function.update_of_ne h1, Function.update_of_ne h2]
    rfl
  have hstep : DataStep bank st.state s' := by
    refine ⟨hloc, fun p hp => ?_, fun p hp => ?_, fun b h1 h2 => ?_, fun hout b hb => ?_, rfl⟩
    · change n'.phys bank p = _
      have := (inRegion_iff.mp hp).1
      rw [hphys]
      exact if_neg (by omega)
    · have := (inRegion_iff.mp hp).1
      exact if_neg (by omega)
    · have := hr.space.free_lt
      exact hold b (by omega) (by omega)
    · by_cases hbf : b = free
      · rw [hbf]
        change s₂.blockStatus free ≠ .map
        rw [hdata]
        decide
      · by_cases hbv : b = victim
        · rw [hbv, hempty]
          decide
        · rw [hold b hbf hbv]
          exact hout b hb
  have hlog : dataLog bank s' = (dataLog bank st.state).erase pagesPerBlk victim := by
    rw [dataLog, hstep.table, dataLog, regionLog_erase, ← hphys]
    rfl
  have hadd : st.immigrantsCnt + invalidCnt s.isValid victim = pagesPerBlk := by
    have hcount := h.compacting.count_add
    have hclear : clearCount pagesPerBlk (dataLog bank s).valid victim =
        invalidCnt s.isValid victim := by
      unfold invalidCnt clearCount
      congr 1
      refine List.filter_congr fun j hj => ?_
      rw [dataLog, valid_inRegion (inRegion_page hlo hhi (List.mem_range.mp hj))]
    rwa [hclear] at hcount
  have hvalid : ∀ p, InRegion 0 nPhyDataBlk p → st.state.isValid p = s.isValid p := by
    intro p hp
    have := congrFun h.compacting.valid_eq p
    rwa [dataLog, dataLog, valid_inRegion hp, valid_inRegion hp] at this
  constructor
  · exact hstep.mapInv h.inv
  · refine ⟨?_, hempty, fun b h1 h2 h3 => ?_⟩
    · rw [hlog]
      exact h.compacting.finish hr.space he hvf hlo hhi hP
    · by_cases hb : b = free
      · rw [hb]
        exact hdata
      · rw [hold b hb h3, h.status b h2, hr.others b h1 h2 hb]
  · change free * pagesPerBlk + st.immigrantsCnt + _ = free * pagesPerBlk + pagesPerBlk
    omega
  · rfl
  · funext k
    rw [hlog, h.compacting.value_finish hP k (Set.notMem_empty k)]
  · intro p h1 h2
    rw [hlog, ← h.compacting.cell_other p h1]
    simp only [PageLog.erase, h2, ↓reduceIte]
  · intro p hp
    change (if p / pagesPerBlk = victim then true else st.state.isValid p) = _
    rw [hvalid p hp]
  · rw [hstep.table]
    exact h.lpn_lt
  · exact h.isLocal.trans hloc
  · exact congrArg DataSide.bufferS2l h.dataSide
  · exact congrArg DataSide.bufferData h.dataSide
  · exact congrArg DataSide.dataVictims h.dataSide
  · exact congrArg DataSide.stack h.dataSide
  · exact congrArg (List.cons _) (congrArg DataSide.gcReturns h.dataSide)
  · intro hlt hc
    have hc₂ : s₂.trace.Clean := Trace.Clean.returned (s := s₁) (h.clean hc)
    exact Trace.Clean.noteGc (s := s₂.place st.immigrantsCnt .data free) (hc₂.place hdata) hlt

/-- `garbage_collection` of a bank that has used up its data pages: the victim it picks, and what
collecting it does. -/
theorem garbageCollection_picks (hs : MapInv bank s)
    (hlpn : ∀ l, table bank s l ≠ -1 → l < nLpnsPb)
    (hr : Region 0 nPhyDataBlk .data s.nextDataPpn s.gcTriggerDataPpn s.blockStatus
      (dataLog bank s) free) (he : s.nextDataPpn = s.gcTriggerDataPpn) :
    ∃ victim, greedyDataBlk s.toRow = some victim ∧ Greedy s.toRow 0 blksPerBank victim ∧
      victim ≠ free ∧ Collected bank victim free s (garbageCollection bank s) ∧
      (garbageCollection bank s).bufferSpare = s.bufferSpare := by
  obtain ⟨b, hbf, hb⟩ : ∃ b, b ≠ free ∧ b < nPhyDataBlk := by
    by_cases h0 : free = 0
    · exact ⟨1, by omega, by decide⟩
    · exact ⟨0, by omega, by decide⟩
  obtain ⟨v, hv, hgreedy⟩ := greedyDataBlk_some (r := s.toRow)
    ⟨b, hb.trans (by decide), hr.others b (Nat.zero_le b) hb hbf⟩
  have hvf : v ≠ free := by
    rintro rfl
    have := hgreedy.isData
    rw [hr.free_empty] at this
    cases this
  have hhi := hs.data_lt hgreedy.lt hgreedy.isData
  have heq : garbageCollection bank s = collect bank v free
      (s.count fun t => { t with gcCnt := t.gcCnt + 1 }) := by
    unfold garbageCollection
    simp only [Bank.require_eq he]
    rw [show greedyDataBlk (s.count _).toRow = some v from hv,
      show getFreeBlkData (s.count _).toRow = some free from getFreeBlkData_eq hr]
  have hcount := kept_count hs fun t => { t with gcCnt := t.gcCnt + 1 }
  have hcopied := gcLoop_copied hcount.inv hlpn hr he hvf hhi pagesPerBlk le_rfl
  refine ⟨v, hv, hgreedy, hvf, ?_, ?_⟩
  · rw [heq]
    obtain ⟨h1, h2, h3, h4, h5, h6, h7, h8, h9, h10, h11, h12, h13, h14, h15⟩ :=
      collect_collected hcount.inv hlpn hr he hvf hhi
    exact ⟨h1, h2, h3, h4, h5, h6, h7, h8, h9, h10, h11, h12, h13, h14, h15⟩
  · rw [heq]
    unfold collect
    generalize gcLoop bank v free _ pagesPerBlk = st at *
    exact congrArg DataSide.bufferSpare hcopied.dataSide

theorem garbageCollection_collected (hs : MapInv bank s)
    (hlpn : ∀ l, table bank s l ≠ -1 → l < nLpnsPb)
    (hr : Region 0 nPhyDataBlk .data s.nextDataPpn s.gcTriggerDataPpn s.blockStatus
      (dataLog bank s) free) (he : s.nextDataPpn = s.gcTriggerDataPpn) :
    ∃ victim, Greedy s.toRow 0 blksPerBank victim ∧ victim ≠ free ∧
      Collected bank victim free s (garbageCollection bank s) := by
  obtain ⟨v, -, hgreedy, hvf, hcol, -⟩ := garbageCollection_picks hs hlpn hr he
  exact ⟨v, hgreedy, hvf, hcol⟩

end Dftl
