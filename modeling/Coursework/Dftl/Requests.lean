import Coursework.Dftl.Ftl

/-! The requests to the mapping, each with whether its translation page was cached when it
arrived, and what the statistics of a bank count instead. -/
namespace Dftl
open Nand Sector

/-- Whether the translation page of `lpn` is cached. -/
def lpnCached (r : Row) (lpn : ℕ) : Bool := (slotOf r (lpn2vpn lpn)).isSome

/-- The requests in a round of `garbage_collection`; the copy itself does not change the CMT. -/
def gcPageRequests (bank victimPblk : ℕ) (s : Bank) (pageOffset : ℕ) : List Bool :=
  if s.isValid (victimPblk * pagesPerBlk + pageOffset) then
    let rd := nandRead s.nand bank victimPblk pageOffset s.stack.data s.stack.spare
    [lpnCached s.toRow rd.2.spare.toNat]
  else []

def gcLoopRequests (bank victimPblk freePblk : ℕ) (s : Bank) : ℕ → List Bool
  | 0 => []
  | n + 1 => gcLoopRequests bank victimPblk freePblk s n ++
      gcPageRequests bank victimPblk (gcLoop bank victimPblk freePblk s n).state n

/-- The requests of `garbage_collection`. -/
def collectionRequests (bank : ℕ) (s : Bank) : List Bool :=
  let s := s.require (s.nextDataPpn = s.gcTriggerDataPpn)
  let s := s.count fun t => { t with gcCnt := t.gcCnt + 1 }
  match greedyDataBlk s.toRow, getFreeBlkData s.toRow with
  | some victimPblk, some freePblk => gcLoopRequests bank victimPblk freePblk s pagesPerBlk
  | _, _ => []

/-- The two requests for the page of an evicted buffer slot. -/
def appendRequests (bank victimSlot : ℕ) (s : Bank) : List Bool :=
  let lpn := (s.bufferS2l victimSlot).toNat
  let (beforePpn, s') := lpn2ppn bank lpn s
  let s' := if beforePpn ≠ -1 then s'.invalidate beforePpn.toNat else s'
  [lpnCached s.toRow lpn, lpnCached s'.toRow lpn]

def evictRequests (bank : ℕ) (s : Bank) : List Bool :=
  let (victimSlot, s) := getVictimDataSlot s
  if s.nextDataPpn = s.gcTriggerDataPpn then
    collectionRequests bank s ++ appendRequests bank victimSlot (garbageCollection bank s)
  else appendRequests bank victimSlot s

/-- The requests of `write_through_lpn`. -/
def writeThroughRequests (bank lpn : ℕ) (s : Bank) : List Bool :=
  match simBufferL2s s.toRow lpn with
  | some _ => []
  | none =>
    let s := s.count fun t => { t with cacheMiss := t.cacheMiss + 1 }
    if getEmptyDataSlot s.toRow = none then evictRequests bank s else []

/-- The programmed pages that the counters know. -/
def Stats.programs (t : Stats) : ℕ := t.nandWrite + t.gcWrite + t.mapWrite + t.mapGcWrite

/-- What the statistics count for some requests: every program once, where `k` programs are not
in the trace yet, and each search of the CMT, of which map GC makes one for each page it copies. -/
structure Metered (t t' : Shared) (requests : List Bool) (k : ℕ) : Prop where
  programs : t'.stats.programs + t.trace.placed.length =
    t.stats.programs + t'.trace.placed.length + k
  searches : t'.stats.cmtHit + t'.stats.cmtMiss + t.stats.mapGcWrite =
    t.stats.cmtHit + t.stats.cmtMiss + t'.stats.mapGcWrite +
      requests.length + requests.count false
  hits : t.stats.cmtHit + requests.length ≤ t'.stats.cmtHit
  misses : t.stats.cmtMiss + requests.count false ≤ t'.stats.cmtMiss

section Lookup
variable (t : Stats) (hit : Bool)

@[simp] theorem Stats.programs_lookup : (t.lookup hit).programs = t.programs := by
  cases hit <;> rfl

@[simp] theorem Stats.mapGcWrite_lookup : (t.lookup hit).mapGcWrite = t.mapGcWrite := by
  cases hit <;> rfl

theorem Stats.cmtHit_lookup : (t.lookup hit).cmtHit = t.cmtHit + hit.toNat := by
  cases hit <;> rfl

theorem Stats.cmtMiss_lookup : (t.lookup hit).cmtMiss = t.cmtMiss + (!hit).toNat := by
  cases hit <;> rfl

end Lookup

section Meter
variable {t t' t'' : Shared} {reqs reqs' : List Bool} {k k' : ℕ}

theorem metered_of_eq (hprograms : t'.stats.programs = t.stats.programs)
    (hhit : t'.stats.cmtHit = t.stats.cmtHit) (hmiss : t'.stats.cmtMiss = t.stats.cmtMiss)
    (hcopies : t'.stats.mapGcWrite = t.stats.mapGcWrite)
    (hplaced : t'.trace.placed = t.trace.placed) : Metered t t' [] 0 := by
  constructor
  · rw [hprograms, hplaced, Nat.add_zero]
  · rw [hhit, hmiss, hcopies]
    rfl
  · exact hhit.ge
  · exact hmiss.ge

theorem Metered.refl (t : Shared) : Metered t t [] 0 := metered_of_eq rfl rfl rfl rfl rfl

theorem Metered.trans (h : Metered t t' reqs k) (h' : Metered t' t'' reqs' k') :
    Metered t t'' (reqs ++ reqs') (k + k') := by
  obtain ⟨h1, h2, h3, h4⟩ := h
  obtain ⟨h1', h2', h3', h4'⟩ := h'
  have hlen : (reqs ++ reqs').length = reqs.length + reqs'.length := List.length_append
  have hcount : (reqs ++ reqs').count false = reqs.count false + reqs'.count false :=
    List.count_append
  constructor <;> omega

theorem Metered.after (h : Metered t t' [] k) (h' : Metered t' t'' reqs k') :
    Metered t t'' reqs (k + k') := h.trans h'

theorem Metered.before (h : Metered t t' reqs k) (h' : Metered t' t'' [] 0) :
    Metered t t'' reqs k := by
  have htrans := h.trans h'
  rwa [List.append_nil] at htrans

theorem Metered.place (h : Metered t t' reqs k)
    (hstats : t''.stats = t'.stats) (e : Status × Status)
    (hplaced : t''.trace.placed = List.replicate k e ++ t'.trace.placed) :
    Metered t t'' reqs 0 := by
  obtain ⟨h1, h2, h3, h4⟩ := h
  refine ⟨?_, hstats ▸ h2, hstats ▸ h3, hstats ▸ h4⟩
  rw [hstats, hplaced, List.length_append, List.length_replicate]
  omega

theorem metered_program (hprograms : t'.stats.programs = t.stats.programs + 1)
    (hhit : t'.stats.cmtHit = t.stats.cmtHit) (hmiss : t'.stats.cmtMiss = t.stats.cmtMiss)
    (hcopies : t'.stats.mapGcWrite = t.stats.mapGcWrite)
    (hplaced : t'.trace.placed = t.trace.placed) : Metered t t' [] 1 := by
  constructor
  · rw [hprograms, hplaced]
    omega
  · rw [hhit, hmiss, hcopies]
    rfl
  · exact hhit.ge
  · exact hmiss.ge

/-- A page that map GC copies. -/
theorem metered_copy (hit : Bool) (hstats : t'.stats =
      { t.stats.lookup hit with mapGcWrite := (t.stats.lookup hit).mapGcWrite + 1 })
    (hplaced : t'.trace.placed = t.trace.placed) : Metered t t' [] 1 := by
  have hhit := t.stats.cmtHit_lookup hit
  have hmiss := t.stats.cmtMiss_lookup hit
  constructor
  · have hprograms : t'.stats.programs = (t.stats.lookup hit).programs + 1 := by
      rw [hstats]
      rfl
    rw [hprograms, hplaced, Stats.programs_lookup]
    omega
  · rw [hstats]
    simp only [Stats.mapGcWrite_lookup, List.length_nil, List.count_nil]
    cases hit <;> simp at hhit hmiss <;> omega
  · rw [hstats]
    simp only [List.length_nil]
    omega
  · rw [hstats]
    simp only [List.count_nil]
    omega

theorem metered_hit (hstats : t'.stats = t.stats.lookup true)
    (hplaced : t'.trace.placed = t.trace.placed) : Metered t t' [true] 0 := by
  constructor
  · rw [hstats, hplaced, Stats.programs_lookup, Nat.add_zero]
  · rw [hstats, Stats.cmtHit_lookup, Stats.cmtMiss_lookup, Stats.mapGcWrite_lookup]
    simp
    omega
  · rw [hstats, Stats.cmtHit_lookup]
    exact le_rfl
  · rw [hstats, Stats.cmtMiss_lookup]
    exact le_rfl

/-- A request that does not find its page makes a second search, which does. -/
theorem metered_miss {x y : Shared} (hstats : x.stats = t.stats.lookup false)
    (hplaced : x.trace.placed = t.trace.placed) (h : Metered x y [] 0)
    (hstats' : t'.stats = y.stats.lookup true) (hplaced' : t'.trace.placed = y.trace.placed) :
    Metered t t' [false] 0 := by
  obtain ⟨h1, h2, h3, h4⟩ := h
  rw [hstats, hplaced, Stats.programs_lookup] at h1
  rw [hstats, Stats.cmtHit_lookup, Stats.cmtMiss_lookup, Stats.mapGcWrite_lookup] at h2
  rw [hstats, Stats.cmtHit_lookup] at h3
  rw [hstats, Stats.cmtMiss_lookup] at h4
  simp only [Bool.toNat_false, Bool.toNat_true, Bool.not_false, List.length_nil,
    List.count_nil] at h1 h2 h3 h4
  constructor
  · rw [hstats', hplaced', Stats.programs_lookup]
    exact h1
  · rw [hstats', Stats.cmtHit_lookup, Stats.cmtMiss_lookup, Stats.mapGcWrite_lookup]
    simp
    omega
  · rw [hstats', Stats.cmtHit_lookup]
    simp
    omega
  · rw [hstats', Stats.cmtMiss_lookup]
    simp
    omega

end Meter

section Translation
variable {bank : ℕ}

theorem metered_require (s : Bank) (p : Prop) [Decidable p] :
    Metered s.toShared (s.require p).toShared [] 0 := metered_of_eq rfl rfl rfl rfl rfl

theorem mapGcPage_metered (victimBlk freeBlk : ℕ) (st : MapCopy) (pg : ℕ) :
    ∃ k, (mapGcPage bank victimBlk freeBlk st pg).copyCnt = st.copyCnt + k ∧
      Metered st.state.toShared (mapGcPage bank victimBlk freeBlk st pg).state.toShared [] k := by
  unfold mapGcPage
  simp only
  split
  · exact ⟨1, rfl, metered_copy _ rfl rfl⟩
  · exact ⟨0, rfl, Metered.refl _⟩

theorem mapGcLoop_metered (victimBlk freeBlk : ℕ) (s : Bank) (n : ℕ) :
    Metered s.toShared (mapGcLoop bank victimBlk freeBlk s n).state.toShared []
      (mapGcLoop bank victimBlk freeBlk s n).copyCnt := by
  induction n with
  | zero => exact Metered.refl _
  | succ n ih =>
    obtain ⟨k, hk, hpage⟩ := @mapGcPage_metered bank victimBlk freeBlk
      (mapGcLoop bank victimBlk freeBlk s n) n
    rw [mapGcLoop, hk]
    exact ih.trans hpage

theorem mapGarbageCollection_metered (s : Bank) :
    Metered s.toShared (mapGarbageCollection bank s).toShared [] 0 := by
  have hcollect : ∀ v f x, Metered x.toShared (mapCollect bank v f x).toShared [] 0 := by
    intro v f x
    have hloop := @mapGcLoop_metered bank v f x pagesPerBlk
    unfold mapCollect
    generalize mapGcLoop bank v f x pagesPerBlk = st at *
    exact hloop.place rfl _ rfl
  have hcount : Metered s.toShared ((s.require (s.nextMapPpn = s.gcTriggerMapPpn)).count
      fun t => { t with mapGcCnt := t.mapGcCnt + 1 }).toShared [] 0 :=
    metered_of_eq rfl rfl rfl rfl rfl
  unfold mapGarbageCollection
  simp only
  split
  · exact hcount.before (hcollect _ _ _)
  · exact hcount.before (metered_require _ _)

theorem appendMapPage_metered (victimSlot : ℕ) (s : Bank) :
    Metered s.toShared (appendMapPage bank victimSlot s).toShared [] 0 := by
  have hwrite : Metered s.toShared { s.toShared with
      stats := { s.stats with mapWrite := s.stats.mapWrite + 1 } } [] 1 :=
    metered_program (by simp only [Stats.programs]; omega) rfl rfl rfl rfl
  exact hwrite.place rfl _ rfl

theorem writeBack_metered (victimSlot : ℕ) (s : Bank) :
    Metered s.toShared (writeBack bank victimSlot s).toShared [] 0 := by
  set x := (s.require (s.nextMapPpn ≤ pagesPerBlk * blksPerBank)).require
    (s.gcTriggerMapPpn ≤ pagesPerBlk * blksPerBank) with hx
  have hcheck : Metered s.toShared x.toShared [] 0 := metered_of_eq rfl rfl rfl rfl rfl
  have hroom : Metered s.toShared (if x.nextMapPpn = x.gcTriggerMapPpn then
      mapGarbageCollection bank x else x).toShared [] 0 := by
    split_ifs
    · exact hcheck.before (mapGarbageCollection_metered x)
    · exact hcheck
  exact hroom.before (appendMapPage_metered victimSlot _)

theorem makeFreeSlot_metered (victimSlot : ℕ) (s : Bank) :
    Metered s.toShared (makeFreeSlot bank victimSlot s).toShared [] 0 := by
  set x := s.require (s.cmtVpn victimSlot = s.cmtVpn victimSlot) with hx
  have hcheck : Metered s.toShared x.toShared [] 0 := metered_require s _
  have hback : Metered s.toShared (if x.cmtDirty victimSlot then writeBack bank victimSlot x
      else x).toShared [] 0 := by
    split_ifs
    · exact hcheck.before (writeBack_metered victimSlot x)
    · exact hcheck
  exact hback

theorem ensureFreeSlot_metered (s : Bank) :
    Metered s.toShared (ensureFreeSlot bank s).toShared [] 0 := by
  unfold ensureFreeSlot
  split_ifs
  · have hdraw : Metered s.toShared (getLruSlot s).2.toShared [] 0 :=
      metered_of_eq rfl rfl rfl rfl rfl
    exact hdraw.before (makeFreeSlot_metered (getLruSlot s).1 _)
  · exact Metered.refl _

theorem ensureFreeSlot_free (s : Bank) :
    ∃ slot, getFreeSlot (ensureFreeSlot bank s).toRow = some slot := by
  rw [← Option.ne_none_iff_exists']
  unfold ensureFreeSlot
  split_ifs with hnone
  · intro h
    have hslot : (getLruSlot s).1 < nSlotPb := Nat.mod_lt _ (by decide)
    have hclear : (makeFreeSlot bank (getLruSlot s).1 (getLruSlot s).2).cmtVpn (getLruSlot s).1 =
        -1 := Function.update_self _ _ _
    exact Slots.find_eq_none.1 h _ hslot hclear
  · exact hnone

theorem useFreeSlot_shared (vpn freeSlot : ℕ) (s : Bank) :
    (useFreeSlot bank vpn freeSlot s).stats = s.stats ∧
      (useFreeSlot bank vpn freeSlot s).trace.placed = s.trace.placed := by
  unfold useFreeSlot fillSlot
  simp only
  split_ifs
  · exact ⟨rfl, rfl⟩
  · exact ⟨rfl, rfl⟩
  · exact ⟨rfl, rfl⟩

theorem cacheVpn_metered (vpn : ℕ) (s : Bank) :
    Metered s.toShared (cacheVpn bank vpn s).2.toShared [(slotOf s.toRow vpn).isSome] 0 := by
  unfold cacheVpn isVpnCached
  simp only
  cases hslot : slotOf s.toRow vpn with
  | some offset => exact metered_hit rfl rfl
  | none =>
    set x := s.count fun t => t.lookup false with hx
    have hroom : Metered x.toShared (ensureFreeSlot bank x).toShared [] 0 :=
      ensureFreeSlot_metered x
    obtain ⟨freeSlot, hfree⟩ := @ensureFreeSlot_free bank x
    obtain ⟨huse, huse'⟩ := @useFreeSlot_shared bank vpn freeSlot (ensureFreeSlot bank x)
    have hfound :
        (slotOf (useFreeSlot bank vpn freeSlot (ensureFreeSlot bank x)).toRow vpn).isSome =
        true := by
      rw [Option.isSome_iff_ne_none]
      intro hnone
      exact Slots.find_eq_none.1 hnone freeSlot (Slots.find_some hfree).1
        (Function.update_self _ _ _)
    simp only [Option.isSome_none]
    rw [hfree]
    simp only
    rw [hfound]
    exact metered_miss (x := x.toShared) rfl rfl hroom (congrArg (Stats.lookup · true) huse) huse'

theorem lpn2ppn_metered (lpn : ℕ) (s : Bank) :
    Metered s.toShared (lpn2ppn bank lpn s).2.toShared [lpnCached s.toRow lpn] 0 :=
  cacheVpn_metered (lpn2vpn lpn) s

theorem updateL2p_metered (lpn : ℕ) (ppn : ℤ) (s : Bank) :
    Metered s.toShared (updateL2p bank lpn ppn s).toShared [lpnCached s.toRow lpn] 0 := by
  have hset : ∀ o x, Metered x.toShared (setEntry (lpn2vpn lpn) o lpn ppn x).toShared [] 0 := by
    intro o x
    unfold setEntry
    simp only
    split_ifs
    · exact metered_of_eq rfl rfl rfl rfl rfl
    · exact metered_of_eq rfl rfl rfl rfl rfl
  exact (cacheVpn_metered (lpn2vpn lpn) s).before (hset _ _)

end Translation

section Collection
variable {bank : ℕ}

theorem gcPage_metered (victimPblk freePblk : ℕ) (st : DataCopy) (pageOffset : ℕ) :
    ∃ k, (gcPage bank victimPblk freePblk st pageOffset).immigrantsCnt = st.immigrantsCnt + k ∧
      Metered st.state.toShared (gcPage bank victimPblk freePblk st pageOffset).state.toShared
        (gcPageRequests bank victimPblk st.state pageOffset) k := by
  unfold gcPage gcPageRequests
  simp only
  split_ifs
  · set rd := nandRead st.state.nand bank victimPblk pageOffset st.state.stack.data
      st.state.stack.spare with hrd
    set x := ((st.state.returned rd.1).write bank freePblk st.immigrantsCnt rd.2.data
      rd.2.spare).count fun t => { t with gcWrite := t.gcWrite + 1 } with hx
    have hprograms : ({ st.state.stats with gcWrite := st.state.stats.gcWrite + 1 } :
        Stats).programs = st.state.stats.programs + 1 := by
      simp only [Stats.programs]
      omega
    have hcopy : Metered st.state.toShared x.toShared [] 1 :=
      metered_program hprograms rfl rfl rfl rfl
    exact ⟨1, rfl, hcopy.after (updateL2p_metered rd.2.spare.toNat _ x)⟩
  · exact ⟨0, rfl, Metered.refl _⟩

theorem gcLoop_metered (victimPblk freePblk : ℕ) (s : Bank) (n : ℕ) :
    Metered s.toShared (gcLoop bank victimPblk freePblk s n).state.toShared
      (gcLoopRequests bank victimPblk freePblk s n)
      (gcLoop bank victimPblk freePblk s n).immigrantsCnt := by
  induction n with
  | zero => exact Metered.refl _
  | succ n ih =>
    obtain ⟨k, hk, hpage⟩ := @gcPage_metered bank victimPblk freePblk
      (gcLoop bank victimPblk freePblk s n) n
    rw [gcLoop, gcLoopRequests, hk]
    exact ih.trans hpage

theorem garbageCollection_metered (s : Bank) :
    Metered s.toShared (garbageCollection bank s).toShared (collectionRequests bank s) 0 := by
  have hcollect : ∀ v f x, Metered x.toShared (collect bank v f x).toShared
      (gcLoopRequests bank v f x pagesPerBlk) 0 := by
    intro v f x
    have hloop := @gcLoop_metered bank v f x pagesPerBlk
    unfold collect
    generalize gcLoop bank v f x pagesPerBlk = st at *
    exact hloop.place rfl _ rfl
  have hcount : Metered s.toShared ((s.require (s.nextDataPpn = s.gcTriggerDataPpn)).count
      fun t => { t with gcCnt := t.gcCnt + 1 }).toShared [] 0 :=
    metered_of_eq rfl rfl rfl rfl rfl
  unfold garbageCollection collectionRequests
  simp only
  cases greedyDataBlk ((s.require (s.nextDataPpn = s.gcTriggerDataPpn)).count
      fun t => { t with gcCnt := t.gcCnt + 1 }).toRow with
  | none => exact hcount.before (metered_require _ _)
  | some victimPblk =>
    cases getFreeBlkData ((s.require (s.nextDataPpn = s.gcTriggerDataPpn)).count
        fun t => { t with gcCnt := t.gcCnt + 1 }).toRow with
    | none => exact hcount.before (metered_require _ _)
    | some freePblk => exact hcount.after (hcollect _ _ _)

theorem appendSlot_metered (victimSlot : ℕ) (s : Bank) :
    Metered s.toShared (appendSlot bank victimSlot s).toShared
      (appendRequests bank victimSlot s) 0 := by
  have hlook := @lpn2ppn_metered bank (s.bufferS2l victimSlot).toNat s
  unfold appendSlot appendRequests
  simp only
  generalize lpn2ppn bank (s.bufferS2l victimSlot).toNat s = x at *
  obtain ⟨beforePpn, s₁⟩ := x
  have hflag : Metered s₁.toShared (if beforePpn ≠ -1 then s₁.invalidate beforePpn.toNat
      else s₁).toShared [] 0 := by
    split_ifs
    · exact Metered.refl _
    · exact Metered.refl _
  set y := if beforePpn ≠ -1 then s₁.invalidate beforePpn.toNat else s₁ with hy
  have hupdate := (hlook.before hflag).trans
    (@updateL2p_metered bank (s.bufferS2l victimSlot).toNat (s.nextDataPpn : ℤ) y)
  set z := updateL2p bank (s.bufferS2l victimSlot).toNat (s.nextDataPpn : ℤ) y with hz
  have hwrite : Metered z.toShared { z.toShared with
      stats := { z.stats with nandWrite := z.stats.nandWrite + 1 } } [] 1 :=
    metered_program (by simp only [Stats.programs]; omega) rfl rfl rfl rfl
  exact hupdate.before (hwrite.place rfl _ rfl)

theorem evict_metered (s : Bank) :
    Metered s.toShared (evict bank s).toShared (evictRequests bank s) 0 := by
  have hdraw : Metered s.toShared (getVictimDataSlot s).2.toShared [] 0 :=
    metered_of_eq rfl rfl rfl rfl rfl
  unfold evict evictRequests
  simp only
  split_ifs
  · exact hdraw.after ((garbageCollection_metered _).trans (appendSlot_metered _ _))
  · exact hdraw.after (appendSlot_metered _ _)

theorem writeThroughLpn_metered (lpn : ℕ) (data : Sectors) (s : Bank) :
    Metered s.toShared (writeThroughLpn bank lpn data s).toShared
      (writeThroughRequests bank lpn s) 0 := by
  unfold writeThroughLpn writeThroughRequests
  cases simBufferL2s s.toRow lpn with
  | some slot => exact metered_of_eq rfl rfl rfl rfl rfl
  | none =>
    set x := s.count fun t => { t with cacheMiss := t.cacheMiss + 1 } with hx
    have hcount : Metered s.toShared x.toShared [] 0 := metered_of_eq rfl rfl rfl rfl rfl
    have hroom : Metered s.toShared
        (if getEmptyDataSlot x.toRow = none then evict bank x else x).toShared
        (if getEmptyDataSlot x.toRow = none then evictRequests bank x else []) 0 := by
      split_ifs
      · exact hcount.after (evict_metered x)
      · exact hcount
    simp only
    generalize (if getEmptyDataSlot x.toRow = none then evict bank x else x) = y at *
    cases getEmptyDataSlot y.toRow with
    | some slot => exact hroom
    | none => exact hroom.before (metered_require y False)

end Collection

end Dftl
