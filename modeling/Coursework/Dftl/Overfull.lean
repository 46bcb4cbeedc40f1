import Coursework.Dftl.Exhaustion

/-! A run that fills one bank: the pages `0, …, 510`, then page 80 again, page 511, and the pages
from 0 on once more, with a buffer that is emptied in the order in which it was filled. Page 0 is
then evicted when all data pages are in use. -/
namespace Dftl
open Nand Sector Paging

section Stage
variable {bank free next trig o l : ℕ} {s s' : Bank}

/-- Where a bank's next data page goes, and that all data pages hold zeros. -/
structure Stage (bank free next trig : ℕ) (s : Bank) : Prop where
  inv : BankInv bank s
  region : Region 0 nPhyDataBlk .data s.nextDataPpn s.gcTriggerDataPpn s.blockStatus
    (dataLog bank s) free
  next : s.nextDataPpn = next
  trig : s.gcTriggerDataPpn = trig
  zero : ∀ k d, (dataLog bank s).value k = some d → d = fun _ => 0

theorem Stage.kept (h : Stage bank free next trig s) (hk : Kept bank s s') :
    Stage bank free next trig s' :=
  ⟨hk.bankInv h.inv, hk.region h.region, hk.step.nextDataPpn.trans h.next,
    hk.step.gcTriggerDataPpn.trans h.trig, by rw [hk.dataLog]; exact h.zero⟩

theorem Region.value_eq_none
    (hr : Region 0 nPhyDataBlk .data s.nextDataPpn s.gcTriggerDataPpn s.blockStatus
      (dataLog bank s) free) : (dataLog bank s).value (l : ℤ) = none ↔ table bank s l = -1 := by
  rw [PageLog.value_eq_none hr.space.consistent, dataLog, loc_natCast, entry_eq_none]

theorem Stage.append (h : Stage bank free next trig s) (hlt : next < trig) (hl : l < nLpnsPb)
    (hs2l : s.bufferS2l o = l) (hdata : s.bufferData o = fun _ => 0) :
    Stage bank free (next + 1) trig (appendSlot bank o s) ∧
      table bank (appendSlot bank o s) = Function.update (table bank s) l (next : ℤ) ∧
      (appendSlot bank o s).bufferS2l = Function.update s.bufferS2l o (-1) ∧
      (appendSlot bank o s).bufferData = s.bufferData ∧
      (appendSlot bank o s).dataVictims = s.dataVictims := by
  have hlt' : s.nextDataPpn < s.gcTriggerDataPpn := by
    rw [h.next, h.trig]
    exact hlt
  have happ := appendSlot_appended h.inv.map h.region hlt' hl hs2l
  have htable := happ.table
  rw [h.next] at htable
  refine ⟨⟨happ.bankInv h.inv hl, happ.region, by rw [happ.next, h.next], happ.trig.trans h.trig,
    fun k d hk => ?_⟩, htable, happ.bufferS2l, happ.bufferData, happ.dataVictims⟩
  rw [happ.log, h.region.space.value_append hlt'] at hk
  by_cases hkl : k = l
  · rw [hkl, Function.update_self, hdata] at hk
    exact (Option.some.inj hk).symm
  · rw [Function.update_of_ne hkl] at hk
    exact h.zero k d hk

theorem Stage.collect (h : Stage bank free trig trig s) :
    ∃ v, Greedy s.toRow 0 blksPerBank v ∧ v ≠ free ∧
      Collected bank v free s (garbageCollection bank s) ∧
      Stage bank v (free * pagesPerBlk + pagesPerBlk - invalidCnt s.isValid v)
        (free * pagesPerBlk + pagesPerBlk) (garbageCollection bank s) ∧
      ∀ l : ℕ, table bank (garbageCollection bank s) l = -1 ↔ table bank s l = -1 := by
  obtain ⟨v, hv, hne, hcol⟩ := garbageCollection_collected h.inv.map h.inv.lpn_lt h.region
    (h.next.trans h.trig.symm)
  have hroom := hcol.room
  have htrig := hcol.trig
  refine ⟨v, hv, hne, hcol, ⟨⟨hcol.inv, ⟨v, hcol.region⟩, hcol.lpn_lt, ?_⟩, hcol.region, by omega,
    htrig, fun k d hk => ?_⟩, fun l => ?_⟩
  · rw [hcol.bufferS2l]
    exact h.inv.buffers
  · rw [hcol.value] at hk
    exact h.zero k d hk
  · rw [← hcol.region.value_eq_none, ← h.region.value_eq_none, hcol.value]

end Stage

section Queue
variable {bank n : ℕ} {s s' : Bank}

/-- The page that write `n` of the run is to. -/
def order (n : ℕ) : ℕ :=
  if n ≤ 510 then n else if n = 511 then 80 else if n = 512 then 511 else n - 513

/-- What write `n` of the run fills its page with. -/
def word (n : ℕ) : Word := if n = 513 then 1 else 0

theorem order_lt (hn : n ≤ 523) : order n < nLpnsPb := by
  have e : nLpnsPb = 512 := rfl
  unfold order
  split_ifs <;> omega

theorem order_ne {i : ℕ} (hn : n ≤ 523) (hi : i < n) (hw : n ≤ i + nBuffers) :
    order i ≠ order n := by
  have e : nBuffers = 10 := rfl
  unfold order
  split_ifs <;> omega

/-- The buffer after `n` writes of the run: it holds the last ten, each in the slot its number
gives, and slots fall victim in that order. -/
structure Queue (n : ℕ) (s : Bank) : Prop where
  victims : ∀ k, s.dataVictims k = n - nBuffers + k
  unused : ∀ o, n ≤ o → o < nBuffers → s.bufferS2l o = -1
  used : ∀ i < n, n ≤ i + nBuffers → s.bufferS2l (i % nBuffers) = order i ∧
    s.bufferData (i % nBuffers) = fun _ => word i

namespace Queue

theorem slot_cases (hq : Queue n s) {o : ℕ} (ho : o < nBuffers) :
    n ≤ o ∧ s.bufferS2l o = -1 ∨
      ∃ i < n, n ≤ i + nBuffers ∧ i % nBuffers = o ∧ s.bufferS2l o = order i := by
  have e : nBuffers = 10 := rfl
  by_cases hno : n ≤ o
  · exact .inl ⟨hno, hq.unused o hno ho⟩
  · rw [e] at ho
    have h1 : n - 1 - (n + 9 - o) % 10 < n := by omega
    have h2 : n ≤ n - 1 - (n + 9 - o) % 10 + 10 := by omega
    have h3 : (n - 1 - (n + 9 - o) % 10) % 10 = o := by omega
    refine .inr ⟨_, h1, h2, h3, ?_⟩
    have := (hq.used _ h1 h2).1
    rwa [e, h3] at this

theorem miss (hq : Queue n s) (hn : n ≤ 523) : simBufferL2s s.toRow (order n) = none := by
  refine Slots.find_eq_none.mpr fun o ho => ?_
  rcases hq.slot_cases ho with ⟨-, h⟩ | ⟨i, hi, hw, -, h⟩
  · omega
  · have := order_ne hn hi hw
    omega

/-- Filling the slot of the next write. -/
theorem push (hq : Queue n s) (hs2l : ∀ o, o ≠ n % nBuffers → s'.bufferS2l o = s.bufferS2l o)
    (hdata : s'.bufferData = s.bufferData) (hv : ∀ k, s'.dataVictims k = n + 1 - nBuffers + k) :
    Queue (n + 1) (s'.fillBuffer (n % nBuffers) (order n) fun _ => word n) := by
  have e : nBuffers = 10 := rfl
  have hm : n % nBuffers = n % 10 := rfl
  have hold : ∀ o, o ≠ n % nBuffers →
      (s'.fillBuffer (n % nBuffers) (order n) fun _ => word n).bufferS2l o = s.bufferS2l o ∧
      (s'.fillBuffer (n % nBuffers) (order n) fun _ => word n).bufferData o = s.bufferData o :=
    fun o ho => ⟨(Function.update_of_ne ho _ _).trans (hs2l o ho),
      (Function.update_of_ne ho _ _).trans (congrFun hdata o)⟩
  refine ⟨hv, fun o h1 h2 => ?_, fun i hi hw => ?_⟩
  · rw [(hold o (by omega)).1]
    exact hq.unused o (by omega) h2
  · by_cases hin : i = n
    · subst hin
      exact ⟨Function.update_self _ _ _, Function.update_self _ _ _⟩
    · have hi : i % nBuffers = i % 10 := rfl
      have hne : i % nBuffers ≠ n % nBuffers := by omega
      rw [(hold _ hne).1, (hold _ hne).2]
      exact hq.used i (by omega) (by omega)

theorem oldest (hq : Queue n s) (hn : nBuffers ≤ n) :
    s.bufferS2l (n % nBuffers) = order (n - nBuffers) ∧
      s.bufferData (n % nBuffers) = (fun _ => word (n - nBuffers)) ∧
      (getVictimDataSlot s).1 = n % nBuffers := by
  have e : nBuffers = 10 := rfl
  have hmod : (n - nBuffers) % nBuffers = n % nBuffers := (Nat.mod_eq_sub_mod hn).symm
  obtain ⟨h1, h2⟩ := hq.used (n - nBuffers) (by omega) (by omega)
  rw [hmod] at h1 h2
  refine ⟨h1, h2, ?_⟩
  rw [getVictimDataSlot, hq.victims, Nat.add_zero, hmod]

/-- The write takes the slot that is free, once the oldest page has been evicted if need be. -/
theorem write_eq (hq : Queue n s) (hn : n ≤ 523)
    (hs2l : nBuffers ≤ n → ∀ o, (evict bank (s.count fun t =>
      { t with cacheMiss := t.cacheMiss + 1 })).bufferS2l o =
        Function.update s.bufferS2l (n % nBuffers) (-1) o) (data : Sectors) :
    writeThroughLpn bank (order n) data s =
      (if nBuffers ≤ n then evict bank (s.count fun t => { t with cacheMiss := t.cacheMiss + 1 })
        else s.count fun t => { t with cacheMiss := t.cacheMiss + 1 }).fillBuffer (n % nBuffers)
          (order n) data := by
  have e : nBuffers = 10 := rfl
  have hm : n % nBuffers = n % 10 := rfl
  unfold writeThroughLpn
  rw [hq.miss hn]
  simp only
  by_cases hfull : nBuffers ≤ n
  · have hnone : getEmptyDataSlot (s.count fun t =>
        { t with cacheMiss := t.cacheMiss + 1 }).toRow = none := by
      refine Slots.find_eq_none.mpr fun o ho => ?_
      change s.bufferS2l o ≠ -1
      rcases hq.slot_cases ho with ⟨h, -⟩ | ⟨i, -, -, -, h⟩
      · omega
      · omega
    have hfree : getEmptyDataSlot (evict bank (s.count fun t =>
        { t with cacheMiss := t.cacheMiss + 1 })).toRow = some (n % nBuffers) := by
      refine Slots.find_first (by omega) ?_ fun o ho => ?_
      · rw [hs2l hfull, Function.update_self]
      · rw [hs2l hfull, Function.update_of_ne (by omega)]
        rcases hq.slot_cases (show o < nBuffers by omega) with ⟨h, -⟩ | ⟨i, -, -, -, h⟩
        · omega
        · omega
    rw [if_pos hnone, if_pos hfull, hfree]
  · have hfree : getEmptyDataSlot (s.count fun t =>
        { t with cacheMiss := t.cacheMiss + 1 }).toRow = some (n % nBuffers) := by
      have hmod : n % nBuffers = n := Nat.mod_eq_of_lt (not_le.mp hfull)
      rw [hmod]
      refine Slots.find_first (not_le.mp hfull)
        (hq.unused n le_rfl (not_le.mp hfull)) fun o ho => ?_
      change s.bufferS2l o ≠ -1
      rcases hq.slot_cases (show o < nBuffers by omega) with ⟨h, -⟩ | ⟨i, -, -, -, h⟩
      · omega
      · omega
    rw [if_neg (by rw [hfree]; simp), if_neg hfull, hfree]

end Queue

end Queue

section Evictions
variable {bank m o l : ℕ} {s : Bank}

/-- The table after the first `m` evictions. -/
def evictedTable : ℕ → ℕ → ℤ
  | 0 => fun _ => -1
  | m + 1 => Function.update (evictedTable m) (order m) (m : ℤ)

theorem evictedTable_eq : ∀ m ≤ 511, ∀ l, evictedTable m l = if l < m then (l : ℤ) else -1
  | 0, _, l => by
    rw [if_neg (Nat.not_lt_zero l)]
    rfl
  | m + 1, hm, l => by
    have horder : order m = m := if_pos (by omega)
    rw [evictedTable, horder]
    by_cases hl : l = m
    · rw [hl, Function.update_self, if_pos (Nat.lt_succ_self m)]
    · rw [Function.update_of_ne hl, evictedTable_eq m (by omega)]
      exact if_congr (by omega) rfl rfl

/-- Nothing has been collected yet. -/
structure Filling (bank m : ℕ) (s : Bank) : Prop where
  stage : Stage bank 32 m 512 s
  table : table bank s = evictedTable m

/-- All logical pages are mapped and all data pages in use. -/
structure Full (bank : ℕ) (s : Bank) : Prop where
  stage : Stage bank 5 528 528 s
  mapped : ∀ l < nLpnsPb, table bank s l ≠ -1

theorem Stage.draw {free next trig : ℕ} (h : Stage bank free next trig s) :
    Stage bank free next trig (getVictimDataSlot s).2 ∧
      table bank (getVictimDataSlot s).2 = table bank s := by
  obtain ⟨⟨⟨h1, h2, h3, h4, h5, h6, h7, h8⟩, hr, hl, hb⟩, hregion, hn, ht, hz⟩ := h
  exact ⟨⟨⟨⟨h1, h2, h3, h4, h5, h6, h7, h8⟩, hr, hl, hb⟩, hregion, hn, ht, hz⟩, rfl⟩

/-- What an eviction does to the buffer. -/
structure Emptied (o : ℕ) (s s' : Bank) : Prop where
  bufferS2l : s'.bufferS2l = Function.update s.bufferS2l o (-1)
  bufferData : s'.bufferData = s.bufferData
  dataVictims : ∀ k, s'.dataVictims k = s.dataVictims (k + 1)

theorem evict_filling (h : Filling bank m s) (hm : m < 512) (ho : (getVictimDataSlot s).1 = o)
    (hs2l : s.bufferS2l o = order m) (hdata : s.bufferData o = fun _ => 0) :
    Filling bank (m + 1) (evict bank s) ∧ Emptied o s (evict bank s) := by
  obtain ⟨hdraw, htable⟩ := h.stage.draw
  have hne : (getVictimDataSlot s).2.nextDataPpn ≠ (getVictimDataSlot s).2.gcTriggerDataPpn := by
    rw [hdraw.next, hdraw.trig]
    omega
  have heq : evict bank s = appendSlot bank o (getVictimDataSlot s).2 := by
    unfold evict
    simp only
    rw [if_neg hne, ho]
  obtain ⟨h1, h2, h3, h4, h5⟩ := hdraw.append hm (order_lt (by omega)) hs2l hdata
  rw [heq]
  exact ⟨⟨h1, by rw [h2, htable, h.table]; rfl⟩, h3, h4, fun k => congrFun h5 k⟩

theorem Filling.valid (h : Filling bank 512 s) {p : ℕ} (hp : p < 512) (hne : p ≠ 80) :
    s.isValid p = true := by
  have hentry : ∃ l : ℕ, Dftl.table bank s l = p := by
    rw [h.table]
    change ∃ l : ℕ, Function.update (evictedTable 511) 80 (511 : ℤ) l = p
    by_cases hp' : p = 511
    · exact ⟨80, by rw [Function.update_self, hp']; rfl⟩
    · exact ⟨p, by rw [Function.update_of_ne hne, evictedTable_eq 511 le_rfl, if_pos (by omega)]⟩
  obtain ⟨l, hl⟩ := hentry
  refine h.stage.region.valid_of_current (k := (l : ℤ)) ?_
  rw [dataLog, loc_natCast, hl, entry_natCast]

theorem Filling.unmapped (h : Filling bank 512 s) (hl : l < nLpnsPb) :
    Dftl.table bank s l = -1 ↔ l = 511 := by
  have e : nLpnsPb = 512 := rfl
  rw [h.table]
  change Function.update (evictedTable 511) 80 (511 : ℤ) l = -1 ↔ _
  by_cases h80 : l = 80
  · rw [h80, Function.update_self]
    omega
  · rw [Function.update_of_ne h80, evictedTable_eq 511 le_rfl]
    by_cases hlt : l < 511
    · rw [if_pos hlt]
      omega
    · rw [if_neg hlt]
      omega

theorem evict_collect (h : Filling bank 512 s) (ho : (getVictimDataSlot s).1 = o)
    (hs2l : s.bufferS2l o = (511 : ℕ)) (hdata : s.bufferData o = fun _ => 0) :
    Full bank (evict bank s) ∧ Emptied o s (evict bank s) := by
  have e : nLpnsPb = 512 := rfl
  have eP : ∀ b, b * pagesPerBlk = 16 * b := fun b => Nat.mul_comm b 16
  have ePhys : nPhyDataBlk = 33 := rfl
  obtain ⟨hdraw, htable⟩ := h.stage.draw
  set s₁ := (getVictimDataSlot s).2 with hs₁
  have hfilling : Filling bank 512 s₁ := ⟨hdraw, htable.trans h.table⟩
  obtain ⟨v, hv, hvf, hcol, hstage, hmapped⟩ := hdraw.collect
  have hvlt := hdraw.inv.map.data_lt hv.lt hv.isData
  -- page 80 is the only invalid one
  have hpos : 0 < invalidCnt s₁.isValid v := by
    rcases (canEvict_iff hdraw.inv).mpr (.inr ⟨511, by omega,
      (hfilling.unmapped (by omega)).mpr rfl⟩) with hne | ⟨b, hb, hd, hinv⟩
    · exact absurd (hdraw.next.trans hdraw.trig.symm) hne
    · exact hinv.trans_le (hv.max b (Nat.zero_le b) hb hd)
  obtain ⟨i, hi, hflag⟩ := clearCount_pos.mp hpos
  have hi' : i < 16 := hi
  have hpage : v * pagesPerBlk + i = 80 := by
    by_contra hne
    rw [hfilling.valid (by rw [eP]; omega) hne] at hflag
    cases hflag
  rw [hpage] at hflag
  rw [eP] at hpage
  obtain rfl : v = 5 := by omega
  have hcount : invalidCnt s₁.isValid 5 = 1 := by
    have hcongr : clearCount pagesPerBlk s₁.isValid 5 =
        clearCount pagesPerBlk (fun p => decide (p ≠ 80)) 5 := by
      refine clearCount_congr fun j hj => ?_
      have hj' : j < 16 := hj
      rw [eP]
      by_cases hj0 : j = 0
      · subst hj0
        exact hflag
      · rw [hfilling.valid (by omega) (by omega)]
        exact (decide_eq_true (by omega)).symm
    exact hcongr.trans (by decide)
  rw [hcount] at hstage
  have he : s₁.nextDataPpn = s₁.gcTriggerDataPpn := hdraw.next.trans hdraw.trig.symm
  have heq : evict bank s = appendSlot bank o (garbageCollection bank s₁) := by
    unfold evict
    simp only
    rw [← hs₁, if_pos he, ho]
  obtain ⟨h1, h2, h3, h4, h5⟩ := hstage.append (o := o) (l := 511) (by decide) (by omega)
    (by rw [hcol.bufferS2l]; exact hs2l) (by rw [hcol.bufferData]; exact hdata)
  rw [heq]
  refine ⟨⟨h1, fun l hl => ?_⟩, by rw [h3, hcol.bufferS2l]; rfl, h4.trans hcol.bufferData,
    fun k => by rw [h5, hcol.dataVictims]; rfl⟩
  rw [h2]
  by_cases h511 : l = 511
  · rw [h511, Function.update_self]
    decide
  · rw [Function.update_of_ne h511, Ne, hmapped, hfilling.unmapped hl]
    exact h511

/-- What is left when a page is evicted from a full bank: its entry names a page that holds
another page's zeros, and data garbage collection has returned without room. -/
structure Lost (bank l o : ℕ) (s s' : Bank) : Prop extends Emptied o s s' where
  inv : MapInv bank s'
  entry : table bank s' l = 96
  phys : ∃ k, s'.nand.phys bank 96 = some ⟨fun _ => 0, k⟩
  gcReturns : (96, 96) ∈ s'.trace.gcReturns

theorem evict_full (h : Full bank s) (ho : (getVictimDataSlot s).1 = o) (hl : l < nLpnsPb)
    (hs2l : s.bufferS2l o = l) : Lost bank l o s (evict bank s) := by
  have e : nLpnsPb = 512 := rfl
  have ePhys : nPhyDataBlk = 33 := rfl
  obtain ⟨hdraw, htable⟩ := h.stage.draw
  set s₁ := (getVictimDataSlot s).2 with hs₁
  obtain ⟨v, hv, hvf, hcol, hstage, hmapped⟩ := hdraw.collect
  have hvlt := hdraw.inv.map.data_lt hv.lt hv.isData
  have he : s₁.nextDataPpn = s₁.gcTriggerDataPpn := hdraw.next.trans hdraw.trig.symm
  have hall₁ : ∀ l < nLpnsPb, table bank s₁ l ≠ -1 := by
    rw [htable]
    exact h.mapped
  -- no page is invalid, so the victim is the first block
  have hcount : ∀ b < nPhyDataBlk, b ≠ 5 → invalidCnt s₁.isValid b = 0 := by
    intro b hb hb5
    by_contra hne
    obtain ⟨i, hi, hflag⟩ := clearCount_pos.mp (Nat.pos_of_ne_zero hne)
    obtain ⟨k, hk⟩ := hdraw.region.all_current he hall₁
      (hdraw.region.space.full he hb5 (Nat.zero_le b) hb hi)
    rw [hdraw.region.valid_of_current hk] at hflag
    cases hflag
  have hv0 : v = 0 := by
    by_contra hne
    have hdata : s₁.blockStatus 0 = .data :=
      hdraw.region.others 0 le_rfl (by decide) (by decide)
    have hlt := hv.first 0 le_rfl (Nat.pos_of_ne_zero hne) hdata
    rw [hcount v hvlt hvf] at hlt
    exact absurd hlt (Nat.not_lt_zero _)
  subst hv0
  rw [hcount 0 (by decide) (by decide)] at hstage
  set s₂ := garbageCollection bank s₁ with hs₂
  have hstage₂ : Stage bank 0 96 96 s₂ := hstage
  have he₂ : s₂.nextDataPpn = s₂.gcTriggerDataPpn := hstage₂.next.trans hstage₂.trig.symm
  -- the page after the new block is in use
  have hin : InRegion 0 nPhyDataBlk 96 := by decide
  obtain ⟨k, hk⟩ := hstage₂.region.all_current he₂ (fun l hl hn => hall₁ l hl ((hmapped l).mp hn))
    (hstage₂.region.space.full (b := 6) (i := 0) he₂ (by decide) (by decide) (by decide)
      (by decide))
  obtain ⟨-, d, hcell⟩ := hstage₂.region.space.consistent.located hk
  have hd : d = fun _ => 0 := hstage₂.zero k d (PageLog.value_eq_of_cell hk hcell)
  have hphys : s₂.nand.phys bank 96 = some ⟨fun _ => 0, k⟩ := hd ▸ (cell_eq_some hin).mp hcell
  obtain ⟨s₃, hprep⟩ := appendSlot_prepared (o := o) hstage₂.inv.map hstage₂.region hl
    (by rw [hcol.bufferS2l]; exact hs2l)
  have hphys₃ : s₃.nand.phys bank 96 = some ⟨fun _ => 0, k⟩ := (hprep.phys 96 hin).trans hphys
  obtain ⟨f, heq⟩ := hprep.eq
  have heq' : evict bank s = appendSlot bank o s₂ := by
    unfold evict
    simp only
    rw [← hs₁, if_pos he, ho]
  have hnand : (nandWrite s₃.nand bank ((s₂.nextDataPpn : ℤ) / pagesPerBlk)
      ((s₂.nextDataPpn : ℤ) % pagesPerBlk) (s₂.bufferData o) l).1 = s₃.nand := by
    rw [hstage₂.next]
    exact hprep.inv.fits.write_taken (by rw [hphys₃]; rfl) _ _
  rw [heq', heq]
  have hstep : DataStep bank s₃ (((((s₃.write bank ((s₂.nextDataPpn : ℤ) / pagesPerBlk)
      ((s₂.nextDataPpn : ℤ) % pagesPerBlk) (s₂.bufferData o) l).count f).place 1 .data
        (s₂.nextDataPpn / pagesPerBlk)).setDataPpns (s₂.nextDataPpn + 1)
          s₂.gcTriggerDataPpn).emptySlot o) := by
    refine ⟨?_, fun p _ => congrFun (congrArg (fun n => n.phys bank) hnand) p, fun _ _ => rfl,
      fun _ _ _ => rfl, id, rfl⟩
    change Local s₃.nand (nandWrite _ _ _ _ _ _).1 bank
    rw [hnand]
    exact Local.refl _ _
  refine ⟨⟨?_, ?_, fun k => ?_⟩, hstep.mapInv hprep.inv, ?_, ⟨k, ?_⟩, ?_⟩
  · change Function.update s₃.bufferS2l o (-1) = _
    rw [show s₃.bufferS2l = s₂.bufferS2l from congrArg DataSide.bufferS2l hprep.dataSide,
      hcol.bufferS2l]
    rfl
  · exact (congrArg DataSide.bufferData hprep.dataSide).trans hcol.bufferData
  · exact congrFun ((congrArg DataSide.dataVictims hprep.dataSide).trans hcol.dataVictims) k
  · rw [hstep.table, hprep.table, Function.update_self, hstage₂.next]
    rfl
  · change (nandWrite _ _ _ _ _ _).1.phys bank 96 = _
    rw [hnand]
    exact hphys₃
  · change _ ∈ s₃.trace.gcReturns
    rw [show s₃.trace.gcReturns = s₂.trace.gcReturns from
      congrArg DataSide.gcReturns hprep.dataSide, hcol.gcReturns, hstage₂.next, hstage₂.trig]
    exact List.mem_cons_self

end Evictions

section Run
variable {bank n : ℕ} {s s' : Bank}

/-- The data pages after the first `m` evictions of the run. -/
def Evicted (bank m : ℕ) (s : Bank) : Prop :=
  m ≤ 512 ∧ Filling bank m s ∨ m = 513 ∧ Full bank s

/-- The bank after the first `n` writes of the run. -/
structure Loaded (bank n : ℕ) (s : Bank) : Prop where
  queue : Queue n s
  evicted : Evicted bank (n - nBuffers) s

theorem Stage.count {free next trig : ℕ} (h : Stage bank free next trig s) (f : Stats → Stats) :
    Stage bank free next trig (s.count f) := h.kept (kept_count h.inv.map f)

theorem Evicted.kept {m : ℕ} (h : Evicted bank m s) (hk : Kept bank s s') : Evicted bank m s' := by
  rcases h with ⟨hm, h⟩ | ⟨hm, h⟩
  · exact .inl ⟨hm, h.stage.kept hk, hk.table.trans h.table⟩
  · exact .inr ⟨hm, h.stage.kept hk, by rw [hk.table]; exact h.mapped⟩

theorem Evicted.inv {m : ℕ} (h : Evicted bank m s) : BankInv bank s := by
  rcases h with ⟨-, h⟩ | ⟨-, h⟩
  · exact h.stage.inv
  · exact h.stage.inv

theorem Queue.kept (h : Queue n s) (hk : Kept bank s s') : Queue n s' := by
  refine ⟨fun k => ?_, fun o h1 h2 => ?_, fun i hi hw => ?_⟩
  · rw [hk.step.dataVictims]
    exact h.victims k
  · rw [hk.step.bufferS2l]
    exact h.unused o h1 h2
  · rw [hk.step.bufferS2l, hk.step.bufferData]
    exact h.used i hi hw

theorem Evicted.fill {m o l : ℕ} (h : Evicted bank m s) (hl : l < nLpnsPb) (ho : o < nBuffers)
    (hnone : simBufferL2s s.toRow l = none) (hfree : s.bufferS2l o = -1) (data : Sectors) :
    Evicted bank m (s.fillBuffer o l data) := by
  have hinv := (fillBuffer_spec h.inv hl ho (.inr ⟨hnone, hfree⟩) data).1
  rcases h with ⟨hm, ⟨-, hr, hn, ht, hz⟩, htable⟩ | ⟨hm, ⟨-, hr, hn, ht, hz⟩, hall⟩
  · exact .inl ⟨hm, ⟨hinv, hr, hn, ht, hz⟩, htable⟩
  · exact .inr ⟨hm, ⟨hinv, hr, hn, ht, hz⟩, hall⟩

theorem Loaded.emptied (h : Loaded bank n s) (hn : nBuffers ≤ n) (hlt : n ≤ 522) :
    Evicted bank (n + 1 - nBuffers) (evict bank s) ∧ Emptied (n % nBuffers) s (evict bank s) := by
  have e : nBuffers = 10 := rfl
  obtain ⟨h1, h2, h3⟩ := h.queue.oldest hn
  have hdata : s.bufferData (n % nBuffers) = fun _ => 0 := by
    rw [h2]
    funext _
    exact if_neg (by omega)
  have hsucc : n + 1 - nBuffers = n - nBuffers + 1 := by omega
  rcases h.evicted with ⟨hm, hfill⟩ | ⟨hm, -⟩
  · rw [hsucc]
    by_cases hlast : n - nBuffers = 512
    · rw [hlast] at hfill h1 ⊢
      obtain ⟨h4, h5⟩ := evict_collect hfill h3 h1 hdata
      exact ⟨.inr ⟨rfl, h4⟩, h5⟩
    · obtain ⟨h4, h5⟩ := evict_filling hfill (by omega) h3 h1 hdata
      exact ⟨.inl ⟨by omega, h4⟩, h5⟩
  · omega

/-- One write of the run. -/
theorem Loaded.step (h : Loaded bank n s) (hn : n ≤ 522) :
    Loaded bank (n + 1) (writeThroughLpn bank (order n) (fun _ => word n) s) := by
  have e : nBuffers = 10 := rfl
  have hm : n % nBuffers = n % 10 := rfl
  set s₁ := s.count fun t => { t with cacheMiss := t.cacheMiss + 1 } with hs₁
  have hk := kept_count h.evicted.inv.map fun t => { t with cacheMiss := t.cacheMiss + 1 }
  have h₁ : Loaded bank n s₁ := ⟨h.queue.kept hk, h.evicted.kept hk⟩
  by_cases hfull : nBuffers ≤ n
  · obtain ⟨h2, h3, h4, h5⟩ := h₁.emptied hfull hn
    rw [h.queue.write_eq (by omega) fun _ o => congrFun h3 o, if_pos hfull]
    have hfree : (evict bank s₁).bufferS2l (n % nBuffers) = -1 := by
      rw [h3, Function.update_self]
    refine ⟨h₁.queue.push (fun o ho => ?_) h4 fun k => ?_, ?_⟩
    · rw [h3, Function.update_of_ne ho]
    · rw [h5, h₁.queue.victims]
      omega
    · refine h2.fill (order_lt (by omega)) (by omega) ?_ hfree _
      refine Slots.find_eq_none.mpr fun o ho => ?_
      rw [h3]
      by_cases hoe : o = n % nBuffers
      · rw [hoe, Function.update_self]
        omega
      · rw [Function.update_of_ne hoe]
        exact Slots.find_eq_none.mp (h₁.queue.miss (by omega)) o ho
  · rw [h.queue.write_eq (by omega) fun hle => absurd hle hfull, if_neg hfull]
    refine ⟨h₁.queue.push (fun _ _ => rfl) rfl fun k => ?_, ?_⟩
    · rw [h₁.queue.victims]
      omega
    · have hzero : n + 1 - nBuffers = n - nBuffers := by omega
      rw [hzero]
      exact h₁.evicted.fill (order_lt (by omega)) (by omega) (h₁.queue.miss (by omega))
        (h₁.queue.unused _ (by omega) (by omega)) _

theorem Loaded.last (h : Loaded bank 523 s) :
    Lost bank 0 3 s (evict bank (s.count fun t => { t with cacheMiss := t.cacheMiss + 1 })) ∧
      writeThroughLpn bank 10 (fun _ => 0) s =
        (evict bank (s.count fun t => { t with cacheMiss := t.cacheMiss + 1 })).fillBuffer 3 10
          fun _ => 0 := by
  have hk := kept_count h.evicted.inv.map fun t => { t with cacheMiss := t.cacheMiss + 1 }
  have h₁ : Loaded bank 523 (s.count fun t => { t with cacheMiss := t.cacheMiss + 1 }) :=
    ⟨h.queue.kept hk, h.evicted.kept hk⟩
  obtain ⟨h1, -, h3⟩ := h₁.queue.oldest (by decide)
  have hfull : Full bank (s.count fun t => { t with cacheMiss := t.cacheMiss + 1 }) := by
    rcases h₁.evicted with ⟨hm, -⟩ | ⟨-, hf⟩
    · exact absurd hm (by decide)
    · exact hf
  obtain ⟨⟨e1, e2, e3⟩, hinv, hentry, hphys, hret⟩ := evict_full hfull h3 (by decide) h1
  refine ⟨⟨⟨e1, e2, e3⟩, hinv, hentry, hphys, hret⟩, ?_⟩
  have hwrite := h.queue.write_eq (by decide) (fun _ o => congrFun e1 o) fun _ => 0
  rwa [if_pos (by decide)] at hwrite

end Run

end Dftl
