import Coursework.Dftl.Collection

/-! `write_through_lpn` replaces one logical page of a bank, provided that an eviction it needs
finds or makes a free data page. -/
namespace Dftl
open Nand Sector Paging

variable {bank o l : ℕ} {s s' : Bank}

/-- The invariant of one bank between two calls. -/
structure BankInv (bank : ℕ) (s : Bank) : Prop where
  map : MapInv bank s
  region : ∃ free, Region 0 nPhyDataBlk .data s.nextDataPpn s.gcTriggerDataPpn s.blockStatus
    (dataLog bank s) free
  lpn_lt : ∀ l, table bank s l ≠ -1 → l < nLpnsPb
  buffers : Slots.Distinct nBuffers nLpnsPb s.bufferS2l

/-- What a logical page holds: its buffer slot, else its page in NAND, else blanks. -/
def content (bank : ℕ) (s : Bank) (l : ℕ) : Sectors :=
  match simBufferL2s s.toRow l with
  | some slot => s.bufferData slot
  | none => ((dataLog bank s).value l).getD fun _ => blank

theorem content_buffered (h : simBufferL2s s.toRow l = some o) :
    content bank s l = s.bufferData o := by
  simp only [content, h]

theorem content_unbuffered (h : simBufferL2s s.toRow l = none) :
    content bank s l = ((dataLog bank s).value l).getD fun _ => blank := by
  simp only [content, h]

section Append

/-- The state in which `appendSlot` programs the data page: the entry of the page has been
redirected, and its old page flagged invalid. -/
structure Prepared (bank o l : ℕ) (s s' : Bank) : Prop where
  inv : MapInv bank s'
  table : table bank s' = Function.update (table bank s) l (s.nextDataPpn : ℤ)
  isLocal : Local s.nand s'.nand bank
  phys : ∀ p, InRegion 0 nPhyDataBlk p → s'.nand.phys bank p = s.nand.phys bank p
  isValid : ∀ p, InRegion 0 nPhyDataBlk p →
    s'.isValid p = (s.discard (Dftl.table bank s l)).isValid p
  status : ∀ b < nPhyDataBlk, s'.blockStatus b = s.blockStatus b
  dataSide : s'.dataSide = s.dataSide
  clean : s.trace.Clean → s'.trace.Clean
  eq : ∃ f, appendSlot bank o s =
    ((((s'.write bank ((s.nextDataPpn : ℤ) / pagesPerBlk) ((s.nextDataPpn : ℤ) % pagesPerBlk)
      (s.bufferData o) l).count f).place 1 .data (s.nextDataPpn / pagesPerBlk)).setDataPpns
        (s.nextDataPpn + 1) s.gcTriggerDataPpn).emptySlot o

theorem appendSlot_prepared {free : ℕ} (hs : MapInv bank s)
    (hr : Region 0 nPhyDataBlk .data s.nextDataPpn s.gcTriggerDataPpn s.blockStatus
      (dataLog bank s) free) (hl : l < nLpnsPb) (hs2l : s.bufferS2l o = l) :
    ∃ s', Prepared bank o l s s' := by
  obtain ⟨hk, hval⟩ := lpn2ppn_kept hs hl
  have hge := hs.table_ge l
  have hin : ∀ p : ℕ, table bank s l = p → InRegion 0 nPhyDataBlk p := fun p hp =>
    (hr.entry_written hp).1
  have hbefore : (if (lpn2ppn bank l s).1 ≠ -1 then
      (lpn2ppn bank l s).2.invalidate (lpn2ppn bank l s).1.toNat else (lpn2ppn bank l s).2) =
      (lpn2ppn bank l s).2.discard (table bank s l) := by
    rw [hval]
    unfold Bank.discard Bank.invalidate
    by_cases h : table bank s l = -1
    · simp [h]
    · rw [if_pos h, if_pos (by omega)]
  have heq : appendSlot bank o s = ((((((updateL2p bank l (s.nextDataPpn : ℤ)
      ((lpn2ppn bank l s).2.discard (table bank s l))).write bank
      ((s.nextDataPpn : ℤ) / pagesPerBlk) ((s.nextDataPpn : ℤ) % pagesPerBlk) (s.bufferData o)
        l).count fun t => { t with nandWrite := t.nandWrite + 1 }).place 1 .data
        (s.nextDataPpn / pagesPerBlk)).setDataPpns (s.nextDataPpn + 1)
        (updateL2p bank l (s.nextDataPpn : ℤ)
          ((lpn2ppn bank l s).2.discard (table bank s l))).gcTriggerDataPpn)).emptySlot o := by
    rw [← hbefore]
    simp only [appendSlot, hs2l, Int.toNat_natCast]
    rfl
  generalize lpn2ppn bank l s = x at *
  obtain ⟨ppn, s₁⟩ := x
  simp only at hk hval hbefore heq
  -- flagging the old page
  have hdiscard : DataStep bank s₁ (s₁.discard (table bank s l)) := by
    refine ⟨Local.refl _ _, fun _ _ => rfl, fun p hp => ?_, fun _ _ _ => rfl, id, rfl⟩
    simp only [Bank.discard]
    split_ifs with hpos
    · rw [Function.update_of_ne]
      have h1 := (hin (table bank s l).toNat (by omega)).2
      have h2 := hp.1
      omega
    · rfl
  obtain ⟨h1, h2, h3⟩ := updateL2p_spec (hdiscard.mapInv hk.inv) hl
    (Int.natCast_nonneg s.nextDataPpn)
  rw [hdiscard.table, hk.table] at h2
  have hside : (updateL2p bank l (s.nextDataPpn : ℤ) (s₁.discard (table bank s l))).dataSide =
      s.dataSide := h3.dataSide.trans hk.step.dataSide
  refine ⟨_, h1, h2, hk.step.isLocal.trans h3.isLocal, fun p hp => ?_, fun p hp => ?_,
    fun b hb => (h3.status b hb).trans (hk.step.status b hb), hside,
    fun hc => h3.clean (hk.step.clean hc), fun t => { t with nandWrite := t.nandWrite + 1 }, ?_⟩
  · exact (h3.phys p hp).trans (hk.step.phys p hp)
  · rw [h3.isValid p hp]
    simp only [Bank.discard]
    by_cases hpos : 0 ≤ table bank s l
    · rw [if_pos hpos, if_pos hpos]
      by_cases hpe : p = (table bank s l).toNat
      · rw [hpe, Function.update_self, Function.update_self]
      · rw [Function.update_of_ne hpe, Function.update_of_ne hpe]
        exact hk.step.isValid p hp
    · rw [if_neg hpos, if_neg hpos]
      exact hk.step.isValid p hp
  · have htrig : (updateL2p bank l (s.nextDataPpn : ℤ)
        (s₁.discard (table bank s l))).gcTriggerDataPpn = s.gcTriggerDataPpn :=
      congrArg DataSide.gcTriggerDataPpn hside
    rw [heq, htrig]

/-- What a successful eviction of a buffer slot does to a bank. -/
structure Appended (bank o l free : ℕ) (s s' : Bank) : Prop where
  inv : MapInv bank s'
  log : dataLog bank s' = ((dataLog bank s).discard l).program l (s.bufferData o) s.nextDataPpn
  table : table bank s' = Function.update (table bank s) l (s.nextDataPpn : ℤ)
  region : Region 0 nPhyDataBlk .data s'.nextDataPpn s'.gcTriggerDataPpn s'.blockStatus
    (dataLog bank s') free
  next : s'.nextDataPpn = s.nextDataPpn + 1
  trig : s'.gcTriggerDataPpn = s.gcTriggerDataPpn
  isLocal : Local s.nand s'.nand bank
  bufferS2l : s'.bufferS2l = Function.update s.bufferS2l o (-1)
  bufferData : s'.bufferData = s.bufferData
  dataVictims : s'.dataVictims = s.dataVictims
  gcReturns : s'.trace.gcReturns = s.trace.gcReturns
  clean : s.trace.Clean → s'.trace.Clean

theorem appendSlot_appended {free : ℕ} (hs : MapInv bank s)
    (hr : Region 0 nPhyDataBlk .data s.nextDataPpn s.gcTriggerDataPpn s.blockStatus
      (dataLog bank s) free) (hlt : s.nextDataPpn < s.gcTriggerDataPpn) (hl : l < nLpnsPb)
    (hs2l : s.bufferS2l o = l) : Appended bank o l free s (appendSlot bank o s) := by
  obtain ⟨s₁, h⟩ := appendSlot_prepared (o := o) hs hr hl hs2l
  obtain ⟨f, heq⟩ := h.eq
  have hnext := hr.next_inRegion hlt
  -- the data blocks are as before, so the next page can be programmed
  have hlog₁ : regionLog 0 nPhyDataBlk (s₁.nand.phys bank) (table bank s) s.isValid =
      dataLog bank s := regionLog_congr h.phys fun _ _ => rfl
  have hr₁ : Region 0 nPhyDataBlk .data s.nextDataPpn s.gcTriggerDataPpn s.blockStatus
      (regionLog 0 nPhyDataBlk (s₁.nand.phys bank) (table bank s) s.isValid) free := by
    rwa [hlog₁]
  obtain ⟨n', hwr, hloc, hphys⟩ := hr₁.write_next h.inv.fits (by decide) hlt (s.bufferData o) l
  rw [Bank.write_eq hwr] at heq
  rw [heq]
  set s₂ := (s₁.stored n').count f with hs₂
  set s' := ((s₂.place 1 .data (s.nextDataPpn / pagesPerBlk)).setDataPpns
    (s.nextDataPpn + 1) s.gcTriggerDataPpn).emptySlot o with hs'
  have hstep : DataStep bank s₁ s' := by
    obtain ⟨h1, h2, h3, h4, h5, h6⟩ := dataStep_stored (s := s₁) hnext hloc hphys
    exact ⟨h1, h2, h3, h4, h5, h6⟩
  have hlog : dataLog bank s' =
      ((dataLog bank s).discard l).program l (s.bufferData o) s.nextDataPpn := by
    have h1 := @regionLog_discard _ _ (s.nand.phys bank) _ s.isValid _
      (hs.table_ge l) fun p hp => (hr.entry_written hp).1
    have h2 := @regionLog_program _ _ (s.nand.phys bank) (table bank s)
      (s.discard (table bank s l)).isValid _ hnext _ (Int.natCast_nonneg l)
      (s.bufferData o)
    rw [Int.toNat_natCast] at h2
    calc dataLog bank s' = regionLog 0 nPhyDataBlk (n'.phys bank)
          (Function.update (table bank s) l (s.nextDataPpn : ℤ)) s₁.isValid := by
          rw [dataLog, hstep.table, h.table]
          rfl
      _ = regionLog 0 nPhyDataBlk (Function.update (s.nand.phys bank) s.nextDataPpn
            (some ⟨s.bufferData o, l⟩)) (Function.update (table bank s) l (s.nextDataPpn : ℤ))
            (s.discard (table bank s l)).isValid := by
          refine regionLog_congr (fun p hp => ?_) h.isValid
          rw [hphys]
          by_cases hpn : p = s.nextDataPpn
          · rw [hpn, Function.update_self, Function.update_self]
          · rw [Function.update_of_ne hpn, Function.update_of_ne hpn]
            exact h.phys p hp
      _ = _ := by
          rw [← h2, dataLog, h1]
          rfl
  have hstatus : ∀ b < nPhyDataBlk, s'.blockStatus b = s.blockStatus b := h.status
  have hkind := hr.next_kind hlt
  refine ⟨hstep.mapInv h.inv, hlog, hstep.table.trans h.table, ?_, rfl, rfl,
    h.isLocal.trans hloc, ?_, congrArg DataSide.bufferData h.dataSide,
    congrArg DataSide.dataVictims h.dataSide, congrArg DataSide.gcReturns h.dataSide, fun hc => ?_⟩
  · refine ⟨?_, ?_, fun b h1 h2 h3 => ?_⟩
    · rw [hlog]
      exact hr.space.append hlt l (s.bufferData o)
    · rw [hstatus free hr.space.free_lt, hr.free_empty]
    · rw [hstatus b h2, hr.others b h1 h2 h3]
  · exact congrArg (fun f => Function.update f o (-1)) (congrArg DataSide.bufferS2l h.dataSide)
  · refine Trace.Clean.place (s := s₂) ?_ ?_
    · exact Trace.Clean.returned (s := s₁) (h.clean hc)
    · have := (inRegion_iff.mp hnext).2
      exact (h.status _ this).trans hkind

end Append

section Evict

/-- The next data page is free, or data GC finds an invalid page and so makes room. -/
def CanEvict (s : Bank) : Prop :=
  s.nextDataPpn ≠ s.gcTriggerDataPpn ∨
    ∃ b < blksPerBank, s.blockStatus b = .data ∧ 0 < invalidCnt s.isValid b

/-- Writing the page needs no eviction, or the eviction gets a free data page. -/
def PageSafe (s : Bank) (lpn : ℕ) : Prop :=
  simBufferL2s s.toRow lpn ≠ none ∨ getEmptyDataSlot s.toRow ≠ none ∨ CanEvict s

/-- Making room for a data page keeps the contents. -/
theorem makeRoom (hs : BankInv bank s) (hc : CanEvict s) :
    let s' := if s.nextDataPpn = s.gcTriggerDataPpn then garbageCollection bank s else s
    BankInv bank s' ∧ s'.nextDataPpn < s'.gcTriggerDataPpn ∧
      (dataLog bank s').value = (dataLog bank s).value ∧ Local s.nand s'.nand bank ∧
      s'.bufferS2l = s.bufferS2l ∧ s'.bufferData = s.bufferData ∧
      (s.trace.Clean → s'.trace.Clean) := by
  obtain ⟨free, hr⟩ := hs.region
  intro s'
  by_cases he : s.nextDataPpn = s.gcTriggerDataPpn
  · have hs' : s' = garbageCollection bank s := if_pos he
    obtain ⟨v, hg, -, hcol⟩ := garbageCollection_collected hs.map hs.lpn_lt hr he
    have hpos : 0 < invalidCnt s.isValid v := by
      rcases hc with hc | ⟨b, hb, hd, hinv⟩
      · exact absurd he hc
      · exact hinv.trans_le (hg.max b (Nat.zero_le b) hb hd)
    have hlt : s'.nextDataPpn < s'.gcTriggerDataPpn := by
      have := hcol.room
      rw [hs']
      omega
    rw [hs'] at hlt ⊢
    exact ⟨⟨hcol.inv, ⟨v, hcol.region⟩, hcol.lpn_lt, by rw [hcol.bufferS2l]; exact hs.buffers⟩,
      hlt, hcol.value, hcol.isLocal, hcol.bufferS2l, hcol.bufferData, hcol.clean hlt⟩
  · have hs' : s' = s := if_neg he
    rw [hs']
    exact ⟨hs, lt_of_le_of_ne hr.space.next_le he, rfl, Local.refl _ _, rfl, rfl, id⟩

theorem Appended.bankInv {free : ℕ} (hs : BankInv bank s) (hl : l < nLpnsPb)
    (h : Appended bank o l free s s') : BankInv bank s' := by
  refine ⟨h.inv, ⟨free, h.region⟩, fun l' hl' => ?_, by rw [h.bufferS2l]; exact hs.buffers.clear o⟩
  rw [h.table] at hl'
  by_cases hll : l' = l
  · rwa [hll]
  · rw [Function.update_of_ne hll] at hl'
    exact hs.lpn_lt l' hl'

/-- Evicting a slot keeps the contents of all pages. -/
theorem Appended.content {free : ℕ} (hs : BankInv bank s) (ho : o < nBuffers)
    (hs2l : s.bufferS2l o = l) (hr : Region 0 nPhyDataBlk .data s.nextDataPpn s.gcTriggerDataPpn
      s.blockStatus (dataLog bank s) free) (hlt : s.nextDataPpn < s.gcTriggerDataPpn)
    (h : Appended bank o l free s s') : content bank s' = content bank s := by
  funext l'
  have hvalue : (dataLog bank s').value l' =
      Function.update (dataLog bank s).value l (some (s.bufferData o)) l' := by
    rw [h.log, hr.space.value_append hlt]
  by_cases hll : l' = l
  · subst hll
    have hbuf : simBufferL2s s.toRow l' = some o := hs.buffers.find_eq ho hs2l (by omega)
    have hgone : simBufferL2s s'.toRow l' = none := by
      rw [simBufferL2s, h.bufferS2l]
      exact hs.buffers.find_clear ho hs2l (by omega)
    rw [content_buffered hbuf, content_unbuffered hgone, hvalue, Function.update_self]
    rfl
  · have hsame : simBufferL2s s'.toRow l' = simBufferL2s s.toRow l' := by
      rw [simBufferL2s, h.bufferS2l]
      exact Slots.find_update (by omega) (by omega)
    cases hb : simBufferL2s s.toRow l' with
    | some slot => rw [content_buffered hb, content_buffered (hsame.trans hb), h.bufferData]
    | none =>
      rw [content_unbuffered hb, content_unbuffered (hsame.trans hb), hvalue,
        Function.update_of_ne (by omega)]

/-- An eviction that gets a free data page keeps the contents and empties a slot. -/
theorem evict_spec (hs : BankInv bank s) (hfull : getEmptyDataSlot s.toRow = none)
    (hc : CanEvict s) : BankInv bank (evict bank s) ∧
      content bank (evict bank s) = content bank s ∧
      (∃ o < nBuffers, (evict bank s).bufferS2l = Function.update s.bufferS2l o (-1)) ∧
      Local s.nand (evict bank s).nand bank ∧ (s.trace.Clean → (evict bank s).trace.Clean) := by
  have ho : (getVictimDataSlot s).1 < nBuffers := Nat.mod_lt _ (by decide)
  obtain ⟨l, hl, hs2l⟩ := hs.buffers.in_use ho (Slots.find_eq_none.mp hfull _ ho)
  have hdraw : BankInv bank (getVictimDataSlot s).2 := by
    obtain ⟨h1, h2, h3, h4, h5, h6, h7, h8⟩ := hs.map
    exact ⟨⟨h1, h2, h3, h4, h5, h6, h7, h8⟩, hs.region, hs.lpn_lt, hs.buffers⟩
  obtain ⟨h1, h2, h3, h4, h5, h6, h7⟩ := makeRoom hdraw hc
  unfold evict
  simp only
  generalize (if (getVictimDataSlot s).2.nextDataPpn = (getVictimDataSlot s).2.gcTriggerDataPpn then
    garbageCollection bank (getVictimDataSlot s).2 else (getVictimDataSlot s).2) = s₁ at *
  have hs2l₁ : s₁.bufferS2l (getVictimDataSlot s).1 = l := by
    rw [h5]
    exact hs2l
  obtain ⟨free, hr⟩ := h1.region
  have happ := appendSlot_appended h1.map hr h2 hl hs2l₁
  refine ⟨happ.bankInv h1 hl, ?_, ⟨_, ho, ?_⟩, h4.trans happ.isLocal, fun hc => happ.clean (h7 hc)⟩
  · rw [happ.content h1 ho hs2l₁ hr h2]
    funext l'
    have hsame : simBufferL2s s₁.toRow l' = simBufferL2s s.toRow l' := by
      rw [simBufferL2s, h5]
      rfl
    cases hb : simBufferL2s s.toRow l' with
    | some slot =>
      rw [content_buffered hb, content_buffered (hsame.trans hb), h6]
      rfl
    | none =>
      rw [content_unbuffered hb, content_unbuffered (hsame.trans hb), h3]
      rfl
  · rw [happ.bufferS2l, h5]
    rfl

end Evict

section Write

/-- Putting a page into a slot that is free or already its own. -/
theorem fillBuffer_spec (hs : BankInv bank s) (hl : l < nLpnsPb) (ho : o < nBuffers)
    (hown : simBufferL2s s.toRow l = some o ∨
      simBufferL2s s.toRow l = none ∧ s.bufferS2l o = -1) (data : Sectors) :
    BankInv bank (s.fillBuffer o l data) ∧
      content bank (s.fillBuffer o l data) = Function.update (content bank s) l data := by
  have hdistinct : Slots.Distinct nBuffers nLpnsPb (s.fillBuffer o l data).bufferS2l := by
    rcases hown with h | ⟨h, -⟩
    · have hself : Function.update s.bufferS2l o (l : ℤ) = s.bufferS2l := by
        rw [← (Slots.find_some h).2, Function.update_eq_self]
      change Slots.Distinct _ _ (Function.update s.bufferS2l o (l : ℤ))
      rw [hself]
      exact hs.buffers
    · exact hs.buffers.use hl h o
  have hold : ∀ l' : ℕ, l' ≠ l → s.bufferS2l o ≠ l' := by
    intro l' hne
    rcases hown with h | ⟨-, h⟩
    · have := (Slots.find_some h).2
      omega
    · omega
  obtain ⟨h1, h2, h3, h4, h5, h6, h7, h8⟩ := hs.map
  refine ⟨⟨⟨h1, h2, h3, h4, h5, h6.congr rfl rfl, h7, h8⟩, hs.region, hs.lpn_lt, hdistinct⟩, ?_⟩
  funext l'
  by_cases hll : l' = l
  · subst hll
    have hslot : simBufferL2s (s.fillBuffer o l' data).toRow l' = some o :=
      hdistinct.find_eq ho (Function.update_self _ _ _) (by omega)
    rw [content_buffered hslot, Function.update_self]
    exact Function.update_self _ _ _
  · rw [Function.update_of_ne hll]
    have hsame : simBufferL2s (s.fillBuffer o l data).toRow l' = simBufferL2s s.toRow l' :=
      Slots.find_update (hold l' hll) (by omega)
    cases hb : simBufferL2s s.toRow l' with
    | some slot =>
      rw [content_buffered hb, content_buffered (hsame.trans hb)]
      refine Function.update_of_ne ?_ _ _
      rintro rfl
      exact hold l' hll (Slots.find_some hb).2
    | none =>
      rw [content_unbuffered hb, content_unbuffered (hsame.trans hb)]
      rfl

theorem BankInv.count (hs : BankInv bank s) (f : Stats → Stats) : BankInv bank (s.count f) :=
  ⟨(kept_count hs.map f).inv, hs.region, hs.lpn_lt, hs.buffers⟩

/-- `write_through_lpn` replaces the page. -/
theorem writeThroughLpn_spec (hs : BankInv bank s) (hl : l < nLpnsPb) (hsafe : PageSafe s l)
    (data : Sectors) : BankInv bank (writeThroughLpn bank l data s) ∧
      content bank (writeThroughLpn bank l data s) = Function.update (content bank s) l data ∧
      Local s.nand (writeThroughLpn bank l data s).nand bank ∧
      (s.trace.Clean → (writeThroughLpn bank l data s).trace.Clean) := by
  unfold writeThroughLpn
  cases hb : simBufferL2s s.toRow l with
  | some o =>
    obtain ⟨h1, h2⟩ := fillBuffer_spec (hs.count fun t => { t with cacheHit := t.cacheHit + 1 }) hl
      (Slots.find_some hb).1 (.inl hb) data
    exact ⟨h1, h2, Local.refl _ _, id⟩
  | none =>
    set s₁ := s.count fun t => { t with cacheMiss := t.cacheMiss + 1 } with hs₁
    have hinv₁ : BankInv bank s₁ := hs.count _
    obtain ⟨s₂, hs₂, h1, h2, h3, h4, h5, o, ho, hfree⟩ : ∃ s₂,
        s₂ = (if getEmptyDataSlot s₁.toRow = none then evict bank s₁ else s₁) ∧
        BankInv bank s₂ ∧ content bank s₂ = content bank s ∧ simBufferL2s s₂.toRow l = none ∧
        Local s.nand s₂.nand bank ∧ (s.trace.Clean → s₂.trace.Clean) ∧
        ∃ o < nBuffers, s₂.bufferS2l o = -1 := by
      refine ⟨_, rfl, ?_⟩
      split_ifs with hfull
      · have hc : CanEvict s₁ := by
          rcases hsafe with h | h | h
          · exact absurd hb h
          · exact absurd hfull h
          · exact h
        obtain ⟨h1, h2, ⟨o, ho, h3⟩, h4, h5⟩ := evict_spec hinv₁ hfull hc
        refine ⟨h1, h2, ?_, h4, h5, o, ho, by rw [h3, Function.update_self]⟩
        refine Slots.find_eq_none.mpr fun o' ho' => ?_
        rw [h3]
        by_cases he : o' = o
        · rw [he, Function.update_self]
          omega
        · rw [Function.update_of_ne he]
          exact Slots.find_eq_none.mp hb o' ho'
      · obtain ⟨o, ho⟩ := Option.ne_none_iff_exists'.mp hfull
        exact ⟨hinv₁, rfl, hb, Local.refl _ _, id, o, (Slots.find_some ho).1,
          (Slots.find_some ho).2⟩
    simp only
    rw [← hs₂]
    cases he : getEmptyDataSlot s₂.toRow with
    | none => exact absurd hfree (Slots.find_eq_none.mp he o ho)
    | some dst =>
      obtain ⟨hd, hdfree⟩ := Slots.find_some he
      obtain ⟨h6, h7⟩ := fillBuffer_spec h1 hl hd (.inr ⟨h3, hdfree⟩) data
      exact ⟨h6, by rw [h7, h2], h4, h5⟩

end Write

end Dftl
