import Coursework.Dftl.Refinement

/-! What holds of a bank in every run, also where a data garbage collection made no room. Either
its invariant still does, or the next data page has gone past the trigger, and then data garbage
collection is never entered again. -/
namespace Dftl
open Nand Sector Paging

section Translation
variable {bank : ℕ} {s s' s'' : Bank}

/-- A step that stays in its bank and moves neither data cursor. -/
structure Quiet (bank : ℕ) (s s' : Bank) : Prop where
  isLocal : Local s.nand s'.nand bank
  next : s'.nextDataPpn = s.nextDataPpn
  trig : s'.gcTriggerDataPpn = s.gcTriggerDataPpn

theorem Quiet.refl (bank : ℕ) (s : Bank) : Quiet bank s s := ⟨Local.refl _ _, rfl, rfl⟩

theorem Quiet.trans (h : Quiet bank s s') (h' : Quiet bank s' s'') : Quiet bank s s'' :=
  ⟨h.isLocal.trans h'.isLocal, h'.next.trans h.next, h'.trig.trans h.trig⟩

theorem quiet_require (s : Bank) (p : Prop) [Decidable p] : Quiet bank s (s.require p) :=
  ⟨Local.refl _ _, rfl, rfl⟩

theorem quiet_count (s : Bank) (f : Stats → Stats) : Quiet bank s (s.count f) :=
  ⟨Local.refl _ _, rfl, rfl⟩

theorem mapGcPage_quiet (victimBlk freeBlk : ℕ) (st : MapCopy) (pg : ℕ) :
    Quiet bank st.state (mapGcPage bank victimBlk freeBlk st pg).state := by
  unfold mapGcPage
  simp only
  split_ifs
  · exact ⟨nandWrite_isLocal _ _ _ _ _ _, rfl, rfl⟩
  · exact Quiet.refl bank st.state

theorem mapGcLoop_quiet (victimBlk freeBlk : ℕ) (s : Bank) (n : ℕ) :
    Quiet bank s (mapGcLoop bank victimBlk freeBlk s n).state := by
  induction n with
  | zero => exact Quiet.refl bank s
  | succ n ih => exact ih.trans (mapGcPage_quiet victimBlk freeBlk _ n)

theorem mapGarbageCollection_quiet (s : Bank) : Quiet bank s (mapGarbageCollection bank s) := by
  have hcollect : ∀ v f x, Quiet bank x (mapCollect bank v f x) := by
    intro v f x
    have hloop := @mapGcLoop_quiet bank v f x pagesPerBlk
    unfold mapCollect
    generalize mapGcLoop bank v f x pagesPerBlk = st at *
    exact hloop.trans ⟨nandErase_isLocal _ _ _, rfl, rfl⟩
  unfold mapGarbageCollection
  simp only
  split
  · next v f _ _ => exact ((quiet_require s _).trans (quiet_count _ _)).trans (hcollect v f _)
  · exact ((quiet_require s _).trans (quiet_count _ _)).trans (quiet_require _ _)

theorem writeBack_quiet (victimSlot : ℕ) (s : Bank) :
    Quiet bank s (writeBack bank victimSlot s) := by
  set x := (s.require (s.nextMapPpn ≤ pagesPerBlk * blksPerBank)).require
    (s.gcTriggerMapPpn ≤ pagesPerBlk * blksPerBank) with hx
  have hcheck : Quiet bank s x := (quiet_require s _).trans (quiet_require _ _)
  have hroom : Quiet bank s (if x.nextMapPpn = x.gcTriggerMapPpn then mapGarbageCollection bank x
      else x) := by
    split_ifs
    · exact hcheck.trans (mapGarbageCollection_quiet x)
    · exact hcheck
  have happend : ∀ y, Quiet bank y (appendMapPage bank victimSlot y) := fun y =>
    ⟨nandWrite_isLocal _ _ _ _ _ _, rfl, rfl⟩
  exact hroom.trans (happend _)

theorem makeFreeSlot_quiet (victimSlot : ℕ) (s : Bank) :
    Quiet bank s (makeFreeSlot bank victimSlot s) := by
  set x := s.require (s.cmtVpn victimSlot = s.cmtVpn victimSlot) with hx
  have hcheck : Quiet bank s x := quiet_require s _
  have hback : Quiet bank s (if x.cmtDirty victimSlot then writeBack bank victimSlot x else x) := by
    split_ifs
    · exact hcheck.trans (writeBack_quiet victimSlot x)
    · exact hcheck
  have hclear : ∀ y, Quiet bank y (clearSlot victimSlot y) := fun y => ⟨Local.refl _ _, rfl, rfl⟩
  exact hback.trans (hclear _)

theorem ensureFreeSlot_quiet (s : Bank) : Quiet bank s (ensureFreeSlot bank s) := by
  unfold ensureFreeSlot
  split_ifs
  · have hdraw : Quiet bank s (getLruSlot s).2 := ⟨Local.refl _ _, rfl, rfl⟩
    exact hdraw.trans (makeFreeSlot_quiet (getLruSlot s).1 _)
  · exact Quiet.refl bank s

theorem useFreeSlot_quiet (vpn freeSlot : ℕ) (s : Bank) :
    Quiet bank s (useFreeSlot bank vpn freeSlot s) := by
  have hfill : ∀ x, Quiet bank x (fillSlot bank vpn freeSlot x) := fun x => by
    unfold fillSlot
    simp only
    split_ifs
    · exact ⟨Local.refl _ _, rfl, rfl⟩
    · exact ⟨Local.refl _ _, rfl, rfl⟩
    · exact Quiet.refl bank x
  have h := hfill (s.require (s.cmtVpn freeSlot = -1))
  exact ⟨h.isLocal, h.next, h.trig⟩

theorem cacheVpn_quiet (vpn : ℕ) (s : Bank) : Quiet bank s (cacheVpn bank vpn s).2 := by
  have hlook : Quiet bank s (isVpnCached vpn s).2 := ⟨Local.refl _ _, rfl, rfl⟩
  unfold cacheVpn
  simp only
  split
  · exact hlook
  · have hroom := hlook.trans (ensureFreeSlot_quiet (isVpnCached vpn s).2)
    split
    · exact ⟨hroom.isLocal, hroom.next, hroom.trig⟩
    · next freeSlot _ =>
      have huse := hroom.trans (useFreeSlot_quiet vpn freeSlot _)
      exact ⟨huse.isLocal, huse.next, huse.trig⟩

theorem lpn2ppn_quiet (lpn : ℕ) (s : Bank) : Quiet bank s (lpn2ppn bank lpn s).2 :=
  cacheVpn_quiet (lpn2vpn lpn) s

theorem updateL2p_quiet (lpn : ℕ) (ppn : ℤ) (s : Bank) :
    Quiet bank s (updateL2p bank lpn ppn s) := by
  have hset : ∀ o x, Quiet bank x (setEntry (lpn2vpn lpn) o lpn ppn x) := fun o x => by
    unfold setEntry
    simp only
    split_ifs
    · exact ⟨Local.refl _ _, rfl, rfl⟩
    · exact ⟨Local.refl _ _, rfl, rfl⟩
  exact (cacheVpn_quiet (lpn2vpn lpn) s).trans (hset _ _)

end Translation

section Bank
variable {bank o l : ℕ} {s s' : Bank}

/-- The next data page is past the trigger. -/
def Overrun (s : Bank) : Prop := s.gcTriggerDataPpn < s.nextDataPpn

theorem Quiet.overrun (h : Quiet bank s s') (hs : Overrun s) : Overrun s' := by
  unfold Overrun
  rw [h.next, h.trig]
  exact hs

theorem appendSlot_cursors (bank o : ℕ) (s : Bank) :
    Local s.nand (appendSlot bank o s).nand bank ∧
      (appendSlot bank o s).nextDataPpn = s.nextDataPpn + 1 ∧
      (appendSlot bank o s).gcTriggerDataPpn = s.gcTriggerDataPpn := by
  have hlook := @lpn2ppn_quiet bank (s.bufferS2l o).toNat s
  unfold appendSlot
  simp only
  generalize lpn2ppn bank (s.bufferS2l o).toNat s = x at *
  obtain ⟨beforePpn, s₁⟩ := x
  have hflag : Quiet bank s₁ (if beforePpn ≠ -1 then s₁.invalidate beforePpn.toNat else s₁) := by
    split_ifs
    · exact ⟨Local.refl _ _, rfl, rfl⟩
    · exact Quiet.refl bank s₁
  have hupdate := (hlook.trans hflag).trans
    (updateL2p_quiet (s.bufferS2l o).toNat (s.nextDataPpn : ℤ) _)
  exact ⟨hupdate.isLocal.trans (nandWrite_isLocal _ _ _ _ _ _), rfl, hupdate.trig⟩

theorem appendSlot_overrun (h : s.gcTriggerDataPpn ≤ s.nextDataPpn) :
    Overrun (appendSlot bank o s) := by
  obtain ⟨-, h2, h3⟩ := appendSlot_cursors bank o s
  unfold Overrun
  omega

theorem BankInv.draw (hs : BankInv bank s) : BankInv bank (getVictimDataSlot s).2 := by
  obtain ⟨h1, h2, h3, h4, h5, h6, h7, h8⟩ := hs.map
  exact ⟨⟨h1, h2, h3, h4, h5, h6, h7, h8⟩, hs.region, hs.lpn_lt, hs.buffers⟩

theorem BankInv.evict_overrun (hs : BankInv bank s) (hc : ¬CanEvict s) :
    Overrun (evict bank s) ∧ Local s.nand (evict bank s).nand bank := by
  unfold CanEvict at hc
  push Not at hc
  obtain ⟨he, hvalid⟩ := hc
  obtain ⟨free, hr⟩ := hs.draw.region
  obtain ⟨v, hv, -, hcol⟩ := garbageCollection_collected hs.draw.map hs.draw.lpn_lt hr he
  have hnone : invalidCnt s.isValid v = 0 := Nat.le_zero.mp (hvalid v hv.lt hv.isData)
  have hroom : (garbageCollection bank (getVictimDataSlot s).2).nextDataPpn =
      (garbageCollection bank (getVictimDataSlot s).2).gcTriggerDataPpn := by
    rw [← hcol.room]
    exact (congrArg (_ + ·) hnone).symm
  unfold evict
  simp only
  rw [if_pos (show (getVictimDataSlot s).2.nextDataPpn =
    (getVictimDataSlot s).2.gcTriggerDataPpn from he)]
  exact ⟨appendSlot_overrun hroom.ge, hcol.isLocal.trans (appendSlot_cursors _ _ _).1⟩

theorem Overrun.evict (hs : Overrun s) :
    Overrun (evict bank s) ∧ Local s.nand (Dftl.evict bank s).nand bank := by
  have hs' : Overrun (getVictimDataSlot s).2 := hs
  unfold Dftl.evict
  simp only
  rw [if_neg hs'.ne']
  exact ⟨appendSlot_overrun hs'.le, (appendSlot_cursors bank _ (getVictimDataSlot s).2).1⟩

/-- What holds of a bank between two calls in every run. -/
def Steady (bank : ℕ) (s : Bank) : Prop := BankInv bank s ∨ Overrun s

/-- Past the trigger, `write_through_lpn` stays there. -/
theorem writeThroughLpn_overrun (hs : Overrun s ∨ BankInv bank s ∧ ¬PageSafe s l)
    (data : Sectors) : Overrun (writeThroughLpn bank l data s) ∧
      Local s.nand (writeThroughLpn bank l data s).nand bank := by
  unfold writeThroughLpn
  cases hb : simBufferL2s s.toRow l with
  | some slot =>
    rcases hs with hs | ⟨-, hunsafe⟩
    · exact ⟨hs, Local.refl _ _⟩
    · exact absurd (.inl (by rw [hb]; simp)) hunsafe
  | none =>
    set s₁ := s.count fun t => { t with cacheMiss := t.cacheMiss + 1 } with hs₁
    have hevict : ∃ s₂, s₂ = (if getEmptyDataSlot s₁.toRow = none then evict bank s₁ else s₁) ∧
        Overrun s₂ ∧ Local s.nand s₂.nand bank := by
      refine ⟨_, rfl, ?_⟩
      rcases hs with hs | ⟨hinv, hunsafe⟩
      · split_ifs
        · exact Overrun.evict (s := s₁) hs
        · exact ⟨hs, Local.refl _ _⟩
      · unfold PageSafe at hunsafe
        push Not at hunsafe
        rw [if_pos (show getEmptyDataSlot s₁.toRow = none from hunsafe.2.1)]
        exact (hinv.count _).evict_overrun hunsafe.2.2
    obtain ⟨s₂, hs₂, h1, h2⟩ := hevict
    simp only
    rw [← hs₂]
    cases getEmptyDataSlot s₂.toRow with
    | some slot => exact ⟨h1, h2⟩
    | none => exact ⟨h1, h2⟩

theorem Steady.writeThroughLpn (hs : Steady bank s) (hl : l < nLpnsPb) (data : Sectors) :
    Steady bank (writeThroughLpn bank l data s) ∧
      Local s.nand (Dftl.writeThroughLpn bank l data s).nand bank := by
  rcases hs with hs | hs
  · by_cases hsafe : PageSafe s l
    · obtain ⟨h1, -, h3, -⟩ := writeThroughLpn_spec hs hl hsafe data
      exact ⟨.inl h1, h3⟩
    · obtain ⟨h1, h2⟩ := writeThroughLpn_overrun (.inr ⟨hs, hsafe⟩) data
      exact ⟨.inr h1, h2⟩
  · obtain ⟨h1, h2⟩ := writeThroughLpn_overrun (l := l) (.inl hs) data
    exact ⟨.inr h1, h2⟩

theorem Steady.lpn2ppn (hs : Steady bank s) (hl : l < nLpnsPb) :
    Steady bank (lpn2ppn bank l s).2 := by
  rcases hs with hs | hs
  · exact .inl ((lpn2ppn_kept hs.map hl).1.bankInv hs)
  · exact .inr ((lpn2ppn_quiet l s).overrun hs)

theorem Steady.shared {t : Shared} (hs : Steady bank s) (h : t.nand = s.nand) :
    Steady bank { s with toShared := t } := by
  obtain ⟨n, stats, stack, dataVictims, slotVictims, trace⟩ := t
  obtain rfl : n = s.nand := h
  rcases hs with ⟨⟨h1, h2, h3, h4, h5, h6, h7, h8⟩, hr, hl, hbuf⟩ | hs
  · exact .inl ⟨⟨h1, h2, h3, h4, h5, h6, h7, h8⟩, hr, hl, hbuf⟩
  · exact .inr hs

end Bank

/-- All banks are steady. -/
def Ftl.Steady (s : Ftl) : Prop := ∀ b < nBanks, Dftl.Steady b (s.bank b)

namespace Ftl.Steady
variable {s : Ftl} {b l : ℕ} {x : Bank}

theorem put (h : s.Steady) (hx : Dftl.Steady b x) (hloc : Local s.nand x.nand b) :
    (s.put b x).Steady := by
  intro b' hb'
  by_cases he : b' = b
  · rw [he, bank_put]
    exact hx
  · have hrow : ((s.put b x).bank b').toRow = (s.bank b').toRow := Function.update_of_ne he _ _
    rcases h b' hb' with hs | hs
    · exact .inl (hs.other hrow hloc he)
    · exact .inr (by unfold Overrun; rw [hrow]; exact hs)

theorem lpn2ppn (h : s.Steady) (hb : b < nBanks) (hl : l < nLpnsPb) :
    (s.lpn2ppn b l).2.Steady :=
  h.put ((h b hb).lpn2ppn hl) (lpn2ppn_quiet l (s.bank b)).isLocal

theorem readPpn (h : s.Steady) (hb : b < nBanks) (ppn : ℤ) (data : Sectors) :
    (s.readPpn b ppn data).2.Steady :=
  h.put ((h b hb).shared rfl) (Local.refl _ _)

theorem shared (h : s.Steady) {t : Shared} (ht : t.nand = s.nand) :
    Ftl.Steady { s with toShared := t } := fun b hb => (h b hb).shared ht

theorem writeThroughLpn (h : s.Steady) (hb : b < nBanks) (hl : l < nLpnsPb) (data : Sectors) :
    (s.put b (writeThroughLpn b l data (s.bank b))).Steady :=
  have hw := (h b hb).writeThroughLpn hl data
  h.put hw.1 hw.2

end Ftl.Steady

section Requests
variable {b l off n : ℕ} {r : Request} {st : Reading} {w : Writing} {buf : ℕ → Word}

theorem Reading.miss_steady (h : st.ftl.Steady) (hb : b < nBanks) (ppn : ℤ) (off n : ℕ) :
    (st.miss b ppn off n).ftl.Steady := by
  have hcount : (st.ftl.count fun t => { t with cacheMiss := t.cacheMiss + 1 }).Steady :=
    h.shared rfl
  unfold Reading.miss
  simp only
  split_ifs
  · exact hcount
  · exact hcount.readPpn hb ppn st.data

theorem readSectors_steady (h : st.ftl.Steady) (hb : b < nBanks) (hl : l < nLpnsPb) (off n : ℕ) :
    (readSectors b l off n st).ftl.Steady := by
  have hlook := h.lpn2ppn hb hl
  unfold readSectors
  simp only
  split
  · exact hlook.shared rfl
  · exact Reading.miss_steady hlook hb _ off n

theorem readPage_steady (h : st.ftl.Steady) {pp : ℕ} (hl : r.lpn pp < nLpns) :
    (readPage r pp st).ftl.Steady := by
  have hsectors := fun off n => readSectors_steady h (bank_lt (r.lpn pp)) (halved_lt hl) off n
  unfold readPage
  simp only
  split_ifs
  · exact hsectors _ _
  · exact hsectors _ _
  · exact hsectors _ _

theorem readSingle_steady (h : st.ftl.Steady) (hl : r.lpn 0 < nLpns) :
    (readSingle r st).ftl.Steady := by
  have hlpn : r.firstPageFirstLba / 8 = r.lpn 0 := (Nat.zero_add _).symm
  unfold readSingle
  simp only [hlpn]
  split
  · exact h.shared rfl
  · exact Reading.miss_steady (h.lpn2ppn (bank_lt _) (halved_lt hl)) (bank_lt _) _ _ _

theorem Writing.load_steady (h : w.ftl.Steady) (hb : b < nBanks) (hl : l < nLpnsPb)
    (pad : Sectors) : (w.load b l pad).ftl.Steady := by
  have hlook := h.lpn2ppn hb hl
  unfold Writing.load
  simp only
  split
  · exact hlook
  · split_ifs
    · exact hlook
    · exact hlook.readPpn hb _ w.data

theorem Writing.loadMiddle_steady (h : w.ftl.Steady) (hb : b < nBanks) (hl : l < nLpnsPb) :
    (w.loadMiddle b l).ftl.Steady := by
  have hlook := h.lpn2ppn hb hl
  unfold Writing.loadMiddle
  simp only
  cases simBufferL2s ((w.ftl.lpn2ppn b l).2.row b) l with
  | some slot =>
    simp only
    split_ifs
    · exact hlook
    · exact hlook.readPpn hb _ _
  | none =>
    simp only
    split_ifs
    · exact hlook
    · exact hlook.readPpn hb _ _

theorem writePage_steady (h : w.ftl.Steady) {pp : ℕ} (hl : r.lpn pp < nLpns) :
    (writePage r buf pp w).ftl.Steady := by
  have hb := bank_lt (r.lpn pp)
  have hl' := halved_lt hl
  unfold writePage
  simp only
  split_ifs
  · exact (Writing.load_steady h hb hl' _).writeThroughLpn hb hl' _
  · exact (Writing.load_steady h hb hl' _).writeThroughLpn hb hl' _
  · exact (Writing.loadMiddle_steady h hb hl').writeThroughLpn hb hl' _

theorem writeSingle_steady (h : w.ftl.Steady) (hl : r.lpn 0 < nLpns) :
    (writeSingle r buf w).ftl.Steady := by
  have hlpn : r.firstPageFirstLba / 8 = r.lpn 0 := (Nat.zero_add _).symm
  have hb := bank_lt (r.lpn 0)
  have hl' := halved_lt hl
  unfold writeSingle
  simp only [hlpn]
  exact (Writing.load_steady h hb hl' _).writeThroughLpn hb hl' _

end Requests

section Runs
variable {s : Ftl} {lba nsect : ℕ}

theorem ftlRead_steady (h : s.Steady) (hin : InRange lba nsect) (buf : ℕ → Word) :
    (ftlRead s lba nsect buf).1.Steady := by
  let r : Request := ⟨lba, nsect⟩
  have hl : ∀ pp < r.sendKazu, r.lpn pp < nLpns := fun pp hpp => Request.lpn_lt hin.1 hpp hin.2
  have hreq : (s.require (nsect > 0)).Steady := h.shared rfl
  let st : Reading := ⟨s.require (nsect > 0), buf, 0, (s.require (nsect > 0)).stack.data⟩
  change (if r.sendKazu = 1 then readSingle r st else readLoop r st r.sendKazu).ftl.Steady
  split_ifs
  · exact readSingle_steady hreq (hl 0 Request.sendKazu_pos)
  · have hloop : ∀ pp ≤ r.sendKazu, (readLoop r st pp).ftl.Steady := by
      intro pp
      induction pp with
      | zero => exact fun _ => hreq
      | succ pp ih => exact fun hpp => readPage_steady (ih (by omega)) (hl pp hpp)
    exact hloop _ le_rfl

theorem ftlWrite_steady (h : s.Steady) (hin : InRange lba nsect) (buf : ℕ → Word) :
    (ftlWrite s lba nsect buf).Steady := by
  let r : Request := ⟨lba, nsect⟩
  have hl : ∀ pp < r.sendKazu, r.lpn pp < nLpns := fun pp hpp => Request.lpn_lt hin.1 hpp hin.2
  let w : Writing := ⟨s, 0, s.stack.data⟩
  have hall : (if r.sendKazu = 1 then writeSingle r buf w
      else writeLoop r buf w r.sendKazu).ftl.Steady := by
    split_ifs
    · exact writeSingle_steady (w := w) h (hl 0 Request.sendKazu_pos)
    · have hloop : ∀ pp ≤ r.sendKazu, (writeLoop r buf w pp).ftl.Steady := by
        intro pp
        induction pp with
        | zero => exact fun _ => h
        | succ pp ih => exact fun hpp => writePage_steady (ih (by omega)) (hl pp hpp)
      exact hloop _ le_rfl
  exact hall.shared rfl

theorem step_steady (h : s.Steady) {op : Op} (hop : op.InRange) : (step s op).Steady := by
  cases op with
  | read lba nsect buf stack =>
    have hstack : Ftl.Steady { s with stack := stack } := h.shared rfl
    exact ftlRead_steady hstack hop buf
  | write lba nsect buf stack =>
    have hstack : Ftl.Steady { s with stack := stack } := h.shared rfl
    exact ftlWrite_steady hstack hop buf

theorem run_steady (mem : ℕ → Page Sectors ℤ) (stack : Page Sectors ℤ)
    (dataVictims slotVictims : ℕ → ℕ) {ops : List Op} (hops : ∀ op ∈ ops, op.InRange) :
    (Machine.run step (ftlOpen mem stack dataVictims slotVictims) ops).Steady := by
  have hstart : (ftlOpen mem stack dataVictims slotVictims).Steady := fun b hb =>
    .inl (bankInv_ftlOpen mem stack dataVictims slotVictims hb)
  exact Machine.invariant (I := Ftl.Steady) (P := fun _ op => op.InRange)
    (fun _ _ h hop => step_steady h hop) ops _ hstart
    (Machine.along_of_forall (fun op hop _ => hops op hop) _)

end Runs

end Dftl
