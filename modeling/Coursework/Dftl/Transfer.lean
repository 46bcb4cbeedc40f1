import Coursework.Dftl.Eviction

/-! `ftl_read` and `ftl_write` of the demand-paged FTL against a flat array of sectors. -/
namespace Dftl
open Nand Sector Paging

section Banks
variable {bank b : ℕ} {s s' : Bank}

theorem Kept.region {free : ℕ} (h : Kept bank s s')
    (hr : Region 0 nPhyDataBlk .data s.nextDataPpn s.gcTriggerDataPpn s.blockStatus
      (Dftl.dataLog bank s) free) :
    Region 0 nPhyDataBlk .data s'.nextDataPpn s'.gcTriggerDataPpn s'.blockStatus
      (Dftl.dataLog bank s') free := by
  refine ⟨?_, ?_, fun b h1 h2 h3 => ?_⟩
  · rw [h.dataLog, h.step.nextDataPpn, h.step.gcTriggerDataPpn]
    exact hr.space
  · rw [h.step.status free hr.space.free_lt, hr.free_empty]
  · rw [h.step.status b h2, hr.others b h1 h2 h3]

theorem Kept.bankInv (h : Kept bank s s') (hs : BankInv bank s) : BankInv bank s' := by
  obtain ⟨free, hr⟩ := hs.region
  exact ⟨h.inv, ⟨free, h.region hr⟩, by rw [h.table]; exact hs.lpn_lt,
    by rw [h.step.bufferS2l]; exact hs.buffers⟩

theorem Kept.content (h : Kept bank s s') : content bank s' = content bank s := by
  funext l
  rw [Dftl.content, Dftl.content, simBufferL2s, simBufferL2s, h.step.bufferS2l, h.step.bufferData,
    h.dataLog]

theorem Kept.pageSafe (h : Kept bank s s') (hs : BankInv bank s) {l : ℕ} (hsafe : PageSafe s l) :
    PageSafe s' l := by
  unfold PageSafe simBufferL2s getEmptyDataSlot at *
  rw [h.step.bufferS2l]
  refine hsafe.imp id (Or.imp id fun hc => ?_)
  rcases hc with hc | ⟨blk, hb, hd, hinv⟩
  · exact .inl (by rwa [h.step.nextDataPpn, h.step.gcTriggerDataPpn])
  · have hlt := hs.map.data_lt hb hd
    refine .inr ⟨blk, hb, (h.step.status blk hlt).trans hd, ?_⟩
    obtain ⟨i, hi, hv⟩ := clearCount_pos.mp hinv
    exact clearCount_pos.mpr ⟨i, hi,
      (h.step.isValid _ (inRegion_page (Nat.zero_le blk) hlt hi)).trans hv⟩

theorem dataLog_other (hrow : s'.toRow = s.toRow) (hphys : s'.nand.phys bank = s.nand.phys bank) :
    dataLog bank s' = dataLog bank s := by
  rw [dataLog, dataLog, table_other hrow hphys, hphys, hrow]

theorem BankInv.other (h : BankInv bank s) (hrow : s'.toRow = s.toRow)
    (hl : Local s.nand s'.nand b) (hb : bank ≠ b) : BankInv bank s' := by
  have hphys := hl.phys bank hb
  refine ⟨h.map.other hrow hl hb, ?_, ?_, ?_⟩
  · rw [dataLog_other hrow hphys, hrow]
    exact h.region
  · rw [table_other hrow hphys]
    exact h.lpn_lt
  · rw [hrow]
    exact h.buffers

theorem content_other (hrow : s'.toRow = s.toRow) (hphys : s'.nand.phys bank = s.nand.phys bank) :
    content bank s' = content bank s := by
  funext l
  rw [content, content, dataLog_other hrow hphys, hrow]

theorem BankInv.read_entry (hs : BankInv bank s) {l : ℕ} (hne : table bank s l ≠ -1) :
    ∃ d, (dataLog bank s).value l = some d ∧
      ∀ data spare, nandRead s.nand bank (table bank s l / pagesPerBlk)
        (table bank s l % pagesPerBlk) data spare = (.success, ⟨d, l⟩) := by
  obtain ⟨free, hr⟩ := hs.region
  obtain ⟨p, hp⟩ : ∃ p : ℕ, table bank s l = p := by
    have := hs.map.table_ge l
    exact ⟨(table bank s l).toNat, by omega⟩
  obtain ⟨hin, d, hc⟩ := hr.entry_written hp
  have hloc : (dataLog bank s).loc l = some p := by
    rw [dataLog, loc_natCast, hp, entry_natCast]
  refine ⟨d, PageLog.value_eq_of_cell hloc hc, fun data spare => ?_⟩
  rw [hp]
  exact hs.map.fits.read ((cell_eq_some hin).mp hc) data spare

/-- A page outside the buffer is blank if its entry is empty, and else the entry says where in
NAND it is. -/
theorem BankInv.read (hs : BankInv bank s) {l : ℕ} (hnone : simBufferL2s s.toRow l = none) :
    (table bank s l = -1 → content bank s l = fun _ => blank) ∧
      (table bank s l ≠ -1 → ∀ data spare, nandRead s.nand bank (table bank s l / pagesPerBlk)
        (table bank s l % pagesPerBlk) data spare = (.success, ⟨content bank s l, l⟩)) := by
  refine ⟨fun he => ?_, fun hne => ?_⟩
  · have hloc : (dataLog bank s).loc l = none := by
      rw [dataLog, loc_natCast, he, entry_neg_one]
    rw [content_unbuffered hnone, PageLog.value, hloc]
    rfl
  · obtain ⟨d, hd, hrd⟩ := hs.read_entry hne
    rw [content_unbuffered hnone, hd]
    exact hrd

end Banks

/-- The device stands for the flat array `flat`. -/
structure Refines (s : Ftl) (flat : ℕ → Word) : Prop where
  inv : ∀ b < nBanks, BankInv b (s.bank b)
  page_eq : ∀ lpn < nLpns, content (lpn % nBanks) (s.bank (lpn % nBanks)) (lpn / nBanks) =
    page flat lpn
  clean : s.trace.Clean

theorem bank_put (s : Ftl) (b : ℕ) (x : Bank) : (s.put b x).bank b = x := by
  simp only [Ftl.put, Ftl.bank, Function.update_self]

theorem bank_lt (lpn : ℕ) : lpn % nBanks < nBanks := Nat.mod_lt _ (by decide)

theorem halved_lt {lpn : ℕ} (h : lpn < nLpns) : lpn / nBanks < nLpnsPb :=
  Nat.div_lt_of_lt_mul (by rwa [Nat.mul_comm])

namespace Refines
variable {s : Ftl} {flat : ℕ → Word} {b : ℕ} {x : Bank}

theorem put_bank (h : Refines s flat) (hinv : BankInv b x)
    (hloc : Local s.nand x.nand b) : ∀ b' < nBanks, BankInv b' ((s.put b x).bank b') ∧
      content b' ((s.put b x).bank b') =
        if b' = b then content b x else content b' (s.bank b') := by
  intro b' hb'
  by_cases he : b' = b
  · rw [he, bank_put, if_pos rfl]
    exact ⟨hinv, rfl⟩
  · have hrow : ((s.put b x).bank b').toRow = (s.bank b').toRow := Function.update_of_ne he _ _
    rw [if_neg he]
    exact ⟨(h.inv b' hb').other hrow hloc he, content_other hrow (hloc.phys b' he)⟩

theorem put_same (h : Refines s flat) (hinv : BankInv b x)
    (hcontent : content b x = content b (s.bank b)) (hloc : Local s.nand x.nand b)
    (hclean : s.trace.Clean → x.trace.Clean) : Refines (s.put b x) flat := by
  have hput := h.put_bank hinv hloc
  refine ⟨fun b' hb' => (hput b' hb').1, fun lpn hl => ?_, hclean h.clean⟩
  rw [(hput _ (bank_lt lpn)).2, ← h.page_eq lpn hl]
  split_ifs with he
  · rw [hcontent, he]
  · rfl

/-- Replacing one logical page. -/
theorem put_page (h : Refines s flat) {lpn : ℕ} {data : Sectors}
    (hinv : BankInv (lpn % nBanks) x)
    (hcontent : content (lpn % nBanks) x =
      Function.update (content (lpn % nBanks) (s.bank (lpn % nBanks))) (lpn / nBanks) data)
    (hloc : Local s.nand x.nand (lpn % nBanks)) (hclean : s.trace.Clean → x.trace.Clean) :
    Refines (s.put (lpn % nBanks) x)
      fun a => if a / 8 = lpn then data.get (a % 8) else flat a := by
  have hput := h.put_bank hinv hloc
  refine ⟨fun b' hb' => (hput b' hb').1, fun lpn' hl' => ?_, hclean h.clean⟩
  rw [(hput _ (bank_lt lpn')).2]
  by_cases he : lpn' = lpn
  · subst he
    rw [if_pos rfl, hcontent, Function.update_self, page_get fun a ha => if_pos ha]
  · have hrest : page (fun a => if a / 8 = lpn then data.get (a % 8) else flat a) lpn' =
        page flat lpn' := by
      funext k
      have hk := k.isLt
      rw [page, page, if_neg (by omega)]
    rw [hrest, ← h.page_eq lpn' hl']
    split_ifs with hb
    · rw [hcontent, ← hb, Function.update_of_ne]
      intro hd
      apply he
      rw [← Nat.div_add_mod lpn' nBanks, ← Nat.div_add_mod lpn nBanks, hb, hd]
    · rfl

theorem count (h : Refines s flat) (f : Stats → Stats) : Refines (s.count f) flat :=
  ⟨fun b hb => (h.inv b hb).count f, h.page_eq, h.clean⟩

theorem withStack (h : Refines s flat) (stack : Page Sectors ℤ) :
    Refines { s with stack := stack } flat := by
  refine ⟨fun b hb => ?_, h.page_eq, h.clean⟩
  obtain ⟨⟨h1, h2, h3, h4, h5, h6, h7, h8⟩, hr, hl, hbuf⟩ := h.inv b hb
  exact ⟨⟨h1, h2, h3, h4, h5, h6, h7, h8⟩, hr, hl, hbuf⟩

theorem lpn2ppn (h : Refines s flat) {lpn : ℕ} (hl : lpn < nLpns) :
    Refines (s.lpn2ppn (lpn % nBanks) (lpn / nBanks)).2 flat ∧
      Kept (lpn % nBanks) (s.bank (lpn % nBanks))
        ((s.lpn2ppn (lpn % nBanks) (lpn / nBanks)).2.bank (lpn % nBanks)) ∧
      (s.lpn2ppn (lpn % nBanks) (lpn / nBanks)).1 = table (lpn % nBanks)
        ((s.lpn2ppn (lpn % nBanks) (lpn / nBanks)).2.bank (lpn % nBanks)) (lpn / nBanks) := by
  have hinv := h.inv _ (bank_lt lpn)
  obtain ⟨hk, he⟩ := lpn2ppn_kept hinv.map (halved_lt hl)
  refine ⟨h.put_same (hk.bankInv hinv) hk.content hk.step.isLocal hk.step.clean, ?_, ?_⟩
  · rw [Ftl.lpn2ppn, bank_put]
    exact hk
  · rw [Ftl.lpn2ppn, bank_put, hk.table]
    exact he

theorem returned (h : Refines s flat) (hb : b < nBanks) :
    Refines (s.put b ((s.bank b).returned .success)) flat := by
  obtain ⟨⟨h1, h2, h3, h4, h5, h6, h7, h8⟩, hr, hl, hbuf⟩ := h.inv b hb
  exact h.put_same ⟨⟨h1, h2, h3, h4, h5, h6, h7, h8⟩, hr, hl, hbuf⟩ rfl (Local.refl _ _)
    fun hc => Trace.Clean.returned (s := s.bank b) hc

theorem fetch (h : Refines s flat) {lpn : ℕ}
    (hne : table (lpn % nBanks) (s.bank (lpn % nBanks)) (lpn / nBanks) ≠ -1) (data : Sectors) :
    (s.readPpn (lpn % nBanks)
      (table (lpn % nBanks) (s.bank (lpn % nBanks)) (lpn / nBanks)) data).2 =
        s.put (lpn % nBanks) ((s.bank (lpn % nBanks)).returned .success) := by
  obtain ⟨d, -, hrd⟩ := (h.inv _ (bank_lt lpn)).read_entry hne
  have hrd' : nandRead s.nand _ _ _ data s.stack.spare = _ := hrd data s.stack.spare
  unfold Ftl.readPpn
  rw [hrd']

theorem readPpn (h : Refines s flat) {lpn : ℕ} (hl : lpn < nLpns)
    (hnone : simBufferL2s (s.row (lpn % nBanks)) (lpn / nBanks) = none) :
    (table (lpn % nBanks) (s.bank (lpn % nBanks)) (lpn / nBanks) = -1 →
      page flat lpn = fun _ => blank) ∧
    (table (lpn % nBanks) (s.bank (lpn % nBanks)) (lpn / nBanks) ≠ -1 → ∀ data,
      s.readPpn (lpn % nBanks) (table (lpn % nBanks) (s.bank (lpn % nBanks)) (lpn / nBanks)) data =
        (page flat lpn, s.put (lpn % nBanks) ((s.bank (lpn % nBanks)).returned .success))) := by
  obtain ⟨h1, h2⟩ := (h.inv _ (bank_lt lpn)).read (l := lpn / nBanks) hnone
  rw [h.page_eq lpn hl] at h1 h2
  refine ⟨h1, fun hne data => ?_⟩
  unfold Ftl.readPpn
  have hrd : nandRead s.nand _ _ _ data s.stack.spare = _ := h2 hne data s.stack.spare
  rw [hrd]

end Refines

section Read
variable {r : Request} {flat buf : ℕ → Word} {st : Reading}

/-- The first `pp` pages of the request have been read, and the device is as it was. -/
structure Done (r : Request) (flat buf : ℕ → Word) (pp : ℕ) (st : Reading) : Prop
    extends r.Filled flat buf pp st.buf st.cur where
  refines : Refines st.ftl flat

/-- A page of a read delivers `n` of its sectors. -/
structure Delivers (flat : ℕ → Word) (lpn off n : ℕ) (st st' : Reading) : Prop where
  refines : Refines st'.ftl flat
  buf : st'.buf = store st.buf st.cur n fun i => (page flat lpn).get (off + i)
  cur : st'.cur = st.cur

theorem Reading.miss_spec (h : Refines st.ftl flat) {lpn : ℕ} (hl : lpn < nLpns)
    (hnone : simBufferL2s (st.ftl.row (lpn % nBanks)) (lpn / nBanks) = none) (off n : ℕ) :
    Delivers flat lpn off n st (st.miss (lpn % nBanks)
      (table (lpn % nBanks) (st.ftl.bank (lpn % nBanks)) (lpn / nBanks)) off n) := by
  have hc := h.count fun t => { t with cacheMiss := t.cacheMiss + 1 }
  obtain ⟨h1, h2⟩ := hc.readPpn hl hnone
  unfold Reading.miss
  simp only
  split_ifs with he
  · refine ⟨hc, ?_, rfl⟩
    rw [h1 he]
    rfl
  · have hrd := h2 he st.data
    rw [show Ftl.readPpn _ _ (table _ (st.ftl.bank _) _) st.data = _ from hrd]
    exact ⟨hc.returned (bank_lt lpn), rfl, rfl⟩

theorem Reading.hit_spec (h : Refines st.ftl flat) {lpn slot : ℕ} (hl : lpn < nLpns)
    (hslot : simBufferL2s (st.ftl.row (lpn % nBanks)) (lpn / nBanks) = some slot) (off n : ℕ) :
    Delivers flat lpn off n st (st.hit (lpn % nBanks) slot off n) := by
  refine ⟨h.count fun t => { t with cacheHit := t.cacheHit + 1 }, ?_, rfl⟩
  rw [← h.page_eq lpn hl, content_buffered (s := st.ftl.bank _) hslot]
  rfl

theorem readSectors_spec (h : Refines st.ftl flat) {lpn : ℕ} (hl : lpn < nLpns) (off n : ℕ) :
    ∃ st', Delivers flat lpn off n st st' ∧
      readSectors (lpn % nBanks) (lpn / nBanks) off n st = { st' with cur := st'.cur + n } := by
  obtain ⟨h1, -, h3⟩ := h.lpn2ppn hl
  unfold readSectors
  simp only
  generalize hx : st.ftl.lpn2ppn (lpn % nBanks) (lpn / nBanks) = x at *
  obtain ⟨ppn, s₁⟩ := x
  simp only at h1 h3 ⊢
  subst h3
  cases hslot : simBufferL2s (s₁.row (lpn % nBanks)) (lpn / nBanks) with
  | some slot =>
    obtain ⟨e1, e2, e3⟩ := @Reading.hit_spec flat { st with ftl := s₁ } h1 _ _ hl hslot off n
    exact ⟨_, ⟨e1, e2, e3⟩, rfl⟩
  | none =>
    obtain ⟨e1, e2, e3⟩ := @Reading.miss_spec flat { st with ftl := s₁ } h1 _ hl hslot off n
    exact ⟨_, ⟨e1, e2, e3⟩, rfl⟩

theorem readPage_done (hn : 0 < r.nsect) (hmany : r.sendKazu ≠ 1) {pp : ℕ} (hpp : pp < r.sendKazu)
    (hl : r.lpn pp < nLpns) (h : Done r flat buf pp st) :
    Done r flat buf (pp + 1) (readPage r pp st) := by
  obtain ⟨off, n, hoff, hcount, hread⟩ : ∃ off n, r.start pp = off ∧ r.count pp = n ∧
      readPage r pp st = readSectors (r.lpn pp % nBanks) (r.lpn pp / nBanks) off n st := by
    unfold readPage
    obtain ⟨rfl, hoff, hcount⟩ | ⟨h0, hlast, hoff, hcount⟩ | ⟨h0, hlast, hoff, hcount⟩ :=
      Request.page_cases hmany pp
    · exact ⟨_, _, hoff, hcount, if_pos rfl⟩
    · exact ⟨_, _, hoff, hcount, by rw [if_neg h0, if_pos hlast]; rfl⟩
    · exact ⟨_, _, hoff, hcount, by rw [if_neg h0, if_neg hlast]; rfl⟩
  obtain ⟨st', hst', he⟩ := readSectors_spec h.refines hl off n
  rw [hread, he]
  subst hoff hcount
  refine ⟨?_, hst'.refines⟩
  simp only [hst'.buf, hst'.cur]
  exact h.toFilled.store hn hpp

theorem readSingle_done (hn : 0 < r.nsect) (hone : r.sendKazu = 1) (hl : r.lpn 0 < nLpns)
    (h : Done r flat buf 0 st) : Refines (readSingle r st).ftl flat ∧
      ∀ j < r.nsect, (readSingle r st).buf j = flat (r.lba + j) := by
  have hlpn : r.firstPageFirstLba / 8 = r.lpn 0 := (Nat.zero_add _).symm
  have hpos : r.pos (0 + 1) = r.nsect := by
    have := Request.pos_sendKazu hn
    rwa [hone] at this
  have hstep := (h.toFilled.store hn (show 0 < r.sendKazu by omega)).done
  rw [hpos, Request.count_single hone, Request.start_zero] at hstep
  obtain ⟨st', hst', he⟩ : ∃ st', Delivers flat (r.lpn 0) r.firstLbaOffset r.nsect st st' ∧
      readSingle r st = st' := by
    unfold readSingle
    simp only [hlpn]
    cases hslot : simBufferL2s (st.ftl.row (r.lpn 0 % nBanks)) (r.lpn 0 / nBanks) with
    | some slot => exact ⟨_, Reading.hit_spec h.refines hl hslot _ _, rfl⟩
    | none =>
      obtain ⟨h1, h2, h3⟩ := h.refines.lpn2ppn hl
      have hslot₁ : simBufferL2s ((st.ftl.lpn2ppn (r.lpn 0 % nBanks) (r.lpn 0 / nBanks)).2.row
          (r.lpn 0 % nBanks)) (r.lpn 0 / nBanks) = none := by
        have := h2.step.bufferS2l
        unfold simBufferL2s at hslot ⊢
        rw [show (Ftl.row _ _).bufferS2l = _ from this]
        exact hslot
      obtain ⟨e1, e2, e3⟩ := @Reading.miss_spec flat
        { st with ftl := (st.ftl.lpn2ppn (r.lpn 0 % nBanks) (r.lpn 0 / nBanks)).2 }
        h1 _ hl hslot₁ r.firstLbaOffset r.nsect
      rw [← h3] at e1 e2 e3
      exact ⟨_, ⟨e1, e2, e3⟩, rfl⟩
  rw [he]
  exact ⟨hst'.refines, fun j hj => by rw [hst'.buf]; exact hstep j hj⟩

/-- `ftl_read` fills in all sectors of the request and leaves the device as it stands. -/
theorem Refines.ftlRead {s : Ftl} (h : Refines s flat) {lba nsect : ℕ} (hin : InRange lba nsect)
    (buf : ℕ → Word) : Refines (ftlRead s lba nsect buf).1 flat ∧
      ∀ i < nsect, (ftlRead s lba nsect buf).2 i = flat (lba + i) := by
  let r : Request := ⟨lba, nsect⟩
  have hn : 0 < r.nsect := hin.1
  have hl : ∀ pp < r.sendKazu, r.lpn pp < nLpns := fun pp hpp => Request.lpn_lt hn hpp hin.2
  have hreq : s.require (nsect > 0) = s := by simp [Ftl.require, hin.1]
  have hstart : Done r flat buf 0 ⟨s, buf, 0, s.stack.data⟩ :=
    ⟨Request.Filled.start r flat buf, h⟩
  unfold Dftl.ftlRead
  simp only [hreq]
  change Refines (if r.sendKazu = 1 then readSingle r ⟨s, buf, 0, s.stack.data⟩
      else readLoop r ⟨s, buf, 0, s.stack.data⟩ r.sendKazu).ftl flat ∧
    ∀ i < nsect, (if r.sendKazu = 1 then readSingle r ⟨s, buf, 0, s.stack.data⟩
      else readLoop r ⟨s, buf, 0, s.stack.data⟩ r.sendKazu).buf i = flat (lba + i)
  by_cases hone : r.sendKazu = 1
  · rw [if_pos hone]
    exact readSingle_done hn hone (hl 0 Request.sendKazu_pos) hstart
  · rw [if_neg hone]
    have hloop : ∀ pp ≤ r.sendKazu,
        Done r flat buf pp (readLoop r ⟨s, buf, 0, s.stack.data⟩ pp) := by
      intro pp
      induction pp with
      | zero => exact fun _ => hstart
      | succ pp ih =>
        intro hpp
        exact readPage_done hn hone (by omega) (hl pp (by omega)) (ih (by omega))
    have hend := hloop _ le_rfl
    have hdone := hend.done
    rw [Request.pos_sendKazu hn] at hdone
    exact ⟨hend.refines, hdone⟩

end Read

end Dftl
