import Coursework.PageFtl.Ftl

/-! What `ftl_read` returns in the page-mapping FTL of lab 2. The device refines a flat
array of sectors; a read hands that array out except for the last sector of a request that
ends in a page never written. -/
namespace PageFtl
open Nand Sector PageMap

/-- The device stands for the flat array: the core invariant holds and every logical page
holds the sectors of the array. -/
structure Refines (s : Ftl) (flat : ℕ → Word) : Prop where
  ok : s.Ok geometry nBanks
  page_eq : ∀ lpn, s.page nBanks lpn = page flat lpn

variable {s : Ftl} {flat : ℕ → Word} {r : Request}

theorem refines_ftlOpen (mem : ℕ → Page Sectors ℕ) (stack : Page Sectors ℕ) :
    Refines (ftlOpen mem stack) fun _ => blank := by
  have hn : Banks.initNand geometry nBanks mem = some (ftlOpen mem stack).nand :=
    rfl
  refine ⟨⟨fun b hb => ?_⟩, fun lpn => ?_⟩
  · exact Banks.initRow_ok hn hb () ⟨0, 0, 0, 0⟩ stack
  · rfl

theorem Refines.codes (h : Refines s flat) {codes : List Code}
    (hc : ∀ c ∈ codes, c = .success) : Refines { s with codes := codes ++ s.codes } flat :=
  ⟨h.ok.codes hc, h.page_eq⟩

theorem Refines.stats (h : Refines s flat) (stats : Stats) :
    Refines { s with stats := stats } flat := ⟨h.ok.locals stats s.stack, h.page_eq⟩

theorem Refines.read (h : Refines s flat) {lpn : ℕ}
    (hm : (s.row (lpn % nBanks)).l2p (lpn / nBanks) ≠ -1) (data : Sectors) :
    s.readPpn geometry (lpn % nBanks) ((s.row (lpn % nBanks)).l2p (lpn / nBanks)) data =
      (.success, ⟨page flat lpn, lpn / nBanks⟩) := by
  rw [Banks.readPpn, ← h.page_eq]
  exact h.ok.read (by decide) hm data _

theorem Refines.unmapped (h : Refines s flat) {lpn : ℕ}
    (hm : (s.row (lpn % nBanks)).l2p (lpn / nBanks) = -1) : page flat lpn = fun _ => blank := by
  rw [← h.page_eq]
  exact h.ok.page_unmapped (by decide) hm

theorem Refines.write (h : Refines s flat) {lpn : ℕ} (hl : lpn < nLpns) (data : Sectors) :
    Refines (writeThroughLpn s (lpn % nBanks) (lpn / nBanks) data)
      fun a => if a / 8 = lpn then data.get (a % 8) else flat a := by
  refine ⟨Banks.writeThroughLpn_ok hooks h.ok (Nat.mod_lt _ (by decide))
    (Nat.div_lt_of_lt_mul (by rwa [nLpns, Nat.mul_comm] at hl)) data, fun lpn' => ?_⟩
  have hpage := congrFun (Banks.page_writeThroughLpn hooks h.ok hl data) lpn'
  rw [writeThroughLpn, hpage]
  by_cases he : lpn' = lpn
  · subst he
    rw [Function.update_self]
    exact (page_get fun a ha => if_pos ha).symm
  · rw [Function.update_of_ne he, h.page_eq]
    funext k
    have hk := k.isLt
    rw [page, page, if_neg (by omega)]

section Write
variable {buf : ℕ → Word} {w : Writing}

theorem Refines.fetch (h : Refines w.ftl flat) {lpn : ℕ}
    (hm : (w.ftl.row (lpn % nBanks)).l2p (lpn / nBanks) ≠ -1) :
    Refines (w.fetch (lpn % nBanks) ((w.ftl.row (lpn % nBanks)).l2p (lpn / nBanks))).ftl flat ∧
      (w.fetch (lpn % nBanks) ((w.ftl.row (lpn % nBanks)).l2p (lpn / nBanks))).data =
        page flat lpn := by
  have hr := h.read hm w.data
  unfold Writing.fetch
  simp only [hr]
  exact ⟨h.codes fun _ hc => List.mem_singleton.mp hc, trivial⟩

/-- The first `pp` pages of the request have been written. -/
structure Written (r : Request) (flat buf : ℕ → Word) (pp : ℕ) (w : Writing) : Prop where
  refines : Refines w.ftl (writeFlat flat r.lba (r.pos pp) buf)
  cur : w.cur = r.pos pp

theorem Written.round (hn : 0 < r.nsect) {pp : ℕ} (hpp : pp < r.sendKazu)
    (hin : r.lpn pp < nLpns) {w w' : Writing} (h : Written r flat buf pp w)
    (hw' : Refines w'.ftl (writeFlat flat r.lba (r.pos pp) buf)) (hcur : w'.cur = w.cur)
    (hdata : ∀ k : Fin 8, ¬(r.start pp ≤ k.val ∧ k.val < r.start pp + r.count pp) →
      w'.data k = page (writeFlat flat r.lba (r.pos pp) buf) (r.lpn pp) k) :
    Written r flat buf (pp + 1)
      { ftl := writeThroughLpn w'.ftl (r.lpn pp % nBanks) (r.lpn pp / nBanks)
          (w'.data.patch (r.start pp) (r.count pp) fun i => buf (w'.cur + i))
        cur := w'.cur + r.count pp
        data := w'.data.patch (r.start pp) (r.count pp) fun i => buf (w'.cur + i) } := by
  have hpos := Request.pos_succ hn hpp
  constructor
  · rw [Request.writeFlat_step hn hpp, patch_congr _ hdata, hcur, h.cur]
    exact hw'.write hin _
  · rw [hpos, hcur, h.cur]

/-- `data` before the patch: a mapped page is fetched, and for an unmapped one the sectors
outside the patch are set to blank. -/
theorem prepared (h : Refines w.ftl flat) (lpn off n : ℕ) (pad : Sectors)
    (hpad : ∀ k : Fin 8, ¬(off ≤ k.val ∧ k.val < off + n) → pad k = blank) {w' : Writing}
    (hw' : w' = if (w.ftl.row (lpn % nBanks)).l2p (lpn / nBanks) = -1 then { w with data := pad }
      else w.fetch (lpn % nBanks) ((w.ftl.row (lpn % nBanks)).l2p (lpn / nBanks))) :
    Refines w'.ftl flat ∧ w'.cur = w.cur ∧
      ∀ k : Fin 8, ¬(off ≤ k.val ∧ k.val < off + n) → w'.data k = page flat lpn k := by
  subst hw'
  split_ifs with hm
  · refine ⟨h, rfl, fun k hk => ?_⟩
    rw [h.unmapped hm]
    exact hpad k hk
  · obtain ⟨h1, h2⟩ := h.fetch hm
    exact ⟨h1, rfl, fun k _ => by rw [h2]⟩

theorem writePage_written (hn : 0 < r.nsect) (hmany : r.sendKazu ≠ 1) {pp : ℕ}
    (hpp : pp < r.sendKazu) (hin : r.lpn pp < nLpns) (h : Written r flat buf pp w) :
    Written r flat buf (pp + 1) (writePage r buf pp w) := by
  unfold writePage
  obtain ⟨rfl, hstart, hcount⟩ | ⟨h0, hlast, hstart, hcount⟩ | ⟨h0, hlast, hstart, hcount⟩ :=
    Request.page_cases hmany pp
  · obtain ⟨h1, h2, h3⟩ := prepared h.refines (r.lpn 0) _ _ _
      (Request.pad_first hstart hcount w.data) rfl
    have hround := h.round hn hpp hin h1 h2 h3
    rw [hstart, hcount] at hround
    rw [if_pos rfl]
    exact hround
  · obtain ⟨h1, h2, h3⟩ := prepared h.refines (r.lpn pp) _ _ _
      (Request.pad_last hstart hcount w.data) rfl
    have hround := h.round hn hpp hin h1 h2 h3
    rw [hstart, hcount] at hround
    rw [if_neg h0, if_pos hlast]
    exact hround
  · have hround := h.round hn hpp hin h.refines rfl fun k hk =>
      absurd (Request.mem_middle hstart hcount k) hk
    rw [hstart, hcount] at hround
    rw [if_neg h0, if_neg hlast]
    exact hround

theorem writeSingle_written (hn : 0 < r.nsect) (hone : r.sendKazu = 1) (hin : r.lpn 0 < nLpns)
    (h : Written r flat buf 0 w) : Written r flat buf 1 (writeSingle r buf w) := by
  have hoff := Request.single_offsets hn hone
  obtain ⟨h1, h2, h3⟩ := prepared h.refines (r.lpn 0) (r.start 0) (r.count 0) _
    (Request.pad_single hn hone w.data) rfl
  have hround := h.round hn Request.sendKazu_pos hin h1 h2 h3
  rw [Request.start_zero, Request.count_single hone] at hround
  have hcount : r.lastLbaOffset - r.firstLbaOffset + 1 = r.nsect := by omega
  unfold writeSingle
  rw [hcount]
  simpa only [Request.lpn, Nat.zero_add] using hround

/-- `ftl_write` replaces the sectors of the request. -/
theorem Refines.ftlWrite (h : Refines s flat) {lba nsect : ℕ} (hin : InRange lba nsect)
    (buf : ℕ → Word) (data : Sectors) :
    Refines (ftlWrite s lba nsect buf data) (writeFlat flat lba nsect buf) := by
  set r : Request := ⟨lba, nsect⟩ with hr
  have hn : 0 < r.nsect := hin.1
  have hlpn : ∀ pp < r.sendKazu, r.lpn pp < nLpns := fun pp hpp => Request.lpn_lt hn hpp hin.2
  have hstart : Written r flat buf 0 ⟨s, 0, data⟩ := by
    refine ⟨?_, (Request.pos_zero r).symm⟩
    rwa [Request.pos_zero, writeFlat_zero]
  have hfinal : Written r flat buf r.sendKazu
      (if r.sendKazu = 1 then writeSingle r buf ⟨s, 0, data⟩
        else writeLoop r buf ⟨s, 0, data⟩ r.sendKazu) := by
    split_ifs with hone
    · have hsingle := writeSingle_written hn hone (hlpn 0 Request.sendKazu_pos) hstart
      rwa [← hone] at hsingle
    · have hloop : ∀ pp ≤ r.sendKazu, Written r flat buf pp (writeLoop r buf ⟨s, 0, data⟩ pp) := by
        intro pp
        induction pp with
        | zero => exact fun _ => hstart
        | succ pp ih =>
          intro hpp
          exact writePage_written hn hone (by omega) (hlpn pp (by omega)) (ih (by omega))
      exact hloop _ le_rfl
  have hres := hfinal.refines
  rw [Request.pos_sendKazu hn] at hres
  exact hres.stats _

end Write

section Read
variable {buf : ℕ → Word} {st : Reading}

theorem store_blank (h : Refines s flat) {pp : ℕ}
    (hm : (s.row (r.lpn pp % nBanks)).l2p (r.lpn pp / nBanks) = -1) (buf' : ℕ → Word)
    (cur n : ℕ) : store buf' cur n (fun _ => blank) =
      store buf' cur n fun i => (page flat (r.lpn pp)).get (r.start pp + i) := by
  rw [h.unmapped hm]
  rfl

/-- A round before the last one fills in its page. -/
theorem readPage_filled (hs : Refines s flat) (hn : 0 < r.nsect) (hmany : r.sendKazu ≠ 1)
    {pp : ℕ} (hpp : pp + 1 < r.sendKazu) (h : Filled r flat buf pp st) :
    Filled r flat buf (pp + 1) (readPage s r pp st) := by
  have hlast : pp ≠ r.sendKazu - 1 := by omega
  have hpp' : pp < r.sendKazu := by omega
  unfold readPage
  by_cases h0 : pp = 0
  · subst h0
    rw [if_pos rfl]
    split_ifs with hm
    · refine h.round hn hpp' ?_ h.codes ?_
      · rw [Request.count_first hmany]
      · rw [← store_blank hs hm, Request.count_first hmany]
    · have hrd := hs.read hm st.data
      refine h.round hn hpp' ?_ ?_ ?_
      · rw [Request.count_first hmany]
      · intro c hc
        rcases List.mem_cons.mp hc with rfl | hc
        · exact congrArg Prod.fst hrd
        · exact h.codes c hc
      · rw [Request.count_first hmany, Request.start_zero]
        exact congrArg (fun x : Code × Page Sectors ℕ => store st.buf st.cur
          (8 - r.firstLbaOffset) fun i => x.2.data.get (r.firstLbaOffset + i)) hrd
  · have hcount := Request.count_middle hmany h0 hlast
    rw [if_neg h0, if_neg hlast]
    split_ifs with hm
    · refine h.round hn hpp' (by rw [hcount]) h.codes ?_
      rw [← store_blank hs hm, hcount]
    · have hrd := hs.read hm st.data
      refine h.round hn hpp' (by rw [hcount]) ?_ ?_
      · intro c hc
        rcases List.mem_cons.mp hc with rfl | hc
        · exact congrArg Prod.fst hrd
        · exact h.codes c hc
      · rw [hcount, Request.start_of_ne h0]
        simp only [Nat.zero_add]
        exact congrArg (fun x : Code × Page Sectors ℕ => store st.buf st.cur 8 x.2.data.get) hrd

theorem readLoop_filled (hs : Refines s flat) (hn : 0 < r.nsect) (hmany : r.sendKazu ≠ 1)
    (h : Filled r flat buf 0 st) :
    ∀ pp < r.sendKazu, Filled r flat buf pp (readLoop s r st pp)
  | 0, _ => h
  | pp + 1, hpp => readPage_filled hs hn hmany hpp (readLoop_filled hs hn hmany h pp (by omega))

/-- The last round fills in a mapped page. -/
theorem readPage_last_mapped (hs : Refines s flat) (hn : 0 < r.nsect) (hmany : r.sendKazu ≠ 1)
    {pp : ℕ} (hpp : pp + 1 = r.sendKazu) (h : Filled r flat buf pp st)
    (hm : (s.row (r.lpn pp % nBanks)).l2p (r.lpn pp / nBanks) ≠ -1) :
    (∀ j < r.nsect, (readPage s r pp st).buf j = flat (r.lba + j)) ∧
      ∀ c ∈ (readPage s r pp st).codes, c = .success := by
  have hlast : pp = r.sendKazu - 1 := by omega
  have h0 : pp ≠ 0 := by omega
  have hcount := Request.count_last hmany
  rw [← hlast] at hcount
  have hrd := hs.read hm st.data
  unfold readPage
  have hm' : ¬(s.row ((pp + r.firstPageFirstLba / 8) % nBanks)).l2p
      ((pp + r.firstPageFirstLba / 8) / nBanks) = -1 := hm
  simp only [if_neg h0, if_pos hlast, if_neg hm']
  have hstep := Request.store_step hn (by omega) h.done
  rw [hpp, Request.pos_sendKazu hn, hcount, Request.start_of_ne h0, ← h.cur] at hstep
  simp only [Nat.zero_add] at hstep
  constructor
  · intro j hj
    rw [← hstep j hj]
    exact congrFun (congrArg (fun x : Code × Page Sectors ℕ => store st.buf st.cur
      (r.lastLbaOffset + 1) x.2.data.get) hrd) j
  · intro c hc
    rcases List.mem_cons.mp hc with rfl | hc
    · exact congrArg Prod.fst hrd
    · exact h.codes c hc

/-- The last round leaves out the last sector of an unmapped page. -/
theorem readPage_last_unmapped (hs : Refines s flat) (hn : 0 < r.nsect) (hmany : r.sendKazu ≠ 1)
    {pp : ℕ} (hpp : pp + 1 = r.sendKazu) (h : Filled r flat buf pp st)
    (hm : (s.row (r.lpn pp % nBanks)).l2p (r.lpn pp / nBanks) = -1) :
    (∀ j, j + 1 < r.nsect → (readPage s r pp st).buf j = flat (r.lba + j)) ∧
      flat (r.lba + (r.nsect - 1)) = blank ∧
      (readPage s r pp st).buf (r.nsect - 1) = buf (r.nsect - 1) ∧
      ∀ c ∈ (readPage s r pp st).codes, c = .success := by
  have hlast : pp = r.sendKazu - 1 := by omega
  have h0 : pp ≠ 0 := by omega
  have hcount := Request.count_last hmany
  rw [← hlast] at hcount
  have hpos := Request.pos_succ hn (show pp < r.sendKazu by omega)
  rw [hpp, Request.pos_sendKazu hn, hcount] at hpos
  have hend : r.pos pp ≤ r.nsect - 1 ∧ r.nsect - 1 < r.pos (pp + 1) := by
    rw [hpp, Request.pos_sendKazu hn]
    omega
  obtain ⟨hq, hr⟩ := Request.locate hend.1 hend.2
  unfold readPage
  have hm' : (s.row ((pp + r.firstPageFirstLba / 8) % nBanks)).l2p
      ((pp + r.firstPageFirstLba / 8) / nBanks) = -1 := hm
  simp only [if_neg h0, if_pos hlast, if_pos hm']
  refine ⟨fun j hj => ?_, ?_, ?_, h.codes⟩
  · have hstep := Request.store_step hn (show pp < r.sendKazu by omega) h.done j (by
      rw [hpp, Request.pos_sendKazu hn]
      omega)
    rw [← store_blank hs hm, ← h.cur, hcount] at hstep
    rw [← hstep]
    have := h.cur
    simp only [store]
    split_ifs <;> first | rfl | omega
  · rw [← get_page flat, hq, hs.unmapped hm]
    rfl
  · have := h.cur
    rw [store_rest _ (by omega)]
    exact h.rest _ hend.1

theorem readSingle_filled (hs : Refines s flat) (hn : 0 < r.nsect) (hone : r.sendKazu = 1)
    (h : Filled r flat buf 0 st) :
    (∀ j < r.nsect, (readSingle s r st).buf j = flat (r.lba + j)) ∧
      ∀ c ∈ (readSingle s r st).codes, c = .success := by
  have hoff := Request.single_offsets hn hone
  have hstep := Request.store_step hn (show 0 < r.sendKazu by omega) h.done
  rw [Request.count_single hone, Request.start_zero, ← h.cur] at hstep
  have hpos : r.pos (0 + 1) = r.nsect := by
    have := Request.pos_sendKazu hn
    rwa [hone] at this
  rw [hpos] at hstep
  have hlpn : r.lpn 0 = r.firstPageFirstLba / 8 := Nat.zero_add _
  rw [hlpn] at hstep
  unfold readSingle
  simp only
  split_ifs with hm
  · refine ⟨fun j hj => ?_, h.codes⟩
    rw [hs.unmapped hm] at hstep
    exact hstep j hj
  · have hrd := hs.read hm st.data
    constructor
    · intro j hj
      rw [← hstep j hj, show r.lastLbaOffset + 1 - r.firstLbaOffset = r.nsect by omega]
      exact congrFun (congrArg (fun x : Code × Page Sectors ℕ => store st.buf st.cur
        r.nsect fun i => x.2.data.get (r.firstLbaOffset + i)) hrd) j
    · intro c hc
      rcases List.mem_cons.mp hc with rfl | hc
      · exact congrArg Prod.fst hrd
      · exact h.codes c hc

/-- The last page of the request is mapped. -/
def LastMapped (s : Ftl) (lba nsect : ℕ) : Prop :=
  let lpn := (lba + nsect - 1) / 8
  (s.row (lpn % nBanks)).l2p (lpn / nBanks) ≠ -1

instance (s : Ftl) (lba nsect : ℕ) : Decidable (LastMapped s lba nsect) := by
  unfold LastMapped
  infer_instance

/-- `ftl_read` leaves the device as it stands and fills in all sectors, unless the request
ends in an unmapped page that is not its first: then the last entry keeps what it had. -/
theorem Refines.ftlRead (h : Refines s flat) {lba nsect : ℕ} (hn : 0 < nsect)
    (buf : ℕ → Word) (data : Sectors) :
    Refines (ftlRead s lba nsect buf data).1 flat ∧
      ((∀ i < nsect, (ftlRead s lba nsect buf data).2 i = flat (lba + i)) ↔
        lba / 8 = (lba + nsect - 1) / 8 ∨ LastMapped s lba nsect ∨ buf (nsect - 1) = blank) := by
  let r : Request := ⟨lba, nsect⟩
  have hstart := Filled.start r flat buf data
  have hkazu : r.sendKazu = 1 ↔ lba / 8 = (lba + nsect - 1) / 8 := Request.sendKazu_eq_one hn
  unfold PageFtl.ftlRead
  change Refines { s with codes := (if r.sendKazu = 1 then readSingle s r ⟨buf, 0, data, []⟩
      else readLoop s r ⟨buf, 0, data, []⟩ r.sendKazu).codes ++ s.codes } flat ∧
    ((∀ i < nsect, (if r.sendKazu = 1 then readSingle s r ⟨buf, 0, data, []⟩
      else readLoop s r ⟨buf, 0, data, []⟩ r.sendKazu).buf i = flat (lba + i)) ↔ _)
  by_cases hone : r.sendKazu = 1
  · rw [if_pos hone]
    obtain ⟨h1, h2⟩ := readSingle_filled h hn hone hstart
    exact ⟨h.codes h2, fun _ => .inl (hkazu.mp hone), fun _ => h1⟩
  · rw [if_neg hone]
    obtain ⟨pp, hpp⟩ : ∃ pp, pp + 1 = r.sendKazu :=
      ⟨r.sendKazu - 1, Nat.sub_add_cancel Request.sendKazu_pos⟩
    have hloop := readLoop_filled h hn hone hstart pp (by omega)
    have hlpn : r.lpn pp = (lba + nsect - 1) / 8 := Request.lpn_last hn hpp
    rw [← hpp, readLoop]
    by_cases hm : LastMapped s lba nsect
    · obtain ⟨h1, h2⟩ := readPage_last_mapped h hn hone hpp hloop (by rw [hlpn]; exact hm)
      exact ⟨h.codes h2, fun _ => .inr (.inl hm), fun _ => h1⟩
    · obtain ⟨h1, h2, h3, h4⟩ := readPage_last_unmapped h hn hone hpp hloop
        (by rw [hlpn]; exact not_not.mp hm)
      refine ⟨h.codes h4, fun hall => .inr (.inr ?_), fun hc i hi => ?_⟩
      · have hend := hall (nsect - 1) (by omega)
        exact (h3.symm.trans hend).trans h2
      · have hbuf : buf (nsect - 1) = blank := by
          rcases hc with hc | hc | hc
          · exact absurd (hkazu.mpr hc) hone
          · exact absurd hc hm
          · exact hc
        by_cases hi' : i + 1 < nsect
        · exact h1 i hi'
        · obtain rfl : i = nsect - 1 := by omega
          exact (h3.trans hbuf).trans h2.symm

end Read

theorem Refines.step (h : Refines s flat) {op : Op} (hop : op.InRange) :
    Refines (step s op) (flatStep flat op) := by
  cases op with
  | read lba nsect buf data => exact (h.ftlRead hop.1 buf data).1
  | write lba nsect buf data => exact h.ftlWrite hop buf data

theorem refines_run (mem : ℕ → Page Sectors ℕ) (stack : Page Sectors ℕ) {ops : List Op}
    (hops : ∀ op ∈ ops, op.InRange) :
    Refines (Machine.run PageFtl.step (ftlOpen mem stack) ops) (expected ops) :=
  Machine.simulation (P := fun _ op => op.InRange) (fun _ _ _ h hop => h.step hop) ops _ _
    (refines_ftlOpen mem stack) (Machine.along_of_forall (fun op hop _ => hops op hop) _)

section ReadAfterWrite
variable (mem : ℕ → Page Sectors ℕ) (stack : Page Sectors ℕ)

/-- `ftl_read` fills in every entry of the caller's buffer with the last value written to
its sector exactly if the request stays inside one page, or its last page is mapped, or the
entry left out happens to hold the erased pattern already. -/
theorem ftlRead_fills_iff {ops : List Op} (hops : ∀ op ∈ ops, op.InRange) {lba nsect : ℕ}
    (hin : InRange lba nsect) (buf : ℕ → Word) (data : Sectors) :
    (∀ i < nsect, (ftlRead (Machine.run step (ftlOpen mem stack) ops) lba nsect buf data).2 i =
        expected ops (lba + i)) ↔
      lba / 8 = (lba + nsect - 1) / 8 ∨
        LastMapped (Machine.run step (ftlOpen mem stack) ops) lba nsect ∨
        buf (nsect - 1) = blank :=
  ((refines_run mem stack hops).ftlRead hin.1 buf data).2

/-- A read whose last page was written before. -/
theorem ftlRead_fills_written : (ftlRead (Machine.run step
    (ftlOpen (fun _ => ⟨fun _ => 0, 0⟩) ⟨fun _ => 0, 0⟩) [.write 5 10 (fun i => i) fun _ => 0])
      3 6 (fun _ => 0) fun _ => 0).2 5 = expected [.write 5 10 (fun i => i) fun _ => 0] (3 + 5) :=
  (ftlRead_fills_iff _ _ (by simp [Op.InRange, InRange, nLpns, nLpnsPb, nUserBlocksPb, blksPerBank,
    nGcBlocks, opRatio, pagesPerBlk, nBanks]) ⟨by decide, by decide⟩ _ _).mpr
    (.inr (.inl (by decide))) 5 (by decide)

/-- Reading two pages of a fresh device leaves the sixteenth entry as it was. -/
theorem ftlRead_last_sector_missing :
    ¬ ∀ (ops : List Op), (∀ op ∈ ops, op.InRange) → ∀ lba nsect, InRange lba nsect →
      ∀ (buf : ℕ → Word) (data : Sectors), ∀ i < nsect,
        (ftlRead (Machine.run step (ftlOpen (fun _ => ⟨fun _ => 0, 0⟩) ⟨fun _ => 0, 0⟩) ops)
          lba nsect buf data).2 i = expected ops (lba + i) := by
  intro h
  have h1 := h [] (by simp) 0 16 ⟨by decide, by decide⟩ (fun _ => 0) (fun _ => 0) 15 (by decide)
  revert h1
  decide

end ReadAfterWrite

end PageFtl
