import Coursework.Dftl.Transfer

/-! `ftl_write` of the demand-paged FTL writes the request to the flat array of sectors, provided
that each of its pages is safe to write when its turn comes. -/
namespace Dftl
open Nand Sector Paging

variable {r : Request} {flat buf : ℕ → Word} {w w' : Writing} {lpn : ℕ}

theorem PageSafe.returned {s : Bank} {l : ℕ} (h : PageSafe s l) (c : Code) :
    PageSafe (s.returned c) l := h

/-- Whether the next write of a page of the device finds or makes room. -/
def Ftl.PageSafe (s : Ftl) (lpn : ℕ) : Prop := Dftl.PageSafe (s.bank (lpn % nBanks)) (lpn / nBanks)

/-- Before the sectors of the request are filled in, `data` is right outside of them. -/
structure Gathered (flat : ℕ → Word) (lpn off n : ℕ) (w w' : Writing) : Prop where
  refines : Refines w'.ftl flat
  cur : w'.cur = w.cur
  data : ∀ k : Fin 8, ¬(off ≤ k.val ∧ k.val < off + n) → w'.data k = page flat lpn k
  safe : w.ftl.PageSafe lpn → w'.ftl.PageSafe lpn

theorem lookup_gathered (h : Refines w.ftl flat) (hl : lpn < nLpns) :
    Gathered flat lpn 0 8 w
      { w with ftl := (w.ftl.lpn2ppn (lpn % nBanks) (lpn / nBanks)).2 } := by
  obtain ⟨h1, h2, -⟩ := h.lpn2ppn hl
  refine ⟨h1, rfl, fun k hk => ?_, fun hs => h2.pageSafe (h.inv _ (bank_lt lpn)) hs⟩
  have := k.isLt
  omega

theorem Gathered.mono {off n : ℕ} (h : Gathered flat lpn 0 8 w w')
    (hdata : ∀ k : Fin 8, ¬(off ≤ k.val ∧ k.val < off + n) → w'.data k = page flat lpn k) :
    Gathered flat lpn off n w w' := ⟨h.refines, h.cur, hdata, h.safe⟩

theorem Gathered.setData (h : Gathered flat lpn 0 8 w w') (data : Sectors) :
    Gathered flat lpn 0 8 w { w' with data := data } := by
  refine ⟨h.refines, h.cur, fun k hk => ?_, h.safe⟩
  have := k.isLt
  omega

theorem Gathered.fetch (h : Gathered flat lpn 0 8 w w') (hl : lpn < nLpns)
    (hne : table (lpn % nBanks) (w'.ftl.bank (lpn % nBanks)) (lpn / nBanks) ≠ -1) :
    Gathered flat lpn 0 8 w (w'.fetch (lpn % nBanks)
      (table (lpn % nBanks) (w'.ftl.bank (lpn % nBanks)) (lpn / nBanks))) ∧
    (simBufferL2s (w'.ftl.row (lpn % nBanks)) (lpn / nBanks) = none →
      (w'.fetch (lpn % nBanks)
        (table (lpn % nBanks) (w'.ftl.bank (lpn % nBanks)) (lpn / nBanks))).data =
          page flat lpn) := by
  have hrd := h.refines.fetch hne w'.data
  refine ⟨⟨?_, h.cur, fun k hk => ?_, fun hs => ?_⟩, fun hnone => ?_⟩
  · unfold Writing.fetch
    simp only
    rw [hrd]
    exact h.refines.returned (bank_lt lpn)
  · have := k.isLt
    omega
  · unfold Writing.fetch Ftl.PageSafe
    simp only
    rw [hrd, bank_put]
    exact (h.safe hs).returned .success
  · have := ((h.refines.readPpn hl hnone).2 hne w'.data)
    unfold Writing.fetch
    simp only
    rw [this]

/-- The old contents of the page, as the head and the tail of a request gather it. -/
theorem load_gathered (h : Refines w.ftl flat) (hl : lpn < nLpns) {off n : ℕ} (pad : Sectors)
    (hpad : ∀ k : Fin 8, ¬(off ≤ k.val ∧ k.val < off + n) → pad k = blank) :
    Gathered flat lpn off n w (w.load (lpn % nBanks) (lpn / nBanks) pad) := by
  obtain ⟨-, -, h3⟩ := h.lpn2ppn hl
  have hg := lookup_gathered h hl
  unfold Writing.load
  simp only
  rw [h3]
  generalize w.ftl.lpn2ppn (lpn % nBanks) (lpn / nBanks) = x at *
  obtain ⟨ppn, s⟩ := x
  simp only at hg ⊢
  cases hslot : simBufferL2s (s.row (lpn % nBanks)) (lpn / nBanks) with
  | some slot =>
    refine (hg.setData _).mono fun k _ => ?_
    rw [← hg.refines.page_eq lpn hl]
    exact (congrFun (content_buffered (s := s.bank (lpn % nBanks)) hslot) k).symm
  | none =>
    simp only
    split_ifs with he
    · refine (hg.setData pad).mono fun k hk => ?_
      rw [(hg.refines.readPpn hl hslot).1 he]
      exact hpad k hk
    · obtain ⟨h1, h2⟩ := hg.fetch hl he
      exact h1.mono fun k _ => congrFun (h2 hslot) k

/-- In the middle of a request nothing of the old page is kept. -/
theorem loadMiddle_gathered (h : Refines w.ftl flat) (hl : lpn < nLpns) :
    Gathered flat lpn 0 8 w (w.loadMiddle (lpn % nBanks) (lpn / nBanks)) := by
  obtain ⟨-, -, h3⟩ := h.lpn2ppn hl
  have hg := lookup_gathered h hl
  unfold Writing.loadMiddle
  simp only
  rw [h3]
  generalize w.ftl.lpn2ppn (lpn % nBanks) (lpn / nBanks) = x at *
  obtain ⟨ppn, s⟩ := x
  simp only at hg ⊢
  cases hslot : simBufferL2s (s.row (lpn % nBanks)) (lpn / nBanks) with
  | some slot =>
    simp only
    split_ifs with he
    · exact hg.setData _
    · exact ((hg.setData ((s.row (lpn % nBanks)).bufferData slot)).fetch hl he).1
  | none =>
    simp only
    split_ifs with he
    · exact hg.setData _
    · exact (hg.fetch hl he).1

/-- The first `pp` pages of the request have been written. -/
structure Written (r : Request) (flat buf : ℕ → Word) (pp : ℕ) (w : Writing) : Prop where
  refines : Refines w.ftl (writeFlat flat r.lba (r.pos pp) buf)
  cur : w.cur = r.pos pp

theorem Written.round (hn : 0 < r.nsect) {pp : ℕ} (hpp : pp < r.sendKazu) (hl : r.lpn pp < nLpns)
    (hsafe : w.ftl.PageSafe (r.lpn pp)) (h : Written r flat buf pp w)
    (hw' : Gathered (writeFlat flat r.lba (r.pos pp) buf) (r.lpn pp) (r.start pp) (r.count pp)
      w w') : Written r flat buf (pp + 1)
        (w'.send buf (r.lpn pp % nBanks) (r.lpn pp / nBanks) (r.start pp) (r.count pp)) := by
  obtain ⟨h1, h2, h3, h4⟩ := writeThroughLpn_spec (hw'.refines.inv _ (bank_lt (r.lpn pp)))
    (halved_lt hl) (hw'.safe hsafe)
    (w'.data.patch (r.start pp) (r.count pp) fun i => buf (w'.cur + i))
  have hpos := Request.pos_succ hn hpp
  constructor
  · have hput := hw'.refines.put_page h1 h2 h3 h4
    rw [patch_congr _ hw'.data, hw'.cur, h.cur] at hput
    rw [Request.writeFlat_step hn hpp, Writing.send]
    simp only
    rw [patch_congr _ hw'.data, hw'.cur, h.cur]
    exact hput
  · rw [Writing.send, hpos, hw'.cur, h.cur]

theorem writePage_written (hn : 0 < r.nsect) (hmany : r.sendKazu ≠ 1) {pp : ℕ}
    (hpp : pp < r.sendKazu) (hl : r.lpn pp < nLpns) (hsafe : w.ftl.PageSafe (r.lpn pp))
    (h : Written r flat buf pp w) : Written r flat buf (pp + 1) (writePage r buf pp w) := by
  unfold writePage
  obtain ⟨rfl, hstart, hcount⟩ | ⟨h0, hlast, hstart, hcount⟩ | ⟨h0, hlast, hstart, hcount⟩ :=
    Request.page_cases hmany pp
  · have hround := h.round hn hpp hl hsafe
      (load_gathered h.refines hl _ (Request.pad_first hstart hcount w.data))
    rw [hstart, hcount] at hround
    rw [if_pos rfl]
    exact hround
  · have hround := h.round hn hpp hl hsafe
      (load_gathered h.refines hl _ (Request.pad_last hstart hcount w.data))
    rw [hstart, hcount] at hround
    rw [if_neg h0, if_pos hlast]
    exact hround
  · have hgathered := loadMiddle_gathered h.refines hl
    rw [← hstart, ← hcount] at hgathered
    have hround := h.round hn hpp hl hsafe hgathered
    rw [hstart, hcount] at hround
    rw [if_neg h0, if_neg hlast]
    exact hround

theorem writeSingle_written (hn : 0 < r.nsect) (hone : r.sendKazu = 1) (hl : r.lpn 0 < nLpns)
    (hsafe : w.ftl.PageSafe (r.lpn 0)) (h : Written r flat buf 0 w) :
    Written r flat buf 1 (writeSingle r buf w) := by
  have hround := h.round hn Request.sendKazu_pos hl hsafe
    (load_gathered h.refines hl _ (Request.pad_single hn hone w.data))
  rw [Request.start_zero, Request.count_single hone] at hround
  unfold writeSingle
  simpa only [Request.lpn, Nat.zero_add] using hround

/-- Each page of the request is safe to write in the state in which `ftl_write` gets to it. -/
def WriteSafe (s : Ftl) (lba nsect : ℕ) (buf : ℕ → Word) : Prop :=
  ∀ pp < (⟨lba, nsect⟩ : Request).sendKazu,
    (writeLoop ⟨lba, nsect⟩ buf ⟨s, 0, s.stack.data⟩ pp).ftl.PageSafe
      ((⟨lba, nsect⟩ : Request).lpn pp)

/-- `ftl_write` writes the request to the flat array. -/
theorem Refines.ftlWrite {s : Ftl} (h : Refines s flat) {lba nsect : ℕ} (hin : InRange lba nsect)
    (hsafe : WriteSafe s lba nsect buf) :
    Refines (ftlWrite s lba nsect buf) (writeFlat flat lba nsect buf) := by
  let r : Request := ⟨lba, nsect⟩
  have hn : 0 < r.nsect := hin.1
  have hl : ∀ pp < r.sendKazu, r.lpn pp < nLpns := fun pp hpp => Request.lpn_lt hn hpp hin.2
  have hstart : Written r flat buf 0 ⟨s, 0, s.stack.data⟩ := by
    refine ⟨?_, (Request.pos_zero r).symm⟩
    rwa [Request.pos_zero, writeFlat_zero]
  have hfinal : Written r flat buf r.sendKazu
      (if r.sendKazu = 1 then writeSingle r buf ⟨s, 0, s.stack.data⟩
        else writeLoop r buf ⟨s, 0, s.stack.data⟩ r.sendKazu) := by
    split_ifs with hone
    · have hsingle := writeSingle_written hn hone (hl 0 Request.sendKazu_pos)
        (hsafe 0 Request.sendKazu_pos) hstart
      rwa [← hone] at hsingle
    · have hloop : ∀ pp ≤ r.sendKazu,
          Written r flat buf pp (writeLoop r buf ⟨s, 0, s.stack.data⟩ pp) := by
        intro pp
        induction pp with
        | zero => exact fun _ => hstart
        | succ pp ih =>
          intro hpp
          exact writePage_written hn hone hpp (hl pp hpp) (hsafe pp hpp) (ih (by omega))
      exact hloop _ le_rfl
  have hres := hfinal.refines
  rw [Request.pos_sendKazu hn] at hres
  exact hres.count fun t => { t with hostWrite := t.hostWrite + nsect }

end Dftl
