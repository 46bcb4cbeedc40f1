import Coursework.BufferedFtl.Read

/-! `ftl_flush` of lab 3 and the two write paths: straight to NAND, taking the buffered copy
of a page along, and into the buffer. -/
namespace BufferedFtl
open Nand Sector PageMap

variable {s : Ftl} {flat buf : ℕ → Word} {r : Request}

section Flush

theorem firstMark_cases (marks : Sectors) :
    (firstMark marks = -1 ∧ ∀ k, marks k = -1) ∨
      ∃ k, marks k ≠ -1 ∧ firstMark marks = marks k := by
  unfold firstMark
  cases hf : (List.finRange 8).find? fun k => marks k ≠ -1 with
  | none =>
    refine .inl ⟨rfl, fun k => ?_⟩
    have := List.find?_eq_none.mp hf k (List.mem_finRange k)
    simpa using this
  | some k =>
    have := List.find?_some hf
    exact .inr ⟨k, by simpa using this, rfl⟩

theorem Refines.marked (h : Refines s flat) {lpn : ℕ} (hl : lpn < nLpns) (hlink : s.link lpn ≠ -1)
    {k : Fin 8} (hk : s.bufferIsValid (s.link lpn) k ≠ -1) :
    s.bufferPblk (s.link lpn) k = page flat lpn k := by
  rw [← h.page_eq lpn hl, Ftl.merged, if_pos ⟨hlink, hk⟩]

theorem Refines.unmarked (h : Refines s flat) {lpn : ℕ} (hl : lpn < nLpns) {k : Fin 8}
    (hk : s.link lpn = -1 ∨ s.bufferIsValid (s.link lpn) k = -1) :
    s.page nBanks lpn k = page flat lpn k := by
  rw [← h.page_eq lpn hl, Ftl.merged, if_neg]
  rintro ⟨h1, h2⟩
  exact hk.elim h1 h2

/-- The page `lpn` as `ftl_flush` gathers it from entry `e`, with the state after the read. -/
def gather (s : Ftl) (e lpn : ℕ) : Ftl × Sectors :=
  if (s.row (lpn % nBanks)).l2p (lpn / nBanks) ≠ -1 then
    let rd := ftlRead s (lpn * 8) 8 s.stack.data.get
    (rd.1, fun k => if s.bufferIsValid e k ≠ -1 then s.bufferPblk e k else rd.2 k.val)
  else (s, fun k => if s.bufferIsValid e k ≠ -1 then s.bufferPblk e k else blank)

theorem gather_bufferL2p (s : Ftl) (e lpn : ℕ) : (gather s e lpn).1.bufferL2p = s.bufferL2p := by
  unfold gather
  split_ifs
  · rfl
  · rfl

theorem gather_bufferIsValid (s : Ftl) (e lpn : ℕ) :
    (gather s e lpn).1.bufferIsValid = s.bufferIsValid := by
  unfold gather
  split_ifs
  · rfl
  · rfl

/-- An entry without a mark is skipped; any other is written to the page linked to it. -/
theorem Linked.flushEntry_cases (h : Linked s) {e : ℕ} (he : e < nBuffers) :
    ((∀ k, s.bufferIsValid (e : ℕ) k = -1) ∧ flushEntry s e = s) ∨
      ∃ lpn < nLpns, s.link lpn = (e : ℕ) ∧ flushEntry s e =
        writeThroughLpn ((gather s e lpn).1.drop lpn) (lpn % nBanks) (lpn / nBanks)
          (gather s e lpn).2 := by
  rcases firstMark_cases (s.bufferIsValid e) with ⟨hfirst, hall⟩ | ⟨k, hk, hfirst⟩
  · refine .inl ⟨hall, ?_⟩
    unfold flushEntry flushEntryBy
    simp only
    rw [if_pos hfirst]
  · obtain ⟨lpn, hl, hmark, hlink⟩ := h.linked e he k hk
    rw [hmark] at hfirst
    have hbank : ((lpn : ℤ) % (nBanks : ℕ)).toNat = lpn % nBanks := by
      rw [← Int.natCast_mod, Int.toNat_natCast]
    have hhalf : ((lpn : ℤ) / (nBanks : ℕ)).toNat = lpn / nBanks := by
      rw [← Int.natCast_ediv, Int.toNat_natCast]
    have hlba : ((lpn : ℤ) * 8).toNat = lpn * 8 := by omega
    have hlink' : (gather s e lpn).1.link lpn = (e : ℕ) := by
      rw [Ftl.link, gather_bufferL2p]
      exact hlink
    have hne : (lpn : ℤ) ≠ -1 := by omega
    have hdrop : (gather s e lpn).1.drop lpn = (gather s e lpn).1.unlink lpn :=
      if_pos (by omega)
    refine .inr ⟨lpn, hl, hlink, ?_⟩
    rw [hdrop, Ftl.unlink, hlink']
    unfold flushEntry flushEntryBy
    simp only [hfirst, hbank, hhalf, hlba]
    rw [if_neg hne]
    rfl

/-- Flushing an entry moves its sectors to NAND and frees it. -/
theorem flushEntry_spec (h : Refines s flat) {e : ℕ} (he : e < nBuffers) :
    Refines (flushEntry s e) flat ∧
      (flushEntry s e).bufferIsValid = Function.update s.bufferIsValid (e : ℕ) fun _ => -1 := by
  rcases h.buffer.flushEntry_cases he with ⟨hall, hsame⟩ | ⟨lpn, hl, hlink, hflush⟩
  · have hrow : (fun _ => -1) = s.bufferIsValid (e : ℕ) := (funext hall).symm
    rw [hsame, hrow, Function.update_eq_self]
    exact ⟨h, rfl⟩
  · have hne : s.link lpn ≠ -1 := by omega
    have hbuffered : ∀ k, s.bufferIsValid e k ≠ -1 → s.bufferPblk e k = page flat lpn k := by
      rw [← hlink]
      exact fun k hk => h.marked hl hne hk
    -- the page as it is sent to NAND
    have hgather : Refines (gather s e lpn).1 flat ∧ (gather s e lpn).2 = page flat lpn := by
      unfold gather
      split_ifs with hm
      · have hin : InRange (lpn * 8) 8 := ⟨by decide, by omega⟩
        obtain ⟨hr1, hr2⟩ := h.ftlRead hin s.stack.data.get
        refine ⟨hr1, ?_⟩
        funext k
        simp only
        split_ifs with hk
        · exact hbuffered k hk
        · rw [hr2 k.val k.isLt, page, Nat.mul_comm]
      · refine ⟨h, ?_⟩
        funext k
        simp only
        split_ifs with hk
        · exact hbuffered k hk
        · rw [← h.unmarked hl (.inr (by rw [hlink]; exact not_not.mp hk)),
            h.page_unmapped (not_not.mp hm)]
    have hlink' : (gather s e lpn).1.link lpn = (e : ℕ) := by
      rw [Ftl.link, gather_bufferL2p]
      exact hlink
    rw [hflush]
    constructor
    · refine (hgather.1.write hl (gather s e lpn).2).mono fun a _ => ?_
      rw [hgather.2]
      by_cases ha : a / 8 = lpn
      · rw [if_pos ha, ← ha, get_page]
      · rw [if_neg ha]
    · rw [Ftl.drop, if_pos (by omega)]
      simp only [writeThroughLpn, Ftl.unlink, hlink', gather_bufferIsValid]

theorem flushLoop_kept {P : Ftl → Prop} (hstep : ∀ {s : Ftl}, P s → ∀ {e : ℕ}, e < nBuffers →
      P (flushEntry s e) ∧
        (flushEntry s e).bufferIsValid = Function.update s.bufferIsValid (e : ℕ) fun _ => -1)
    (h : P s) (n : ℕ) (hn : n ≤ nBuffers) :
    P (flushLoop s n) ∧ ∀ e < n, ∀ k, (flushLoop s n).bufferIsValid (e : ℕ) k = -1 := by
  induction n with
  | zero => exact ⟨h, fun e he => absurd he (Nat.not_lt_zero e)⟩
  | succ n ih =>
    obtain ⟨h1, h2⟩ := ih (by omega)
    obtain ⟨h3, h4⟩ := hstep h1 (show n < nBuffers by omega)
    refine ⟨h3, fun e he k => ?_⟩
    rw [flushLoop_succ, h4]
    by_cases hen : e = n
    · rw [hen, Function.update_self]
    · rw [Function.update_of_ne (by omega)]
      exact h2 e (by omega) k

theorem Refines.ftlFlush (h : Refines s flat) : Refines (ftlFlush s) flat ∧
    ∀ e < nBuffers, ∀ k, (ftlFlush s).bufferIsValid (e : ℕ) k = -1 := by
  rw [ftlFlush_eq]
  exact flushLoop_kept (P := fun s => Refines s flat) (fun h _ he => flushEntry_spec h he) h
    nBuffers le_rfl

end Flush

section Direct
variable {w w' : Writing} {lpn : ℕ}

/-- `w'` has the page ready for the patch: its buffered copy is dropped, and `data` holds its
sectors outside the patch. -/
structure Prepared (flat : ℕ → Word) (lpn off n : ℕ) (w w' : Writing) : Prop where
  refines : ∃ s, Refines s flat ∧ w'.ftl = s.drop lpn
  cur : w'.cur = w.cur
  data : ∀ k : Fin 8, ¬(off ≤ k.val ∧ k.val < off + n) → w'.data k = page flat lpn k

theorem clear_marks (marks : Sectors) :
    (fun k => if marks k ≠ -1 then -1 else marks k) = fun _ => (-1 : Word) := by
  funext k
  split_ifs with hk
  · rfl
  · exact not_not.mp hk

theorem absorb_prepared (h : Refines w.ftl flat) (hl : lpn < nLpns) {off n : ℕ}
    (hdata : ∀ k : Fin 8, ¬(off ≤ k.val ∧ k.val < off + n) → w.data k = w.ftl.page nBanks lpn k) :
    Prepared flat lpn off n w (w.absorb (lpn % nBanks) (lpn / nBanks)) := by
  unfold Writing.absorb
  rw [bufferL2p_linkIdx]
  split_ifs with hlink
  · have hcheck : (writeDirectlyNandBufferCheck w.ftl (lpn % nBanks) (lpn / nBanks) w.data).1 =
        w.ftl.drop lpn := by
      rw [Ftl.drop, if_pos hlink, writeDirectlyNandBufferCheck]
      simp only [bufferL2p_linkIdx]
      rw [clear_marks]
      rfl
    refine ⟨⟨w.ftl, h, hcheck⟩, rfl, fun k hk => ?_⟩
    simp only [writeDirectlyNandBufferCheck, bufferL2p_linkIdx]
    by_cases hmark : w.ftl.bufferIsValid (w.ftl.link lpn) k = -1
    · rw [if_neg (not_not.mpr hmark), hdata k hk]
      exact h.unmarked hl (.inr hmark)
    · rw [if_pos hmark]
      exact h.marked hl hlink hmark
  · refine ⟨⟨w.ftl, h, by rw [Ftl.drop, if_neg hlink]⟩, rfl, fun k hk => ?_⟩
    rw [hdata k hk]
    exact h.unmarked hl (.inl (not_not.mp hlink))

theorem load_prepared (h : Refines w.ftl flat) (hl : lpn < nLpns) {off n : ℕ} (pad : Sectors)
    (hpad : ∀ k : Fin 8, ¬(off ≤ k.val ∧ k.val < off + n) → pad k = blank) :
    Prepared flat lpn off n w
      ((w.load (lpn % nBanks) (lpn / nBanks) pad).absorb (lpn % nBanks) (lpn / nBanks)) := by
  unfold Writing.load
  simp only
  split_ifs with hm
  · have := @absorb_prepared _ { w with data := pad } _ h hl off n
      fun k hk => by rw [h.page_unmapped hm]; exact hpad k hk
    exact ⟨this.refines, this.cur, this.data⟩
  · have hrd := h.readPpn hm w.data
    rw [hrd]
    have := @absorb_prepared _ { w with
        data := w.ftl.page nBanks lpn
        ftl := { w.ftl with codes := .success :: w.ftl.codes } } _
      (h.codes fun _ hc => List.mem_singleton.mp hc) hl off n fun k _ => rfl
    exact ⟨this.refines, this.cur, this.data⟩

/-- The first `pp` pages of the request have been written to NAND. -/
structure Written (r : Request) (flat buf : ℕ → Word) (pp : ℕ) (w : Writing) : Prop where
  refines : Refines w.ftl (writeFlat flat r.lba (r.pos pp) buf)
  cur : w.cur = r.pos pp

theorem Written.round (hn : 0 < r.nsect) {pp : ℕ} (hpp : pp < r.sendKazu) (hl : r.lpn pp < nLpns)
    (h : Written r flat buf pp w)
    (hw' : Prepared (writeFlat flat r.lba (r.pos pp) buf) (r.lpn pp) (r.start pp)
      (r.count pp) w w') :
    Written r flat buf (pp + 1)
      (w'.send buf (r.lpn pp % nBanks) (r.lpn pp / nBanks) (r.start pp) (r.count pp)) := by
  obtain ⟨s, hs, hftl⟩ := hw'.refines
  have hpos := Request.pos_succ hn hpp
  constructor
  · rw [Request.writeFlat_step hn hpp, Writing.send, Writing.sendBy]
    simp only
    rw [patch_congr _ hw'.data, hftl, hw'.cur, h.cur]
    exact hs.write hl _
  · rw [Writing.send, Writing.sendBy, hpos, hw'.cur, h.cur]

theorem directPage_written (hn : 0 < r.nsect) (hmany : r.sendKazu ≠ 1) {pp : ℕ}
    (hpp : pp < r.sendKazu) (hl : r.lpn pp < nLpns) (h : Written r flat buf pp w) :
    Written r flat buf (pp + 1) (directPage r buf pp w) := by
  unfold directPage directPageBy
  obtain ⟨rfl, hstart, hcount⟩ | ⟨h0, hlast, hstart, hcount⟩ | ⟨h0, hlast, hstart, hcount⟩ :=
    Request.page_cases hmany pp
  · have hround := h.round hn hpp hl
      (load_prepared h.refines hl _ (Request.pad_first hstart hcount w.data))
    rw [hstart, hcount] at hround
    rw [if_pos rfl]
    exact hround
  · have hround := h.round hn hpp hl
      (load_prepared h.refines hl _ (Request.pad_last hstart hcount w.data))
    rw [hstart, hcount] at hround
    rw [if_neg h0, if_pos hlast]
    exact hround
  · have hround := h.round hn hpp hl (absorb_prepared h.refines hl fun k hk =>
      absurd (Request.mem_middle hstart hcount k) hk)
    rw [hstart, hcount] at hround
    rw [if_neg h0, if_neg hlast]
    exact hround

theorem directSingle_written (hn : 0 < r.nsect) (hone : r.sendKazu = 1) (hl : r.lpn 0 < nLpns)
    (h : Written r flat buf 0 w) : Written r flat buf 1 (directSingle r buf w) := by
  have hoff := Request.single_offsets hn hone
  have hround := h.round hn Request.sendKazu_pos hl
    (load_prepared h.refines hl _ (Request.pad_single hn hone w.data))
  rw [Request.start_zero, Request.count_single hone] at hround
  have hcount : r.lastLbaOffset - r.firstLbaOffset + 1 = r.nsect := by omega
  unfold directSingle directSingleBy
  rw [hcount]
  simpa only [Request.lpn, Nat.zero_add, Writing.send] using hround

theorem Refines.writeDirectlyNand (h : Refines s flat) {lba nsect : ℕ} (hin : InRange lba nsect)
    (buf : ℕ → Word) :
    Refines (writeDirectlyNand s lba nsect buf) (writeFlat flat lba nsect buf) := by
  let r : Request := ⟨lba, nsect⟩
  have hn : 0 < r.nsect := hin.1
  have hl : ∀ pp < r.sendKazu, r.lpn pp < nLpns := fun pp hpp => Request.lpn_lt hn hpp hin.2
  have hstart : Written r flat buf 0 ⟨s, 0, s.stack.data⟩ := by
    refine ⟨?_, (Request.pos_zero r).symm⟩
    rwa [Request.pos_zero, writeFlat_zero]
  have hfinal : Written r flat buf r.sendKazu
      (if r.sendKazu = 1 then directSingle r buf ⟨s, 0, s.stack.data⟩
        else directLoop r buf ⟨s, 0, s.stack.data⟩ r.sendKazu) := by
    split_ifs with hone
    · have hsingle := directSingle_written hn hone (hl 0 Request.sendKazu_pos) hstart
      rwa [← hone] at hsingle
    · have hloop : ∀ pp ≤ r.sendKazu,
          Written r flat buf pp (directLoop r buf ⟨s, 0, s.stack.data⟩ pp) := by
        intro pp
        induction pp with
        | zero => exact fun _ => hstart
        | succ pp ih =>
          intro hpp
          exact directPage_written hn hone (by omega) (hl pp (by omega)) (ih (by omega))
      exact hloop _ le_rfl
  have hres := hfinal.refines
  rw [Request.pos_sendKazu hn] at hres
  exact hres

end Direct

end BufferedFtl
