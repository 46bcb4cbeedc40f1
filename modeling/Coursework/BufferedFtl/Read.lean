import Coursework.BufferedFtl.Buffer

/-! `ftl_read` of lab 3 hands out the flat array the device stands for. -/
namespace BufferedFtl
open Nand Sector PageMap

variable {s : Ftl} {flat buf : ℕ → Word} {r : Request} {st : Reading}

theorem overlay_store (marks pblk : Sectors) (buf : ℕ → Word) (cur off n : ℕ) (src : ℕ → Word) :
    overlay marks pblk (store buf cur n src) cur off n = store buf cur n fun i =>
      if marks.get (off + i) ≠ -1 then pblk.get (off + i) else src i := by
  funext j
  unfold overlay store
  by_cases hj : cur ≤ j ∧ j < cur + n
  · simp only [hj, and_self, true_and, ↓reduceIte, Nat.add_comm off]
  · simp only [hj, false_and, ↓reduceIte]

theorem Refines.readPpn (h : Refines s flat) {lpn : ℕ}
    (hm : (s.row (lpn % nBanks)).l2p (lpn / nBanks) ≠ -1) (data : Sectors) :
    s.readPpn geometry (lpn % nBanks) ((s.row (lpn % nBanks)).l2p (lpn / nBanks)) data =
      (.success, ⟨s.page nBanks lpn, lpn / nBanks⟩) :=
  h.ok.read (by decide) hm data _

theorem Refines.page_unmapped (h : Refines s flat) {lpn : ℕ}
    (hm : (s.row (lpn % nBanks)).l2p (lpn / nBanks) = -1) :
    s.page nBanks lpn = fun _ => blank := h.ok.page_unmapped (by decide) hm

/-- Each page of a read delivers the sectors of the flat array. -/
theorem readSectors_spec (h : Refines s flat) {lpn : ℕ} (hl : lpn < nLpns) (off n : ℕ) :
    (readSectors s lpn off n n st).buf =
        store st.buf st.cur n (fun i => (page flat lpn).get (off + i)) ∧
      (readSectors s lpn off n n st).cur = st.cur ∧
      ((∀ c ∈ st.codes, c = .success) → ∀ c ∈ (readSectors s lpn off n n st).codes, c = .success)
    := by
  -- the sectors delivered by the NAND part
  obtain ⟨st₁, h₁, hbuf, hcur, hcodes⟩ : ∃ st₁ : Reading,
      st₁ = (if (s.row (lpn % nBanks)).l2p (lpn / nBanks) = -1 then
          { st with buf := store st.buf st.cur n fun _ => blank }
        else
          let rd := s.readPpn geometry (lpn % nBanks) ((s.row (lpn % nBanks)).l2p (lpn / nBanks))
            st.data
          { st with
            buf := store st.buf st.cur n fun i => rd.2.data.get (off + i)
            data := rd.2.data
            codes := rd.1 :: st.codes }) ∧
      st₁.buf = store st.buf st.cur n (fun i => (s.page nBanks lpn).get (off + i)) ∧
      st₁.cur = st.cur ∧ ((∀ c ∈ st.codes, c = .success) → ∀ c ∈ st₁.codes, c = .success) := by
    refine ⟨_, rfl, ?_⟩
    split_ifs with hm
    · exact ⟨by rw [h.page_unmapped hm]; rfl, rfl, fun hc => hc⟩
    · have hrd := h.readPpn hm st.data
      simp only [hrd]
      refine ⟨trivial, trivial, fun hc c hmem => ?_⟩
      rcases List.mem_cons.mp hmem with rfl | hmem
      · rfl
      · exact hc c hmem
  unfold readSectors
  simp only
  rw [← h₁, ← h.page_eq lpn hl]
  by_cases hlink : s.link lpn = -1
  · rw [if_neg (not_not.mpr hlink)]
    refine ⟨?_, hcur, hcodes⟩
    rw [hbuf]
    congr 1
    funext i
    rw [Sectors.get, Sectors.get, Ftl.merged, if_neg (fun hc => hc.1 hlink)]
  · rw [if_pos hlink]
    refine ⟨?_, hcur, hcodes⟩
    simp only [hbuf, hcur]
    rw [overlay_store]
    congr 1
    funext i
    simp only [Sectors.get, Ftl.merged, hlink, ne_eq, not_false_eq_true, true_and]
    rfl

theorem readPage_filled (hs : Refines s flat) (hn : 0 < r.nsect) (hmany : r.sendKazu ≠ 1)
    {pp : ℕ} (hpp : pp < r.sendKazu) (hl : r.lpn pp < nLpns) (h : Filled r flat buf pp st) :
    Filled r flat buf (pp + 1) (readPage s r pp st) := by
  obtain ⟨off, n, hoff, hcount, hread⟩ : ∃ off n, r.start pp = off ∧ r.count pp = n ∧
      readPage s r pp st = { readSectors s (r.lpn pp) off n n st with cur := st.cur + n } := by
    unfold readPage
    obtain ⟨rfl, hoff, hcount⟩ | ⟨h0, hlast, hoff, hcount⟩ | ⟨h0, hlast, hoff, hcount⟩ :=
      Request.page_cases hmany pp
    · exact ⟨_, _, hoff, hcount, if_pos rfl⟩
    · exact ⟨_, _, hoff, hcount, by rw [if_neg h0, if_pos hlast]; rfl⟩
    · exact ⟨_, _, hoff, hcount, by rw [if_neg h0, if_neg hlast]; rfl⟩
  obtain ⟨h1, -, h3⟩ := @readSectors_spec _ _ st hs _ hl off n
  rw [hread]
  subst hoff hcount
  exact h.round hn hpp rfl (h3 h.codes) h1

theorem readSingle_filled (hs : Refines s flat) (hn : 0 < r.nsect) (hone : r.sendKazu = 1)
    (hl : r.lpn 0 < nLpns) (h : Filled r flat buf 0 st) :
    (∀ j < r.nsect, (readSingle s r st).buf j = flat (r.lba + j)) ∧
      ∀ c ∈ (readSingle s r st).codes, c = .success := by
  have hoff := Request.single_offsets hn hone
  have hm : r.lastLbaOffset + 1 - r.firstLbaOffset = r.nsect := by omega
  have hlpn : r.lpn 0 = r.firstPageFirstLba / 8 := Nat.zero_add _
  have hpos : r.pos (0 + 1) = r.nsect := by
    have := Request.pos_sendKazu hn
    rwa [hone] at this
  have hstep := Request.store_step hn (show 0 < r.sendKazu by omega) h.done
  rw [Request.count_single hone, Request.start_zero, ← h.cur, hpos] at hstep
  obtain ⟨h1, -, h3⟩ := @readSectors_spec _ _ st hs _ hl r.firstLbaOffset r.nsect
  unfold readSingle
  rw [hm, ← hlpn]
  exact ⟨fun j hj => by rw [h1]; exact hstep j hj, h3 h.codes⟩

/-- `ftl_read` fills in all sectors of the request and leaves the device as it stands. -/
theorem Refines.ftlRead (h : Refines s flat) {lba nsect : ℕ} (hin : InRange lba nsect)
    (buf : ℕ → Word) :
    Refines (ftlRead s lba nsect buf).1 flat ∧
      ∀ i < nsect, (ftlRead s lba nsect buf).2 i = flat (lba + i) := by
  let r : Request := ⟨lba, nsect⟩
  have hn : 0 < r.nsect := hin.1
  have hl : ∀ pp < r.sendKazu, r.lpn pp < nLpns := fun pp hpp => Request.lpn_lt hn hpp hin.2
  have hstart := Filled.start r flat buf s.stack.data
  unfold BufferedFtl.ftlRead
  change Refines { s with codes := (if r.sendKazu = 1 then readSingle s r ⟨buf, 0, s.stack.data, []⟩
      else readLoop s r ⟨buf, 0, s.stack.data, []⟩ r.sendKazu).codes ++ s.codes } flat ∧
    ∀ i < nsect, (if r.sendKazu = 1 then readSingle s r ⟨buf, 0, s.stack.data, []⟩
      else readLoop s r ⟨buf, 0, s.stack.data, []⟩ r.sendKazu).buf i = flat (lba + i)
  by_cases hone : r.sendKazu = 1
  · rw [if_pos hone]
    obtain ⟨h1, h2⟩ := readSingle_filled h hn hone (hl 0 Request.sendKazu_pos) hstart
    exact ⟨h.codes h2, h1⟩
  · rw [if_neg hone]
    have hloop : ∀ pp ≤ r.sendKazu,
        Filled r flat buf pp (readLoop s r ⟨buf, 0, s.stack.data, []⟩ pp) := by
      intro pp
      induction pp with
      | zero => exact fun _ => hstart
      | succ pp ih =>
        intro hpp
        exact readPage_filled h hn hone (by omega) (hl pp (by omega)) (ih (by omega))
    have hfinal := hloop _ le_rfl
    have hdone := hfinal.done
    rw [Request.pos_sendKazu hn] at hdone
    exact ⟨h.codes hfinal.codes, hdone⟩

end BufferedFtl
