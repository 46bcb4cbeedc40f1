import Coursework.PageMap.Banks

/-! Moving sectors between pages and a caller's buffer: what the `ftl_read` and `ftl_write`
of labs 2 and 3 share. -/
namespace PageMap
open Nand Sector

/-- The locals of `ftl_read`: the caller's buffer, the position of `current_read_buffer`
in it, `data`, and the NAND return codes. -/
structure Reading where
  buf : ℕ → Word
  cur : ℕ
  data : Sectors
  codes : List Code

/-- The first `pp` pages of the request have been read, all without an error. -/
structure Filled (r : Request) (flat buf : ℕ → Word) (pp : ℕ) (st : Reading) : Prop
    extends r.Filled flat buf pp st.buf st.cur where
  codes : ∀ c ∈ st.codes, c = .success

section Filled
variable {r : Request} {flat buf : ℕ → Word} {st : Reading}

theorem Filled.start (r : Request) (flat buf : ℕ → Word) (data : Sectors) :
    Filled r flat buf 0 ⟨buf, 0, data, []⟩ :=
  ⟨Request.Filled.start r flat buf, fun _ hc => absurd hc List.not_mem_nil⟩

theorem Filled.round (hn : 0 < r.nsect) {pp : ℕ} (hpp : pp < r.sendKazu)
    (h : Filled r flat buf pp st) {st' : Reading}
    (hcur : st'.cur = st.cur + r.count pp) (hcodes : ∀ c ∈ st'.codes, c = .success)
    (hbuf : st'.buf = store st.buf st.cur (r.count pp)
      fun i => (page flat (r.lpn pp)).get (r.start pp + i)) :
    Filled r flat buf (pp + 1) st' := by
  refine ⟨?_, hcodes⟩
  rw [hbuf, hcur]
  exact h.toFilled.store hn hpp

end Filled

namespace Banks
variable {α : Type} {g : Geometry} {nBanks : ℕ} {s : Banks α}

/-- `nand_read(bank, ppn/PAGES_PER_BLK, ppn%PAGES_PER_BLK, data, &spare)`. -/
def readPpn (g : Geometry) (s : Banks α) (bank : ℕ) (ppn : ℤ) (data : Sectors) :
    Code × Page Sectors ℕ :=
  nandRead s.nand bank (ppn / g.pagesPerBlk) (ppn % g.pagesPerBlk) data s.stack.spare

theorem Ok.codes (h : s.Ok g nBanks) {codes : List Code} (hc : ∀ c ∈ codes, c = .success) :
    Ok g nBanks { s with codes := codes ++ s.codes } := by
  refine ⟨fun b hb => ?_⟩
  obtain ⟨hfits, hinv, hclean⟩ := h.bank_ok b hb
  refine ⟨hfits, hinv, fun c hmem => ?_⟩
  rcases List.mem_append.mp hmem with hmem | hmem
  · exact hc c hmem
  · exact hclean c hmem

theorem Ok.locals (h : s.Ok g nBanks) (stats : Stats) (stack : Page Sectors ℕ) :
    Ok g nBanks { s with stats := stats, stack := stack } := by
  refine ⟨fun b hb => ?_⟩
  obtain ⟨hfits, hinv, hclean⟩ := h.bank_ok b hb
  exact ⟨hfits, hinv, hclean⟩

end Banks

end PageMap
