import Coursework.PageMap.Collection

/-! All banks of a page-mapping FTL together. Logical pages are striped over the banks:
page `lpn` is page `lpn / nBanks` of bank `lpn % nBanks`. -/
namespace PageMap
open Nand Sector Paging

variable {α : Type} {g : Geometry} {nBanks : ℕ}

/-- The rows of all banks, and what the banks share. -/
structure Banks (α : Type) where
  row : ℕ → Row α
  nand : Device Sectors ℕ
  stats : Stats
  stack : Page Sectors ℕ
  codes : List Code

namespace Banks

/-- The view of the state that a call for one bank works on. -/
def bank (s : Banks α) (b : ℕ) : Bank α where
  toRow := s.row b
  nand := s.nand
  stats := s.stats
  stack := s.stack
  codes := s.codes

/-- The state after a call for bank `b` left it at `x`. -/
def put (s : Banks α) (b : ℕ) (x : Bank α) : Banks α where
  row := Function.update s.row b x.toRow
  nand := x.nand
  stats := x.stats
  stack := x.stack
  codes := x.codes

/-- `write_through_lpn(bank, halved_lpn, data)`. -/
def writeThroughLpn (g : Geometry) (h : Hooks α) (s : Banks α) (b lpn : ℕ) (data : Sectors) :
    Banks α :=
  s.put b (PageMap.writeThroughLpn g h b lpn data (s.bank b))

/-- The state of one bank when `ftl_open` returns: the last block is the spare one. -/
def initRow (g : Geometry) (aux : α) : Row α where
  l2p := fun _ => -1
  isValid := fun _ => true
  nextPpn := 0
  gcTriggerPpn := (g.blksPerBank - 1) * g.pagesPerBlk
  freePblk := g.blksPerBank - 1
  aux := aux

/-- The NAND after the `nand_init` of `ftl_open`. -/
def initNand (g : Geometry) (nBanks : ℕ) (mem : ℕ → Page Sectors ℕ) :
    Option (Device Sectors ℕ) := nandInit mem nBanks g.blksPerBank g.pagesPerBlk

/-- The core invariant holds in every bank. -/
structure Ok (g : Geometry) (nBanks : ℕ) (s : Banks α) : Prop where
  bank_ok : ∀ b < nBanks, (s.bank b).Ok g b

/-- What logical page `lpn` holds; a page never written reads as blank. -/
def page (nBanks : ℕ) (s : Banks α) (lpn : ℕ) : Sectors :=
  ((s.bank (lpn % nBanks)).content (lpn % nBanks) (lpn / nBanks)).getD fun _ => blank

theorem initRow_ok {n : Device Sectors ℕ} {mem : ℕ → Page Sectors ℕ}
    (hn : initNand g nBanks mem = some n) {b : ℕ} (hb : b < nBanks) (aux : α) (stats : Stats)
    (stack : Page Sectors ℕ) :
    ({ toRow := initRow g aux, nand := n, stats := stats, stack := stack, codes := [] }
      : Bank α).Ok g b := by
  obtain ⟨h1, h2, h3, hcell⟩ := cell_nandInit hn
  have hblks := g.blks_pos
  have hphys : n.phys b = fun _ => none := funext fun p => hcell _ _ _
  refine ⟨⟨by simp only; omega, by simp only; omega, by simp only; omega⟩, ⟨?_, ?_, ?_⟩,
    fun c hc => absurd hc List.not_mem_nil⟩
  · simp only [hphys]
    constructor
    · constructor
      · intro k p hl
        simp [Row.log, initRow] at hl
      · intro p _
        simp [Row.log, initRow]
    · intro p
      simp only [Row.log, initRow, Option.map_none, Option.isSome_none, Bool.false_eq_true,
        false_iff, not_and]
      intro _ h2 h3 h4
      have hP := g.pages_pos
      have hlt : p / g.pagesPerBlk < g.blksPerBank := (Nat.div_lt_iff_lt_mul hP).mpr h2
      have hlt' : p / g.pagesPerBlk < g.blksPerBank - 1 := by omega
      have := (Nat.div_lt_iff_lt_mul hP).mp hlt'
      omega
    · exact Nat.zero_le _
    · exact Nat.sub_lt hblks Nat.one_pos
    · simp [initRow]
    · exact Nat.zero_le _
    · exact Nat.mul_le_mul_right _ (Nat.sub_le _ _)
    · exact Dvd.intro_left _ rfl
    · intro p _ h2
      have := (Nat.div_lt_iff_lt_mul g.pages_pos).mpr h2
      exact this.ne
  · intro l
    simp [initRow]
  · intro l hl
    simp [initRow] at hl

theorem bank_put_other {s : Banks α} {b b' : ℕ} {x : Bank α} (hb : b' ≠ b) :
    ((s.put b x).bank b').toRow = (s.bank b').toRow := by
  simp [put, bank, hb]

theorem put_ok {s : Banks α} (hs : s.Ok g nBanks) {b : ℕ} {x : Bank α} (hx : x.Ok g b)
    (heffect : (s.bank b).Effect b x) : (s.put b x).Ok g nBanks := by
  refine ⟨fun b' hb' => ?_⟩
  by_cases he : b' = b
  · subst he
    simpa [put, bank] using hx
  · have hold := hs.bank_ok b' hb'
    refine ⟨hold.fits.of_local heffect.isLocal, ?_, hx.clean⟩
    have hphys := heffect.isLocal.phys b' he
    rw [bank_put_other he]
    change (s.bank b').toRow.Inv g (x.nand.phys b')
    rw [hphys]
    exact hold.inv

theorem writeThroughLpn_ok (h : Hooks α) {s : Banks α} (hs : s.Ok g nBanks) {b lpn : ℕ}
    (hb : b < nBanks) (hl : lpn < g.nLpnsPb) (data : Sectors) :
    (s.writeThroughLpn g h b lpn data).Ok g nBanks :=
  have hspec := PageMap.writeThroughLpn_spec h (hs.bank_ok b hb) hl data
  put_ok hs hspec.1 hspec.2.1

/-- A write through the core changes the one logical page. -/
theorem content_writeThroughLpn (h : Hooks α) {s : Banks α} (hs : s.Ok g nBanks) {b lpn : ℕ}
    (hb : b < nBanks) (hl : lpn < g.nLpnsPb) (data : Sectors) (b' l' : ℕ) :
    ((s.writeThroughLpn g h b lpn data).bank b').content b' l' =
      if b' = b ∧ l' = lpn then some data else (s.bank b').content b' l' := by
  obtain ⟨-, h2, h3⟩ := PageMap.writeThroughLpn_spec h (hs.bank_ok b hb) hl data
  by_cases he : b' = b
  · subst he
    have hbank : (s.writeThroughLpn g h b' lpn data).bank b' =
        PageMap.writeThroughLpn g h b' lpn data (s.bank b') := by
      simp [Banks.writeThroughLpn, put, bank]
    rw [hbank, h3]
    by_cases hl' : l' = lpn <;> simp [hl']
  · have hrow := bank_put_other (s := s)
      (x := PageMap.writeThroughLpn g h b lpn data (s.bank b)) he
    have hphys := h2.isLocal.phys b' he
    rw [if_neg (fun hc => he hc.1)]
    simp only [Bank.content, Banks.writeThroughLpn]
    rw [hrow]
    change PageLog.value (Row.log _
      ((PageMap.writeThroughLpn g h b lpn data (s.bank b)).nand.phys b')) _ = _
    rw [hphys]
    rfl

theorem page_writeThroughLpn (h : Hooks α) {s : Banks α} (hs : s.Ok g nBanks) {lpn : ℕ}
    (hl : lpn < g.nLpnsPb * nBanks) (data : Sectors) :
    (s.writeThroughLpn g h (lpn % nBanks) (lpn / nBanks) data).page nBanks =
      Function.update (s.page nBanks) lpn data := by
  have hpos : 0 < nBanks := by
    rcases Nat.eq_zero_or_pos nBanks with h0 | h0
    · simp [h0] at hl
    · exact h0
  funext lpn'
  unfold page
  rw [content_writeThroughLpn h hs (Nat.mod_lt _ hpos)
    (Nat.div_lt_of_lt_mul (by rwa [Nat.mul_comm]))]
  by_cases he : lpn' = lpn
  · subst he
    simp
  · rw [if_neg, Function.update_of_ne he]
    rintro ⟨h1, h2⟩
    apply he
    rw [← Nat.div_add_mod lpn' nBanks, ← Nat.div_add_mod lpn nBanks, h1, h2]

theorem Ok.read {s : Banks α} (hs : s.Ok g nBanks) {lpn : ℕ} (hpos : 0 < nBanks)
    (hm : (s.row (lpn % nBanks)).l2p (lpn / nBanks) ≠ -1) (data : Sectors) (spare : ℕ) :
    nandRead s.nand (lpn % nBanks : ℕ)
        ((s.row (lpn % nBanks)).l2p (lpn / nBanks) / g.pagesPerBlk)
        ((s.row (lpn % nBanks)).l2p (lpn / nBanks) % g.pagesPerBlk) data spare =
      (.success, ⟨s.page nBanks lpn, lpn / nBanks⟩) := by
  obtain ⟨d, hd, hr⟩ := (hs.bank_ok _ (Nat.mod_lt lpn hpos)).read hm
  rw [page, hd]
  exact hr data spare

theorem Ok.page_unmapped {s : Banks α} (hs : s.Ok g nBanks) {lpn : ℕ} (hpos : 0 < nBanks)
    (hm : (s.row (lpn % nBanks)).l2p (lpn / nBanks) = -1) :
    s.page nBanks lpn = fun _ => blank := by
  rw [page, ((hs.bank_ok _ (Nat.mod_lt lpn hpos)).content_eq_none _).mpr hm]
  rfl

end Banks

/-! Unmapping a page, as `ftl_trim` of lab 3 does it. -/

/-- The row with a mapped page unmapped and its page flagged invalid. -/
def Row.unmap (r : Row α) (l : ℕ) : Row α := (r.invalidate (r.l2p l).toNat).reset l

theorem log_remove {r : Row α} {phys : ℕ → Option (Page Sectors ℕ)} {l : ℕ} (hm : r.l2p l ≠ -1) :
    (r.log phys).remove l = (r.unmap l).log phys := by
  unfold PageLog.remove PageLog.discard Row.log Row.unmap Row.invalidate Row.reset
  congr 1
  · funext k
    by_cases hk : k = l
    · subst hk
      simp
    · simp [hk]
  · simp [entry, hm]

theorem Row.Inv.unmap {r : Row α} {phys : ℕ → Option (Page Sectors ℕ)} (h : r.Inv g phys) {l : ℕ}
    (hm : r.l2p l ≠ -1) : (r.unmap l).Inv g phys := by
  have hspace := h.space.remove l
  rw [log_remove hm] at hspace
  refine ⟨hspace, fun k => ?_, fun k hk => ?_⟩
  · by_cases hkl : k = l
    · simp [Row.unmap, Row.invalidate, Row.reset, hkl]
    · simpa [Row.unmap, Row.invalidate, Row.reset, hkl] using h.entry_ge k
  · by_cases hkl : k = l
    · simp [Row.unmap, Row.invalidate, Row.reset, hkl] at hk
    · exact h.lpn_lt k (by simpa [Row.unmap, Row.invalidate, Row.reset, hkl] using hk)

theorem Row.Inv.l2p_lt {r : Row α} {phys : ℕ → Option (Page Sectors ℕ)} (h : r.Inv g phys) {l : ℕ}
    (hm : r.l2p l ≠ -1) : ∃ p : ℕ, r.l2p l = p ∧ p < g.blksPerBank * g.pagesPerBlk := by
  have hge := h.entry_ge l
  obtain ⟨p, hp⟩ : ∃ p : ℕ, r.l2p l = p := ⟨(r.l2p l).toNat, by omega⟩
  have hloc : (r.log phys).loc l = some p := by simp [Row.log, hp]
  obtain ⟨-, d, hcell⟩ := h.space.consistent.located hloc
  exact ⟨p, hp, (h.space.written_iff.mp (Option.isSome_iff_exists.mpr ⟨_, hcell⟩)).2.1⟩

namespace Banks

/-- The state with a mapped page unmapped. -/
def unmap (s : Banks α) (b lpn : ℕ) : Banks α :=
  { s with row := Function.update s.row b ((s.row b).unmap lpn) }

theorem unmap_ok {s : Banks α} (hs : s.Ok g nBanks) {b lpn : ℕ} (hm : (s.row b).l2p lpn ≠ -1) :
    (s.unmap b lpn).Ok g nBanks := by
  refine ⟨fun b' hb' => ?_⟩
  obtain ⟨hfits, hinv, hclean⟩ := hs.bank_ok b' hb'
  refine ⟨hfits, ?_, hclean⟩
  by_cases he : b' = b
  · subst he
    have := hinv.unmap hm
    simpa [bank, unmap] using this
  · simpa [bank, unmap, he] using hinv

/-- Unmapping a page makes it read as blank. -/
theorem page_unmap {s : Banks α} {lpn : ℕ}
    (hm : (s.row (lpn % nBanks)).l2p (lpn / nBanks) ≠ -1) :
    (s.unmap (lpn % nBanks) (lpn / nBanks)).page nBanks =
      Function.update (s.page nBanks) lpn fun _ => blank := by
  funext lpn'
  by_cases hb : lpn' % nBanks = lpn % nBanks
  · have hval := @log_remove _ (s.row (lpn % nBanks)) (s.nand.phys (lpn % nBanks)) _ hm
    have hcontent : ((s.unmap (lpn % nBanks) (lpn / nBanks)).bank (lpn % nBanks)).content
        (lpn % nBanks) = Function.update ((s.bank (lpn % nBanks)).content (lpn % nBanks))
          (lpn / nBanks) none := by
      funext l
      have := congrFun (PageLog.value_remove ((s.row (lpn % nBanks)).log
        (s.nand.phys (lpn % nBanks))) (lpn / nBanks)) l
      rw [hval] at this
      by_cases hl : l = lpn / nBanks
      · simpa [Bank.content, bank, unmap, hl] using this
      · simpa [Bank.content, bank, unmap, hl] using this
    rw [page, hb, hcontent]
    by_cases he : lpn' = lpn
    · subst he
      simp
    · have hdiv : lpn' / nBanks ≠ lpn / nBanks := by
        intro hd
        apply he
        rw [← Nat.div_add_mod lpn' nBanks, ← Nat.div_add_mod lpn nBanks, hb, hd]
      rw [Function.update_of_ne hdiv, Function.update_of_ne he, page, hb]
  · have he : lpn' ≠ lpn := fun he => hb (by rw [he])
    rw [Function.update_of_ne he, page, page]
    simp [Bank.content, bank, unmap, hb]

end Banks

end PageMap
