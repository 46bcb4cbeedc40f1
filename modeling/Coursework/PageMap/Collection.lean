import Coursework.PageMap.Invariant

/-! `garbage_collection` and `write_through_lpn` keep the invariant of the bank. Collection
leaves the contents as they are and makes room; a write changes one logical page. All NAND
operations they issue succeed. -/
namespace PageMap
open Nand Sector Paging

variable {α : Type} {g : Geometry} {bank : ℕ}

/-- Every NAND operation recorded so far has succeeded. -/
def Bank.Clean (s : Bank α) : Prop := ∀ c ∈ s.codes, c = .success

/-- What a call for one bank keeps. -/
structure Bank.Ok (g : Geometry) (bank : ℕ) (s : Bank α) : Prop where
  fits : Fits g s.nand bank
  inv : s.toRow.Inv g (s.nand.phys bank)
  clean : s.Clean

/-- What the copy loop has done after its first `i` rounds. -/
structure Copied (g : Geometry) (bank victim : ℕ) (s : Bank α) (i : ℕ) (st : Bank α × ℕ) :
    Prop where
  compacting : PageLog.Compacting g.pagesPerBlk victim s.freePblk ∅
    (s.toRow.log (s.nand.phys bank)) i st.2 (st.1.toRow.log (st.1.nand.phys bank))
  isLocal : Local s.nand st.1.nand bank
  freePblk : st.1.freePblk = s.freePblk
  stack : st.1.stack = s.stack
  hostWrite : st.1.stats.hostWrite = s.stats.hostWrite
  entry_ge : ∀ l, -1 ≤ st.1.l2p l
  lpn_lt : ∀ l, st.1.l2p l ≠ -1 → l < g.nLpnsPb
  clean : st.1.Clean

theorem Copied.round {h : Hooks α} {s : Bank α} {victim i : ℕ} {st : Bank α × ℕ}
    (hs : s.Ok g bank) (he : s.nextPpn = s.gcTriggerPpn) (hvf : victim ≠ s.freePblk)
    (hvb : victim < g.blksPerBank) (hi : i < g.pagesPerBlk) (hc : Copied g bank victim s i st) :
    Copied g bank victim s (i + 1) (gcPage g h bank victim st i) := by
  have hfits := hs.fits.of_local hc.isLocal
  have hnp := hfits.npages
  have hvalid : st.1.isValid = s.isValid := hc.compacting.valid_eq
  unfold gcPage
  simp only
  cases hv : st.1.isValid (victim * g.pagesPerBlk + i) with
  | false =>
    rw [hvalid] at hv
    simp only [Bool.false_eq_true, ↓reduceIte]
    exact { hc with compacting := hc.compacting.skip hi hv }
  | true =>
    simp only [↓reduceIte]
    rw [hvalid] at hv
    have hcP : st.2 < g.pagesPerBlk := hc.compacting.count_le.trans_lt hi
    -- the victim block is full, so its page can be read
    have hfull := hs.inv.space.full he hvf (Nat.zero_le _) hvb hi
    rw [← hc.compacting.cell_other _ (by rw [div_page hi]; exact hvf)] at hfull
    obtain ⟨⟨l, d⟩, hcell⟩ := Option.isSome_iff_exists.mp hfull
    have hcv : st.1.nand.cell bank victim i = some ⟨d, l⟩ := by
      rw [cell_eq_phys (by rw [hnp]; exact hi), hnp]
      exact (cell_eq_some _ _).mp hcell
    have hrd := nandRead_some hcv st.1.stack.data st.1.stack.spare
    -- the spare block is written up to `immigrants_cnt`
    have hfree : st.1.freePblk < g.blksPerBank := by
      rw [hc.freePblk]
      exact hs.inv.space.free_lt
    obtain ⟨n', hwr, hloc, hphys⟩ := @nandWrite_phys _ _ st.1.nand bank st.1.freePblk
      st.2 hfits.bank_lt (by rw [hfits.nblks]; exact hfree) (by rw [hnp]; exact hcP)
      (fun j hj => by
        rw [hnp] at hj ⊢
        rw [← cell_isSome st.1.toRow, hc.compacting.cell_free _ (by
          rw [div_page hj]
          exact hc.freePblk), mod_page hj]) d l
    rw [hnp] at hphys
    have hmove := hc.compacting.move hvf hi hv hcell d (fun _ => rfl)
    have hl : l < g.nLpnsPb := by
      have hloc := hc.compacting.located hi hv hcell
      apply hc.lpn_lt
      intro hneg
      simp [Row.log, hneg] at hloc
    simp only [hrd, hwr]
    refine ⟨?_, hc.isLocal.trans hloc, hc.freePblk, hc.stack, hc.hostWrite, ?_, ?_, ?_⟩
    · rw [log_program, ← hc.freePblk, ← hphys] at hmove
      rw [← hc.freePblk]
      exact hmove
    · intro k
      by_cases hk : k = l
      · subst hk
        simp only [Function.update_self]
        omega
      · simpa [hk] using hc.entry_ge k
    · intro k hk
      by_cases hkl : k = l
      · exact hkl ▸ hl
      · exact hc.lpn_lt k (by simpa [hkl] using hk)
    · intro code hcode
      simp only [List.mem_cons] at hcode
      rcases hcode with rfl | rfl | hcode
      · rfl
      · rfl
      · exact hc.clean code hcode

theorem gcLoop_copied (h : Hooks α) {s : Bank α} {victim : ℕ} (hs : s.Ok g bank)
    (he : s.nextPpn = s.gcTriggerPpn) (hvf : victim ≠ s.freePblk)
    (hvb : victim < g.blksPerBank) :
    ∀ i ≤ g.pagesPerBlk, Copied g bank victim s i (gcLoop g h bank victim s i)
  | 0, _ => ⟨PageLog.Compacting.start hs.inv.space, Local.refl _ _, rfl, rfl, rfl,
      hs.inv.entry_ge, hs.inv.lpn_lt, hs.clean⟩
  | i + 1, hi => (gcLoop_copied h hs he hvf hvb i (by omega)).round hs he hvf hvb (by omega)

/-- What a call of the core for one bank does to the rest of the state. -/
structure Bank.Effect (bank : ℕ) (s s' : Bank α) : Prop where
  isLocal : Local s.nand s'.nand bank
  stack : s'.stack = s.stack
  hostWrite : s'.stats.hostWrite = s.stats.hostWrite

/-- Collecting any full block other than the spare one keeps the contents. It makes room
if the block had an invalid page. -/
theorem collect_spec (h : Hooks α) {s : Bank α} {victim : ℕ} (hs : s.Ok g bank)
    (he : s.nextPpn = s.gcTriggerPpn) (hvf : victim ≠ s.freePblk)
    (hvb : victim < g.blksPerBank) :
    (collect g h bank victim s).Ok g bank ∧ s.Effect bank (collect g h bank victim s) ∧
      (collect g h bank victim s).content bank = s.content bank ∧
      ((∃ i < g.pagesPerBlk, s.isValid (victim * g.pagesPerBlk + i) = false) →
        (collect g h bank victim s).nextPpn < (collect g h bank victim s).gcTriggerPpn) := by
  have hP := g.pages_pos
  have hc := gcLoop_copied h hs he hvf hvb g.pagesPerBlk le_rfl
  generalize hst : gcLoop g h bank victim s g.pagesPerBlk = st at hc
  have hfits := hs.fits.of_local hc.isLocal
  obtain ⟨her, hcode⟩ := @nandErase_eq _ _ st.1.nand bank victim
    hfits.bank_lt (by rw [hfits.nblks]; exact hvb)
  have hsucc : (nandErase st.1.nand bank victim).2 = .success := by
    rw [hcode]
    refine ⟨0, ?_⟩
    have hfull := hs.inv.space.full he hvf (Nat.zero_le _) hvb hP
    rw [← hc.compacting.cell_other _ (by rw [div_page hP]; exact hvf)] at hfull
    rwa [cell_isSome, ← hfits.npages, ← cell_eq_phys (by rw [hfits.npages]; exact hP)] at hfull
  have hphys := her.phys
  rw [hfits.npages] at hphys
  have hfin := hc.compacting.finish hs.inv.space he hvf (Nat.zero_le _) hvb hP
  have hval := hc.compacting.value_finish hP
  rw [log_erase _ hP] at hfin
  rw [log_erase _ hP] at hval
  unfold collect
  simp only [hst]
  refine ⟨⟨hfits.of_local her.isLocal, ⟨?_, hc.entry_ge, hc.lpn_lt⟩, ?_⟩,
    ⟨hc.isLocal.trans her.isLocal, hc.stack, hc.hostWrite⟩, ?_, ?_⟩
  · simp only [hphys, hc.freePblk]
    exact hfin
  · intro code hmem
    rcases List.mem_cons.mp hmem with rfl | hmem
    · exact hsucc
    · exact hc.clean code hmem
  · funext l
    simp only [Bank.content, hphys]
    exact hval l (Set.notMem_empty l)
  · intro hinv
    have := hc.compacting.count_lt hinv
    omega

theorem garbageCollection_spec (h : Hooks α) {s : Bank α} (hs : s.Ok g bank)
    (he : s.nextPpn = s.gcTriggerPpn) :
    (garbageCollection g h bank s).Ok g bank ∧
      s.Effect bank (garbageCollection g h bank s) ∧
      (garbageCollection g h bank s).content bank = s.content bank ∧
      (garbageCollection g h bank s).nextPpn < (garbageCollection g h bank s).gcTriggerPpn := by
  obtain ⟨hvb, hvf, hinv⟩ := hs.inv.victim he
  let s₁ : Bank α := { s with stats := { s.stats with gcCnt := s.stats.gcCnt + 1 } }
  have hs₁ : s₁.Ok g bank := ⟨hs.fits, hs.inv, hs.clean⟩
  obtain ⟨h1, h2, h3, h4⟩ := collect_spec h hs₁ he hvf hvb
  exact ⟨h1, ⟨h2.isLocal, h2.stack, h2.hostWrite⟩, h3, h4 hinv⟩

theorem appendLpn_spec (h : Hooks α) {s : Bank α} (hs : s.Ok g bank)
    (hlt : s.nextPpn < s.gcTriggerPpn) {lpn : ℕ} (hl : lpn < g.nLpnsPb) (data : Sectors) :
    (appendLpn g h bank lpn data s).Ok g bank ∧ s.Effect bank (appendLpn g h bank lpn data s) ∧
      (appendLpn g h bank lpn data s).content bank =
        Function.update (s.content bank) lpn (some data) := by
  have hnp := hs.fits.npages
  obtain ⟨n', hwr, hloc, hphys⟩ := @nandWrite_ppn _ _ s.nand bank s.nextPpn
    hs.fits.bank_lt (by
      rw [hnp, hs.fits.nblks]
      exact hlt.trans_le hs.inv.space.trig_le)
    (fun q hq => by
      rw [hnp] at hq
      rw [← cell_isSome s.toRow]
      exact hs.inv.space.block_prefix hlt q hq) data lpn
  rw [hnp] at hwr
  have happ := hs.inv.space.append hlt lpn data
  have hval := hs.inv.space.value_append hlt lpn data
  rw [log_discard, log_program] at happ hval
  unfold appendLpn
  simp only [hwr]
  refine ⟨⟨hs.fits.of_local hloc, ⟨?_, ?_, ?_⟩, ?_⟩, ⟨hloc, rfl, rfl⟩, ?_⟩
  · simp only [hphys]
    exact happ
  · intro k
    by_cases hk : k = lpn
    · subst hk
      simp
    · simpa [hk] using hs.inv.entry_ge k
  · intro k hk
    by_cases hkl : k = lpn
    · exact hkl ▸ hl
    · exact hs.inv.lpn_lt k (by simpa [hkl] using hk)
  · intro code hmem
    rcases List.mem_cons.mp hmem with rfl | hmem
    · rfl
    · exact hs.clean code hmem
  · funext l
    simp only [Bank.content, hphys]
    exact congrFun hval l

theorem writeThroughLpn_spec (h : Hooks α) {s : Bank α} (hs : s.Ok g bank) {lpn : ℕ}
    (hl : lpn < g.nLpnsPb) (data : Sectors) :
    (writeThroughLpn g h bank lpn data s).Ok g bank ∧
      s.Effect bank (writeThroughLpn g h bank lpn data s) ∧
      (writeThroughLpn g h bank lpn data s).content bank =
        Function.update (s.content bank) lpn (some data) := by
  unfold writeThroughLpn
  by_cases he : s.nextPpn = s.gcTriggerPpn
  · rw [if_pos he]
    obtain ⟨h1, h2, h3, h4⟩ := garbageCollection_spec h hs he
    obtain ⟨h5, h6, h7⟩ := appendLpn_spec h h1 h4 hl data
    refine ⟨h5, ⟨h2.isLocal.trans h6.isLocal, h6.stack.trans h2.stack,
      h6.hostWrite.trans h2.hostWrite⟩, ?_⟩
    rw [h7, h3]
  · rw [if_neg he]
    exact appendLpn_spec h hs (lt_of_le_of_ne hs.inv.space.next_le he) hl data

theorem Bank.Ok.read {s : Bank α} (hs : s.Ok g bank) {lpn : ℕ} (hm : s.l2p lpn ≠ -1) :
    ∃ d, s.content bank lpn = some d ∧ ∀ data spare,
      nandRead s.nand bank (s.l2p lpn / g.pagesPerBlk) (s.l2p lpn % g.pagesPerBlk) data spare =
        (.success, ⟨d, lpn⟩) := by
  have hge := hs.inv.entry_ge lpn
  obtain ⟨p, hp⟩ : ∃ p : ℕ, s.l2p lpn = p := ⟨(s.l2p lpn).toNat, by omega⟩
  have hloc : (s.toRow.log (s.nand.phys bank)).loc lpn = some p := by simp [Row.log, hp]
  obtain ⟨-, d, hcell⟩ := hs.inv.space.consistent.located hloc
  refine ⟨d, PageLog.value_eq_of_cell hloc hcell, fun data spare => ?_⟩
  rw [hp, ← hs.fits.npages]
  exact nandRead_phys ((cell_eq_some _ _).mp hcell) data spare

theorem Bank.Ok.content_eq_none {s : Bank α} (hs : s.Ok g bank) (lpn : ℕ) :
    s.content bank lpn = none ↔ s.l2p lpn = -1 := by
  rw [Bank.content, PageLog.value_eq_none hs.inv.space.consistent]
  exact entry_eq_none

end PageMap
