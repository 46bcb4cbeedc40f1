import Coursework.BufferedFtl.Calls

/-! One bank of lab 3 until its first collection. Page writes of one bank come from the driver by
flushing after each write of a full page. -/
namespace BufferedFtl
open Nand Sector PageMap

/-- What uninitialised locals hold in the runs below. -/
def zeroed : Page Sectors ℕ := ⟨fun _ => 0, 0⟩

/-- Write page `l` of bank 0 and flush. -/
def pageOps (l : ℕ) : List Op := [.write (64 * l) 8 (fun _ => 0) zeroed, .flush zeroed]

theorem pageOps_inRange {l : ℕ} (hl : l < nLpnsPb) : ∀ op ∈ pageOps l, op.InRange ∧ op.NoTrim := by
  change l < 448 at hl
  intro op hop
  rcases List.mem_cons.mp hop with rfl | hop
  · refine ⟨⟨Nat.succ_pos 7, ?_⟩, nofun⟩
    change 64 * l + 8 ≤ 3584 * 8
    omega
  · rw [List.mem_singleton.mp hop]
    exact ⟨trivial, nofun⟩

/-- Write the pages `f 0, …, f (n - 1)` of bank 0. -/
def fillOps (f : ℕ → ℕ) (n : ℕ) : List Op := (List.range n).flatMap fun j => pageOps (f j)

theorem fillOps_succ (f : ℕ → ℕ) (n : ℕ) : fillOps f (n + 1) = fillOps f n ++ pageOps (f n) := by
  unfold fillOps
  rw [List.range_succ, List.flatMap_append, List.flatMap_singleton]

theorem fillOps_inRange {f : ℕ → ℕ} {n : ℕ} (hf : ∀ j < n, f j < nLpnsPb) :
    ∀ op ∈ fillOps f n, op.InRange ∧ op.NoTrim := by
  intro op hop
  obtain ⟨j, hj, hop⟩ := List.mem_flatMap.mp hop
  exact pageOps_inRange (hf j (List.mem_range.mp hj)) op hop

/-- The write buffer is empty. -/
structure Drained (s : Ftl) : Prop where
  unlinked : ∀ lpn < nLpns, s.link lpn = -1
  unmarked : ∀ e < nBuffers, ∀ k, s.bufferIsValid (e : ℕ) k = -1

theorem drained_ftlOpen (mem : ℕ → Page Sectors ℕ) (stack : Page Sectors ℕ) (outside : ℤ → ℤ) :
    Drained (ftlOpen mem stack outside) := by
  refine ⟨fun lpn hl => ?_, fun _ _ _ => rfl⟩
  simp only [Ftl.link, ftlOpen]
  rw [if_pos (linkIdx_mem hl)]

section WriteFlush
variable {b : Build} {s : Ftl} {l : ℕ}

theorem frontendScan_zero {entryFree : ℕ → Bool} {n : ℕ} (h : entryFree 0 = true) :
    frontendScan entryFree (n + 1) = 0 := by
  induction n with
  | zero =>
    rw [frontendScan, frontendScan]
    exact if_pos ⟨h, by decide⟩
  | succ n ih =>
    rw [frontendScan, ih]
    exact if_neg fun hc => absurd hc.2 (Nat.not_lt_zero _)

/-- With an empty buffer, a write of a full page goes to the first entry. -/
theorem Drained.write (h : Drained s) (hl : l < nLpnsPb) (buf : ℕ → Word) :
    (b.writeToBuffer s (64 * l) 8 buf) = s.fill (8 * l) 0 0 8 fun i => buf (0 + i) := by
  let r : Request := ⟨64 * l, 8⟩
  have hn : 0 < r.nsect := Nat.succ_pos 7
  have hin : 8 * l < nLpns := by
    change l < 448 at hl
    change 8 * l < 3584
    omega
  have hone : r.sendKazu = 1 := by
    rw [Request.sendKazu_eq]
    change 1 + ((64 * l + 8 - 1) / 8 - 64 * l / 8) = 1
    omega
  have hlpn : r.lpn 0 = 8 * l := by
    rw [Request.lpn_eq]
    change 0 + 64 * l / 8 = 8 * l
    omega
  have hoff : r.firstLbaOffset = 0 := by
    change 64 * l % 8 = 0
    omega
  have hfree : ∀ e < nBuffers, s.entryFree e = true := fun e he =>
    (entryFree_iff s e).mpr (h.unmarked e he)
  have hroom : ¬neededBufferPageCalculate s (r.firstPageFirstLba / 8) r.sendKazu >
      usableBufferPageCalculate s := by
    rw [usable_all hfree, hone]
    exact not_lt.mpr ((needed_le _ _ _).trans (by decide))
  have hpages : r.lastPageFirstLba / 8 + 1 - r.firstPageFirstLba / 8 = 1 := by
    rw [Request.lastPage_div hn, hone]
    omega
  unfold Build.writeToBuffer writeToBufferBy
  dsimp only
  rw [if_neg hroom, hpages, bufferLoop, bufferLoop]
  rw [bufferPage_eq (e := 0) hn (by rw [hone]; decide) rfl (by decide)
    (.inl ⟨by rw [hlpn]; exact h.unlinked _ hin, frontendScan_zero (hfree 0 (by decide))⟩)]
  rw [hlpn, Request.start_zero, hoff, Request.count_single hone]

theorem Drained.flushEntry (h : Drained s) {e : ℕ} (he : e < nBuffers) : b.flushEntry s e = s := by
  have hmark : firstMark (s.bufferIsValid (e : ℕ)) = -1 := by
    rcases firstMark_cases (s.bufferIsValid (e : ℕ)) with ⟨h0, -⟩ | ⟨k, hk, -⟩
    · exact h0
    · exact absurd (h.unmarked e he k) hk
  unfold Build.flushEntry flushEntryBy
  dsimp only
  rw [if_pos hmark]

/-- Flushing the one full page that is buffered writes it and leaves the buffer empty. -/
theorem Drained.flush_fill (h : Drained s) (hl : l < nLpnsPb) (src : ℕ → Word) :
    Drained (b.ftlFlush (s.fill (8 * l) 0 0 8 src)) ∧ ∃ (x : Bank Wear) (data : Sectors),
      x.toRow = s.row 0 ∧ (b.ftlFlush (s.fill (8 * l) 0 0 8 src)).row 0 =
        (appendLpn geometry hooks 0 l data (b.makeRoom 0 x)).toRow := by
  have hin : 8 * l < nLpns := by
    change l < 448 at hl
    change 8 * l < 3584
    omega
  have hmarks : (s.fill (8 * l) 0 0 8 src).bufferIsValid (0 : ℕ) = fun _ => ((8 * l : ℕ) : ℤ) := by
    funext k
    rw [marks_fill, if_pos ⟨Nat.zero_le _, by have := k.isLt; omega⟩]
  have hfirst : firstMark ((s.fill (8 * l) 0 0 8 src).bufferIsValid (0 : ℕ)) =
      ((8 * l : ℕ) : ℤ) := by
    rcases firstMark_cases ((s.fill (8 * l) 0 0 8 src).bufferIsValid (0 : ℕ)) with ⟨-, hno⟩ |
      ⟨k, -, hk⟩
    · have h0 := hno 0
      rw [hmarks] at h0
      exact absurd h0 (natCast_ne_neg_one _)
    · rw [hk, hmarks]
  -- the round for the entry
  have hround : Drained (b.flushEntry (s.fill (8 * l) 0 0 8 src) (0 : ℕ)) ∧
      ∃ (x : Bank Wear) (data : Sectors), x.toRow = s.row 0 ∧
        (b.flushEntry (s.fill (8 * l) 0 0 8 src) (0 : ℕ)).row 0 =
          (appendLpn geometry hooks 0 l data (b.makeRoom 0 x)).toRow := by
    have hbank : (((8 * l : ℕ) : ℤ) % nBanks).toNat = 0 := by
      change (((8 * l : ℕ) : ℤ) % (8 : ℕ)).toNat = 0
      omega
    have hhalved : (((8 * l : ℕ) : ℤ) / nBanks).toNat = l := by
      change (((8 * l : ℕ) : ℤ) / (8 : ℕ)).toNat = l
      omega
    unfold Build.flushEntry flushEntryBy
    simp only [hfirst, if_neg (natCast_ne_neg_one (8 * l)), hbank, hhalved]
    generalize hst : (if ((s.fill (8 * l) 0 0 8 src).row 0).l2p l ≠ -1 then _ else _ :
      Ftl × Sectors) = st
    have hkept : st.1.row = s.row ∧ st.1.bufferIsValid = (s.fill (8 * l) 0 0 8 src).bufferIsValid ∧
        st.1.bufferL2p = (s.fill (8 * l) 0 0 8 src).bufferL2p := by
      rw [← hst]
      split_ifs
      · obtain ⟨codes, -, he⟩ := ftlRead_codes (s.fill (8 * l) 0 0 8 src)
          (((8 * l : ℕ) : ℤ) * 8).toNat 8 (s.fill (8 * l) 0 0 8 src).stack.data.get
        rw [he]
        exact ⟨rfl, rfl, rfl⟩
      · exact ⟨rfl, rfl, rfl⟩
    obtain ⟨hrow, hvalid, hl2p⟩ := hkept
    refine ⟨⟨fun lpn hlpn => ?_, fun e he k => ?_⟩, st.1.toBanks.bank 0, st.2,
      congrFun hrow 0, ?_⟩
    · change Function.update st.1.bufferL2p (linkIdx 0 l) (-1)
        (linkIdx (lpn % nBanks) (lpn / nBanks : ℕ)) = -1
      have hidx : linkIdx 0 l = linkIdx (8 * l % nBanks) (8 * l / nBanks : ℕ) := by
        change linkIdx 0 l = linkIdx (8 * l % 8) (8 * l / 8 : ℕ)
        rw [Nat.mul_mod_right, Nat.mul_div_cancel_left l (by decide)]
      by_cases he : lpn = 8 * l
      · rw [hidx, he, Function.update_self]
      · rw [hidx, Function.update_of_ne fun hc => he (linkIdx_inj hlpn hin hc), hl2p]
        exact (link_fill_other hin hlpn he).trans (h.unlinked lpn hlpn)
    · change Function.update st.1.bufferIsValid (0 : ℕ) (fun _ => -1) (e : ℕ) k = -1
      by_cases he0 : e = 0
      · rw [he0, Function.update_self]
      · have hne : ((e : ℕ) : ℤ) ≠ (0 : ℕ) := by omega
        rw [Function.update_of_ne hne, hvalid, marks_fill_other hne]
        exact h.unmarked e he k
    · change Function.update st.1.row 0 _ 0 = _
      rw [Function.update_self]
      rfl
  -- the other entries are empty
  have hloop : ∀ n < nBuffers, b.flushLoop (s.fill (8 * l) 0 0 8 src) (n + 1) =
      b.flushEntry (s.fill (8 * l) 0 0 8 src) (0 : ℕ) := by
    intro n hn
    induction n with
    | zero => rfl
    | succ n ih => rw [Build.flushLoop_succ, ih (by omega), hround.1.flushEntry hn]
  have hflush : b.ftlFlush (s.fill (8 * l) 0 0 8 src) =
      b.flushEntry (s.fill (8 * l) 0 0 8 src) (0 : ℕ) := hloop 31 (by decide)
  rw [hflush]
  exact hround

/-- Writing a full page and flushing it comes down to one page write. -/
theorem Drained.pageOps (h : Drained s) (hl : l < nLpnsPb) :
    Drained (Machine.run b.step s (pageOps l)) ∧ ∃ (x : Bank Wear) (data : Sectors),
      x.toRow = s.row 0 ∧ (Machine.run b.step s (BufferedFtl.pageOps l)).row 0 =
        (appendLpn geometry hooks 0 l data (b.makeRoom 0 x)).toRow := by
  let s₁ : Ftl := { s with stack := zeroed }
  let s₂ : Ftl := { s₁ with stats := { s₁.stats with hostWrite := s₁.stats.hostWrite + 8 } }
  have h₁ : Drained s₁ := ⟨h.unlinked, h.unmarked⟩
  have h₂ : Drained s₂ := ⟨h.unlinked, h.unmarked⟩
  have hsmall : ¬(8 > bufferSize ∨ Request.sendKazu ⟨64 * l, 8⟩ > nBuffers) := by
    rw [Request.sendKazu_eq]
    change ¬(8 > 1024 ∨ 1 + ((64 * l + 8 - 1) / 8 - 64 * l / 8) > 32)
    omega
  have hwrite : b.ftlWrite s₁ (64 * l) 8 (fun _ => 0) = s₂.fill (8 * l) 0 0 8 fun _ => 0 := by
    have hbuffered : writeToBufferBy b.writeThroughLpn s₁ (64 * l) 8 (fun _ => 0) = _ :=
      h₁.write hl _
    unfold Build.ftlWrite ftlWriteBy
    dsimp only
    rw [if_neg hsmall, hbuffered]
    rfl
  have hrun : Machine.run b.step s (BufferedFtl.pageOps l) =
      b.ftlFlush (s₂.fill (8 * l) 0 0 8 fun _ => 0) := by
    rw [BufferedFtl.pageOps, Machine.run_cons, Machine.run_cons, Machine.run_nil]
    change b.ftlFlush { b.ftlWrite s₁ (64 * l) 8 (fun _ => 0) with stack := zeroed } = _
    rw [hwrite]
    rfl
  rw [hrun]
  exact h₂.flush_fill hl _

end WriteFlush

section FirstFill

/-- The row of a bank after the pages `f 0, …, f (n - 1)` have been written, with no collection. -/
structure FirstFill (f : ℕ → ℕ) (n : ℕ) (r : Row Wear) : Prop where
  nextPpn : r.nextPpn = n
  gcTriggerPpn : r.gcTriggerPpn = 496
  freePblk : r.freePblk = 31
  l2p : ∀ l, (r.l2p l = -1 ∧ ∀ j < n, f j ≠ l) ∨
    ∃ j < n, r.l2p l = (j : ℕ) ∧ f j = l ∧ ∀ k, j < k → k < n → f k ≠ l
  isValid : ∀ q, r.isValid q = false ↔ q < n ∧ ∃ j, q < j ∧ j < n ∧ f j = f q
  age : ∀ blk < blksPerBank, r.aux.age blk =
    if 16 * blk < n then (((n + 15) / 16 : ℕ) : ℤ) - blk else -1

variable {f : ℕ → ℕ} {n : ℕ}

theorem firstFill_zero (f : ℕ → ℕ) :
    FirstFill f 0 (Banks.initRow geometry ⟨fun _ => -1, fun _ => 0⟩) where
  nextPpn := rfl
  gcTriggerPpn := rfl
  freePblk := rfl
  l2p := fun _ => .inl ⟨rfl, fun j hj => absurd hj j.not_lt_zero⟩
  isValid := fun q => iff_of_false nofun fun hc => absurd hc.1 q.not_lt_zero
  age := fun _ _ => rfl

theorem FirstFill.append {x : Bank Wear} (h : FirstFill f n x.toRow) (hn : n < 496)
    (data : Sectors) : FirstFill f (n + 1) (appendLpn geometry hooks 0 (f n) data x).toRow := by
  have hnext := h.nextPpn
  refine ⟨congrArg (· + 1) hnext, h.gcTriggerPpn, h.freePblk, fun l => ?_, fun q => ?_, ?_⟩
  · change (Function.update x.l2p (f n) (x.nextPpn : ℤ) l = -1 ∧ _) ∨
      ∃ j < n + 1, Function.update x.l2p (f n) (x.nextPpn : ℤ) l = (j : ℕ) ∧ _
    by_cases hl : l = f n
    · refine .inr ⟨n, n.lt_succ_self, ?_, hl.symm, fun k hk hkn => by omega⟩
      rw [hl, Function.update_self, hnext]
    · rw [Function.update_of_ne hl]
      have hlast : ∀ j < n + 1, f j = l → j < n := by
        intro j hj hf
        rcases Nat.lt_succ_iff_lt_or_eq.mp hj with hlt | rfl
        · exact hlt
        · exact absurd hf.symm hl
      rcases h.l2p l with ⟨h1, h2⟩ | ⟨j, hj, h1, h2, h3⟩
      · exact .inl ⟨h1, fun j hj hf => h2 j (hlast j hj hf) hf⟩
      · exact .inr ⟨j, by omega, h1, h2, fun k hk hkn hf => h3 k hk (hlast k hkn hf) hf⟩
  · change (if x.l2p (f n) ≠ -1 then Function.update x.isValid (x.l2p (f n)).toNat false
      else x.isValid) q = false ↔ _
    have hold := h.isValid q
    rcases h.l2p (f n) with ⟨h1, h2⟩ | ⟨j, hj, h1, h2, h3⟩
    · rw [if_neg (not_not.mpr h1), hold]
      constructor
      · rintro ⟨hq, j, hqj, hjn, hf⟩
        exact ⟨by omega, j, hqj, by omega, hf⟩
      · rintro ⟨-, j, hqj, hjn, hf⟩
        rcases Nat.lt_succ_iff_lt_or_eq.mp hjn with hlt | rfl
        · exact ⟨by omega, j, hqj, hlt, hf⟩
        · exact absurd hf.symm (h2 q hqj)
    · rw [if_pos (by rw [h1]; omega), h1, Int.toNat_natCast]
      by_cases hqj : q = j
      · subst hqj
        rw [Function.update_self]
        exact iff_of_true rfl ⟨by omega, n, hj, n.lt_succ_self, h2.symm⟩
      · rw [Function.update_of_ne hqj, hold]
        constructor
        · rintro ⟨hq, k, hqk, hkn, hf⟩
          exact ⟨by omega, k, hqk, by omega, hf⟩
        · rintro ⟨-, k, hqk, hkn, hf⟩
          rcases Nat.lt_succ_iff_lt_or_eq.mp hkn with hlt | rfl
          · exact ⟨by omega, k, hqk, hlt, hf⟩
          · -- the last copy before is at `j`
            have hlt : q < j := by
              rcases lt_trichotomy q j with hlt | he | hgt
              · exact hlt
              · exact absurd he hqj
              · exact absurd hf.symm (h3 q hgt hqk)
            exact ⟨hqk, j, hlt, hj, h2.trans hf⟩
  · intro blk hblk
    rw [appendLpn_age, hnext, h.freePblk]
    have hage := h.age blk hblk
    change blk < 32 at hblk
    by_cases h0 : n % pagesPerBlk = 0
    · have htarget : n / pagesPerBlk < blksPerBank := by
        change n / 16 < 32
        omega
      rw [if_pos h0, ageUpdate_age htarget]
      change n % 16 = 0 at h0
      change (if blk = n / 16 then (1 : ℤ) else if blk < 32 ∧
        ¬(x.aux.age blk = -1 ∨ x.aux.age blk = (31 : ℕ)) then x.aux.age blk + 1
        else x.aux.age blk) = _
      rw [hage]
      split_ifs <;> omega
    · rw [if_neg h0, hage]
      change ¬n % 16 = 0 at h0
      split_ifs <;> omega

theorem firstFill_run (b : Build) (mem : ℕ → Page Sectors ℕ) (stack : Page Sectors ℕ)
    (outside : ℤ → ℤ) (hf : ∀ j < n, f j < nLpnsPb) (hn : n ≤ 496) :
    Drained (Machine.run b.step (ftlOpen mem stack outside) (fillOps f n)) ∧
      FirstFill f n ((Machine.run b.step (ftlOpen mem stack outside) (fillOps f n)).row 0) := by
  induction n with
  | zero => exact ⟨drained_ftlOpen mem stack outside, firstFill_zero f⟩
  | succ n ih =>
    obtain ⟨hdrained, hfill⟩ := ih (fun j hj => hf j (Nat.lt_succ_of_lt hj)) (by omega)
    rw [fillOps_succ, Machine.run_append]
    obtain ⟨h1, x, data, hx, hrow⟩ := hdrained.pageOps (b := b) (hf n n.lt_succ_self)
    refine ⟨h1, ?_⟩
    rw [← hx] at hfill
    have hroom : b.makeRoom 0 x = x := by
      unfold Build.makeRoom
      rw [if_neg (by rw [hfill.nextPpn, hfill.gcTriggerPpn]; omega)]
    rw [hrow, hroom]
    exact hfill.append (by omega) data

end FirstFill

end BufferedFtl
