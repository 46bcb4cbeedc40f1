import Coursework.BufferedFtl.FirstFill

/-! Collections and block ages of lab 3 over whole runs, under every setting of `GC_POLICY`. -/
namespace BufferedFtl
open Nand Sector PageMap Selection

/-- What a collection is to do: its victim is not the free block and has an invalid page, and the
next page is then before the trigger. -/
structure Collects (b : Build) (bank : ℕ) (x : Bank Wear) : Prop where
  victim_lt : b.victimPblk x < blksPerBank
  victim_ne : b.victimPblk x ≠ x.freePblk
  invalid : ∃ i < pagesPerBlk, x.isValid (b.victimPblk x * pagesPerBlk + i) = false
  room : (b.garbageCollection bank x).nextPpn < (b.garbageCollection bank x).gcTriggerPpn

theorem Reached.collects {b : Build} {hist : ℕ → List Event} {s : Ftl}
    (h : Reached b (fun _ => Sound b) hist s) {bank : ℕ} (hbank : bank < nBanks)
    (he : (s.row bank).nextPpn = (s.row bank).gcTriggerPpn)
    (hp : Progress b (s.toBanks.bank bank)) : Collects b bank (s.toBanks.bank bank) := by
  have hfine := (h.fine fun _ _ hx => hx).bank_fine hbank
  obtain ⟨h1, h2, h3⟩ := victimPblk_spec hfine.ok hfine.ages he hp
  exact ⟨h1, h2, h3, (hfine.collect he hp).2.2⟩

/-- The state after the calls `ops` of the driver. -/
def after (b : Build) (ops : List Op) : Ftl :=
  Machine.run b.step (ftlOpen (fun _ => zeroed) zeroed fun _ => 0) ops

/-- The FTL as it is configured. -/
def greedy : Build := ⟨.gcGreedy, 0, 0⟩

theorem progress_greedy (x : Bank Wear) : Progress greedy x := trivial

theorem reached_greedy {ops : List Op} (hops : ∀ op ∈ ops, op.InRange ∧ op.NoTrim) :
    ∃ hist, Reached greedy (fun _ => Sound greedy) hist (after greedy ops) := by
  obtain ⟨hist, h⟩ := reached_run greedy (fun _ => zeroed) zeroed (fun _ => 0) hops
  exact ⟨hist, h.mono fun _ x _ => fun _ => progress_greedy x⟩

theorem firstFill_after (b : Build) {f : ℕ → ℕ} {n : ℕ} (hf : ∀ j < n, f j < nLpnsPb)
    (hn : n ≤ 496) : FirstFill f n ((after b (fillOps f n)).row 0) :=
  (firstFill_run b (fun _ => zeroed) zeroed (fun _ => 0) hf hn).2

theorem greedy_collects {ops : List Op} (hops : ∀ op ∈ ops, op.InRange ∧ op.NoTrim) {bank : ℕ}
    (hbank : bank < nBanks) (he : ((after greedy ops).row bank).nextPpn =
      ((after greedy ops).row bank).gcTriggerPpn) :
    Collects greedy bank ((after greedy ops).toBanks.bank bank) := by
  obtain ⟨hist, h⟩ := reached_greedy hops
  exact h.collects hbank he (progress_greedy _)

/-- Every collection that meets the condition, in a run in which all earlier ones do, has a victim
other than the free block with an invalid page, and makes room. -/
theorem victim_progress (b : Build) {hist : ℕ → List Event} {s : Ftl}
    (h : Reached b (fun _ => Sound b) hist s) {bank : ℕ} (hbank : bank < nBanks)
    (he : (s.row bank).nextPpn = (s.row bank).gcTriggerPpn)
    (hp : Progress b (s.toBanks.bank bank)) : Collects b bank (s.toBanks.bank bank) :=
  h.collects hbank he hp

/-- Writing a bank full once and its first pages again. -/
def wrapped (j : ℕ) : ℕ := j % 448

theorem wrapped_lt (j : ℕ) : wrapped j < nLpnsPb := Nat.mod_lt j (by decide)

theorem FirstFill.isValid_wrapped {r : Row Wear} (h : FirstFill wrapped 496 r) :
    r.isValid = fun q => !decide (q < 48) := by
  funext q
  rw [Bool.eq_iff_iff, ← not_iff_not, Bool.not_eq_true, h.isValid]
  unfold wrapped
  simp only [Bool.not_eq_true', decide_eq_false_iff_not, not_not]
  constructor
  · rintro ⟨hq, j, hqj, hj, hf⟩
    omega
  · exact fun hq => ⟨by omega, q + 448, by omega, by omega, by omega⟩

/-- Before the first collection nothing is in the way of page writes to bank 0. -/
theorem reached_fill (b : Build) {f : ℕ → ℕ} {n : ℕ} (hf : ∀ j < n, f j < nLpnsPb)
    (hn : n ≤ 496) : ∃ hist s, Reached b (fun bank x => Sound b x ∧ AgesApart b bank x) hist s ∧
      FirstFill f n (s.row 0) := by
  induction n with
  | zero => exact ⟨_, _, .opened (fun _ => zeroed) zeroed fun _ => 0, firstFill_zero f⟩
  | succ n ih =>
    obtain ⟨hist, s, h, hfill⟩ := ih (fun j hj => hf j (Nat.lt_succ_of_lt hj)) (by omega)
    have hno : (s.row 0).nextPpn ≠ (s.row 0).gcTriggerPpn := by
      rw [hfill.nextPpn, hfill.gcTriggerPpn]
      omega
    have hroom : b.makeRoom 0 (s.toBanks.bank 0) = s.toBanks.bank 0 := if_neg hno
    have hapart : (s.row 0).nextPpn % pagesPerBlk = 0 →
        Apart (s.row 0).freePblk ((s.row 0).nextPpn / pagesPerBlk) (s.row 0).aux := by
      intro h0 blk hblk _
      rw [hfill.nextPpn] at h0
      change n % 16 = 0 at h0
      rw [hfill.age blk hblk, hfill.freePblk]
      split_ifs <;> omega
    have hp : Sound b (s.toBanks.bank 0) ∧ AgesApart b 0 (s.toBanks.bank 0) := by
      refine ⟨fun he => absurd he hno, fun he => absurd he hno, ?_⟩
      rw [hroom]
      exact hapart
    refine ⟨_, _, h.write (show 0 < nBanks by decide) (hf n n.lt_succ_self) (fun _ => 0) hp, ?_⟩
    have hrow : (b.writeThroughLpn s 0 (f n) fun _ => 0).row 0 =
        (appendLpn geometry hooks 0 (f n) (fun _ => 0) (s.toBanks.bank 0)).toRow := by
      change Function.update s.row 0 (appendLpn geometry hooks 0 (f n) (fun _ => 0)
        (b.makeRoom 0 (s.toBanks.bank 0))).toRow 0 = _
      rw [Function.update_self, hroom]
    rw [hrow]
    exact FirstFill.append (x := s.toBanks.bank 0) hfill (by omega) _

/-- Under the policy that also counts erasures, the first collection then meets the condition. -/
theorem progress_wrapped {x : Bank Wear} (h : FirstFill wrapped 496 x.toRow) :
    Progress ⟨.gcCat, 0, 0⟩ x := by
  have hage : x.aux.age 0 = 31 := h.age 0 (by decide)
  have hvalid : validPages x 0 = 0 := by
    unfold validPages
    rw [h.isValid_wrapped]
    decide +kernel
  have hskip : ¬Skipped x 0 := by
    rintro (h0 | h0)
    · rw [hage] at h0
      omega
    · rw [h.freePblk] at h0
      omega
  refine ⟨0, by decide, hskip, ?_, ?_, .inl ?_⟩
  · rw [hvalid]
    decide
  · rw [hvalid, hage, Nat.cast_zero, zero_mul]
    decide
  · rw [hvalid, hage, Nat.cast_zero, zero_mul]
    decide

theorem victim_progress_wrapped : ∃ hist s, Reached ⟨.gcCat, 0, 0⟩ (fun _ => Sound ⟨.gcCat, 0, 0⟩)
    hist s ∧ FirstFill wrapped 496 (s.row 0) ∧ Collects ⟨.gcCat, 0, 0⟩ 0 (s.toBanks.bank 0) := by
  obtain ⟨hist, s, h, hfill⟩ :=
    reached_fill ⟨.gcCat, 0, 0⟩ (fun j _ => wrapped_lt j) (le_refl 496)
  have hsound := h.mono fun _ _ hp => hp.1
  exact ⟨hist, s, hsound, hfill, victim_progress _ hsound (by decide)
    (hfill.nextPpn.trans hfill.gcTriggerPpn.symm) (progress_wrapped hfill)⟩

/-- Page `k` of those written after the first 448: a page or two of each of the older blocks and
some more of the younger ones, so few that every cost-benefit score is cut off to zero. -/
def laggard (k : ℕ) : ℕ :=
  if k < 16 then 16 * (k + 2)
  else if k < 26 then 16 * (18 + (k - 16) / 2) + (k - 16) % 2
  else if k < 35 then 16 * (23 + (k - 26) / 3) + (k - 26) % 3
  else if k < 39 then 416 + (k - 35)
  else if k < 44 then 432 + (k - 39)
  else 16 * (k - 42)

def laggards (j : ℕ) : ℕ := if j < 448 then j else laggard (j - 448)

theorem laggard_range {k : ℕ} (hk : k < 48) : 32 ≤ laggard k ∧ laggard k < 448 := by
  unfold laggard
  split_ifs <;> omega

theorem laggards_lt : ∀ j < 496, laggards j < nLpnsPb := by
  intro j hj
  change laggards j < 448
  unfold laggards
  split_ifs with h
  · exact h
  · exact (laggard_range (by omega)).2

/-- The page flags after the pages `laggards j` have been written. -/
def laggardValid (q : ℕ) : Bool :=
  (List.range 48).all fun k => !(q < 448 + k && laggard k == laggards q)

theorem laggard_scores : ∀ d < 31,
    (16 - validCnt geometry laggardValid d 16) * (31 - d) < 2 * validCnt geometry laggardValid d 16
    := by
  decide +kernel

theorem FirstFill.laggardValid {r : Row Wear} (h : FirstFill laggards 496 r) :
    r.isValid = BufferedFtl.laggardValid := by
  have hlate (k : ℕ) : laggards (448 + k) = laggard k := by
    unfold laggards
    rw [if_neg (by omega), Nat.add_sub_cancel_left]
  funext q
  rw [Bool.eq_iff_iff, ← not_iff_not, Bool.not_eq_true, Bool.not_eq_true, h.isValid,
    BufferedFtl.laggardValid, List.all_eq_false]
  constructor
  · rintro ⟨-, j, hqj, hj, hf⟩
    -- the first 448 pages are all different
    have h448 : 448 ≤ j := by
      by_contra hlt
      have hq : laggards q = q := if_pos (by omega)
      have hj' : laggards j = j := if_pos (by omega)
      omega
    obtain ⟨k, rfl⟩ := Nat.exists_eq_add_of_le h448
    refine ⟨k, List.mem_range.mpr (by omega), ?_⟩
    rw [hlate] at hf
    simp [hqj, hf]
  · rintro ⟨k, hk, hc⟩
    have hk48 : k < 48 := List.mem_range.mp hk
    simp only [Bool.not_eq_true, Bool.not_eq_false', Bool.and_eq_true, decide_eq_true_eq,
      beq_iff_eq] at hc
    exact ⟨by omega, 448 + k, hc.1, by omega, (hlate k).trans hc.2⟩

/-- Under the cost-benefit policy the selector takes the fully valid block 0. -/
theorem getVictimPblkCb_laggards {x : Bank Wear} (h : FirstFill laggards 496 x.toRow) (b : Build) :
    b.getVictimPblkCb x = 0 := by
  have hcnt (d : ℕ) : validPages x d = validCnt geometry BufferedFtl.laggardValid d 16 := by
    unfold validPages
    rw [h.laggardValid]
    rfl
  have hskip : ∀ d < blksPerBank, ¬Skipped x d → d < 31 := by
    intro d hd hs
    change d < 32 at hd
    have hne : d ≠ 31 := fun he => hs (.inr (he.trans h.freePblk.symm))
    omega
  have hage : ∀ d < 31, x.aux.age d = 31 - d := by
    intro d hd
    rw [h.age d (hd.trans (by decide)), if_pos (by omega)]
    omega
  -- every score is cut off to zero
  have hscore : ∀ d < 31, b.cbScore x d = 0 := by
    intro d hd
    have hlt := laggard_scores d hd
    have hle := validPages_le x d
    rw [← hcnt] at hlt
    have hprod : (16 - validPages x d : ℤ) * x.aux.age d < 2 * validPages x d := by
      rw [hage d hd]
      have h16 : (16 - validPages x d : ℤ) = (16 - validPages x d : ℕ) := by omega
      have h31 : (31 - d : ℤ) = (31 - d : ℕ) := by omega
      rw [h16, h31]
      exact_mod_cast hlt
    have hage0 : 0 ≤ x.aux.age d := by
      rw [hage d hd]
      omega
    have hnonneg : 0 ≤ (16 - validPages x d : ℤ) * x.aux.age d := mul_nonneg (by omega) hage0
    rw [cbScore_eq (by omega) hage0 (by unfold intMax; omega)]
    exact Int.ediv_eq_zero_of_lt hnonneg hprod
  have hskip0 : ¬Skipped x 0 := by
    rintro (h0 | h0)
    · rw [hage 0 (by decide)] at h0
      omega
    · rw [h.freePblk] at h0
      omega
  unfold Build.getVictimPblkCb
  refine @scanDown_first ℚ (fun maxScore score => maxScore ≤ score) _ (Skipped x) _ _
    (fun _ _ _ => le_trans) le_total blksPerBank 0 (0, b.junk) (by decide) hskip0 ?_
    fun d hd hds => ⟨?_, d.zero_le⟩
  · rw [hscore 0 (by decide)]
    exact Int.cast_zero.ge
  · rw [hscore d (hskip d hd hds), hscore 0 (by decide)]

/-- So the victim has no invalid page. -/
theorem not_collects_laggards {s : Ftl} (h : FirstFill laggards 496 (s.row 0)) {b : Build}
    (hb : b.policy = .gcCb) : ¬Collects b 0 (s.toBanks.bank 0) := by
  intro hcollects
  obtain ⟨i, hi, hinv⟩ := hcollects.invalid
  have hvictim : b.victimPblk (s.toBanks.bank 0) = 0 := by
    unfold Build.victimPblk
    rw [hb]
    exact @getVictimPblkCb_laggards (s.toBanks.bank 0) h b
  rw [hvictim] at hinv
  obtain ⟨-, j, hij, hj, hf⟩ := (h.isValid _).mp hinv
  change i < 16 at hi
  rw [Nat.zero_mul, Nat.zero_add] at hij hf
  have hi' : laggards i = i := if_pos (by omega)
  by_cases h448 : j < 448
  · have hj' : laggards j = j := if_pos h448
    omega
  · have hj' : laggards j = laggard (j - 448) := if_neg h448
    have := (laggard_range (show j - 448 < 48 by omega)).1
    omega

/-- The cost-benefit policy can collect a fully valid block. -/
theorem victim_stuck : ¬∀ (b : Build) (ops : List Op), (∀ op ∈ ops, op.InRange ∧ op.NoTrim) →
    ∀ bank < nBanks, ((after b ops).row bank).nextPpn = ((after b ops).row bank).gcTriggerPpn →
      Collects b bank ((after b ops).toBanks.bank bank) := by
  intro hall
  let b : Build := ⟨.gcCb, 0, 0⟩
  have hfill := firstFill_after b laggards_lt le_rfl
  exact not_collects_laggards hfill rfl (hall b (fillOps laggards 496)
    (fillOps_inRange laggards_lt) 0 (by decide) (hfill.nextPpn.trans hfill.gcTriggerPpn.symm))

/-- What the ages of a bank are to be: one more than the number of blocks opened since, so that a
block opened earlier is older, and `-1` exactly for the erased blocks. -/
structure AgesSpec (hist : List Event) (bank : ℕ) (x : Bank Wear) : Prop where
  age : ∀ blk < blksPerBank, AgeIs hist blk (x.aux.age blk)
  older : ∀ blk < blksPerBank, ∀ blk' < blksPerBank, ∀ later later', LastOpened hist blk later →
    LastOpened hist blk' later' → later'.length < later.length → x.aux.age blk' < x.aux.age blk
  erased : ∀ blk < blksPerBank, x.aux.age blk = -1 ↔
    ∀ i < pagesPerBlk, x.nand.cell bank blk i = none

/-- In every state reached by page writes whose collections make progress and whose calls of
`age_update` meet no age that is the number of the free block, the ages are as they are to be. -/
theorem ages_count_openings (b : Build) {hist : ℕ → List Event} {s : Ftl}
    (h : Reached b (fun bank x => Sound b x ∧ AgesApart b bank x) hist s) {bank : ℕ}
    (hbank : bank < nBanks) : AgesSpec (hist bank) bank (s.toBanks.bank bank) := by
  have hages : AgesAgree (hist bank) (s.row bank).aux := h.agesAgree (fun _ _ hp => hp) bank hbank
  have hfine := (h.fine fun _ _ hp => hp.1).bank_fine hbank
  refine ⟨hages, ?_, fun blk hblk => hfine.age_eq_iff hblk⟩
  intro blk hblk blk' hblk' later later' hl hl' hlt
  have hcount := openings_lt hl hl' hlt
  have hold : ∀ c < blksPerBank, ∀ l, LastOpened (hist bank) c l →
      (s.row bank).aux.age c = 1 + openings l := by
    intro c hc l hcl
    rcases hages c hc with ⟨-, hno⟩ | ⟨l', hcl', heq⟩
    · exact absurd hcl (hno l)
    · rw [heq, hcl.unique hcl']
  have h1 := hold blk hblk later hl
  have h2 := hold blk' hblk' later' hl'
  change (s.row bank).aux.age blk' < (s.row bank).aux.age blk
  omega

/-- The page write that collects for the first time opens the last block. -/
theorem sound_wrapped {x : Bank Wear} (h : FirstFill wrapped 496 x.toRow) :
    Sound greedy x ∧ AgesApart greedy 0 x := by
  have hvictim : greedy.victimPblk x = 0 := by
    change getVictimPblk geometry x.isValid = 0
    rw [h.isValid_wrapped]
    decide +kernel
  have hvalid : validPages x 0 = 0 := by
    unfold validPages
    rw [h.isValid_wrapped]
    decide +kernel
  have hroom : greedy.makeRoom 0 x = greedy.garbageCollection 0 x :=
    if_pos (h.nextPpn.trans h.gcTriggerPpn.symm)
  have hnone : validPages x (greedy.victimPblk x) = 0 := by rw [hvictim, hvalid]
  refine ⟨fun _ => trivial, fun _ h0 => absurd hnone h0, fun _ blk hblk _ => ?_⟩
  rw [hroom]
  unfold Build.garbageCollection
  rw [collect_freePblk, hvictim, collect_age]
  split_ifs with h0 h1
  · decide
  · have hage := h.age blk hblk
    change x.aux.age blk = _ at hage
    change blk < 32 at hblk
    rw [hage]
    split_ifs <;> omega
  · exact absurd hvalid h1

/-- After 31 blocks have been opened, one erased and another one opened. -/
theorem ages_count_openings_wrapped : ∃ hist s, FirstFill wrapped 496 (s.row 0) ∧
    AgesSpec (greedy.writeEvents 0 (s.toBanks.bank 0) ++ hist) 0
      ((greedy.writeThroughLpn s 0 0 fun _ => 0).toBanks.bank 0) := by
  obtain ⟨hist, s, h, hfill⟩ := reached_fill greedy (fun j _ => wrapped_lt j) (le_refl 496)
  have hp : Sound greedy (s.toBanks.bank 0) ∧ AgesApart greedy 0 (s.toBanks.bank 0) :=
    sound_wrapped hfill
  have hages := ages_count_openings greedy
    (h.write (show 0 < nBanks by decide) (show 0 < nLpnsPb by decide) (fun _ => 0) hp)
    (show 0 < nBanks by decide)
  rw [Function.update_self] at hages
  exact ⟨hist 0, s, hfill, hages⟩

theorem AgesSpec.inj {hist : List Event} {bank : ℕ} {x : Bank Wear} (h : AgesSpec hist bank x)
    {blk blk' : ℕ} (hblk : blk < blksPerBank) (hblk' : blk' < blksPerBank)
    (hage : x.aux.age blk ≠ -1) (he : x.aux.age blk = x.aux.age blk') : blk = blk' := by
  obtain ⟨later, hl, -⟩ := (h.age blk hblk).resolve_left fun hc => hage hc.1
  obtain ⟨later', hl', -⟩ := (h.age blk' hblk').resolve_left fun hc => hage (he.trans hc.1)
  rcases lt_trichotomy later'.length later.length with hlt | heq | hlt
  · exact absurd he (h.older blk hblk blk' hblk' later later' hl hl' hlt).ne'
  · obtain ⟨⟨earlier, h1⟩, -⟩ := hl
    obtain ⟨⟨earlier', h2⟩, -⟩ := hl'
    have htail := (List.append_inj (h2.symm.trans h1) heq).2
    exact (Event.opened.inj (List.cons.inj htail).1).symm
  · exact absurd he (h.older blk' hblk' blk hblk later' later hl' hl hlt).ne

/-- After the first 448 pages, every eighth page from page 32 on. -/
def eighths (j : ℕ) : ℕ := if j < 448 then j else 32 + 8 * (j - 448)

theorem eighths_lt : ∀ j < 497, eighths j < nLpnsPb := by
  intro j hj
  change eighths j < 448
  unfold eighths
  split_ifs <;> omega

theorem FirstFill.eighths_invalid {r : Row Wear} (h : FirstFill eighths 496 r) {q : ℕ} :
    r.isValid q = false ↔ ∃ k < 48, q = 32 + 8 * k := by
  rw [h.isValid]
  unfold eighths
  constructor
  · rintro ⟨hq, j, hqj, hj, hf⟩
    refine ⟨j - 448, by omega, ?_⟩
    split_ifs at hf <;> omega
  · rintro ⟨k, hk, rfl⟩
    refine ⟨by omega, 448 + k, by omega, by omega, ?_⟩
    rw [if_neg (by omega), if_pos (by omega)]
    omega

theorem victim_eighths {x : Bank Wear} (h : FirstFill eighths 496 x.toRow) :
    2 ≤ greedy.victimPblk x ∧ 0 < validPages x (greedy.victimPblk x) ∧
      validPages x (greedy.victimPblk x) < 16 := by
  obtain ⟨-, hmax⟩ := getVictimPblk_spec geometry x.isValid
  change ∀ blk < 32, invalidCnt geometry x.isValid blk ≤
    invalidCnt geometry x.isValid (greedy.victimPblk x) at hmax
  generalize greedy.victimPblk x = v at hmax
  have h2 : 0 < invalidCnt geometry x.isValid 2 :=
    Paging.clearCount_pos.mpr ⟨0, by decide, h.eighths_invalid.mpr ⟨0, by decide, rfl⟩⟩
  obtain ⟨i, hi, hinv⟩ := Paging.clearCount_pos.mp (h2.trans_le (hmax 2 (by decide)))
  change i < 16 at hi
  obtain ⟨k, hk, hq⟩ := h.eighths_invalid.mp hinv
  change v * 16 + i = 32 + 8 * k at hq
  refine ⟨by omega, validCnt_pos.mpr ⟨1, by decide, ?_⟩, validPages_lt.mpr ⟨i, hi, hinv⟩⟩
  rw [← Bool.not_eq_false, h.eighths_invalid]
  rintro ⟨k', -, hq'⟩
  change v * 16 + 1 = 32 + 8 * k' at hq'
  omega

/-- The age of block 0 stays, since it is the number of the free block. -/
theorem ages_eighths {x : Bank Wear} (h : FirstFill eighths 496 x.toRow) (lpn : ℕ)
    (data : Sectors) {blk : ℕ} (hblk : blk < 2) :
    (appendLpn geometry hooks 0 lpn data (greedy.makeRoom 0 x)).aux.age blk = 31 := by
  obtain ⟨hv, h0, h16⟩ := victim_eighths h
  have hage : x.aux.age blk = 31 - blk := by
    rw [h.age blk (hblk.trans (by decide)), if_pos (by omega)]
    omega
  have hgc : (greedy.garbageCollection 0 x).aux.age blk = 31 := by
    unfold Build.garbageCollection
    rw [collect_age, if_neg (by omega)]
    refine (if_neg h0.ne').trans ?_
    change (ageUpdate x.freePblk x.freePblk x.aux).age blk = 31
    rw [h.freePblk, ageUpdate_age (by decide), if_neg (by omega), hage]
    change (if blk < 32 ∧ ¬((31 - blk : ℤ) = -1 ∨ (31 - blk : ℤ) = (31 : ℕ)) then _ else _) = _
    split_ifs <;> omega
  have hnext : (greedy.garbageCollection 0 x).nextPpn % pagesPerBlk ≠ 0 := by
    have hmoved : (greedy.garbageCollection 0 x).nextPpn =
        x.freePblk * pagesPerBlk + validPages x (greedy.victimPblk x) := collect_nextPpn
    rw [hmoved]
    change (x.freePblk * 16 + validPages x (greedy.victimPblk x)) % 16 ≠ 0
    omega
  have hroom : greedy.makeRoom 0 x = greedy.garbageCollection 0 x :=
    if_pos (h.nextPpn.trans h.gcTriggerPpn.symm)
  rw [hroom, appendLpn_age, if_neg hnext, hgc]

theorem not_agesSpec_of_twins {s : Ftl} {hist : List Event}
    (h : ∀ blk < 2, (s.row 0).aux.age blk = 31) : ¬AgesSpec hist 0 (s.toBanks.bank 0) := by
  intro hspec
  have h0 : (s.toBanks.bank 0).aux.age 0 = 31 := h 0 (by decide)
  have h1 : (s.toBanks.bank 0).aux.age 1 = 31 := h 1 (by decide)
  have heq : 0 = 1 := hspec.inj (show 0 < 32 by decide) (show 1 < 32 by decide)
    (by rw [h0]; decide) (h0.trans h1.symm)
  exact absurd heq (by decide)

theorem ages_after_eighths {n : ℕ} (hn : n = 496) {blk : ℕ} (hblk : blk < 2) :
    ((after greedy (fillOps eighths (n + 1))).row 0).aux.age blk = 31 := by
  obtain ⟨hdrained, hfill⟩ := firstFill_run (f := eighths) (n := n) greedy (fun _ => zeroed) zeroed
    (fun _ => 0) (fun j hj => eighths_lt j (by omega)) hn.le
  obtain ⟨-, x, data, hx, hrow⟩ := hdrained.pageOps (b := greedy) (eighths_lt n (by omega))
  rw [← hx, hn] at hfill
  unfold after
  rw [fillOps_succ, Machine.run_append, hrow]
  exact ages_eighths hfill _ data hblk

/-- A block whose age is the number of the free block does not get older. -/
theorem ages_stuck : ¬∀ ops : List Op, (∀ op ∈ ops, op.InRange ∧ op.NoTrim) →
    ∀ hist, Reached greedy (fun _ _ => True) hist (after greedy ops) → ∀ bank < nBanks,
      AgesSpec (hist bank) bank ((after greedy ops).toBanks.bank bank) := by
  intro hall
  obtain ⟨n, hn⟩ : ∃ n, n = 496 := ⟨_, rfl⟩
  have hops : ∀ op ∈ fillOps eighths (n + 1), op.InRange ∧ op.NoTrim :=
    fillOps_inRange fun j hj => eighths_lt j (by omega)
  obtain ⟨hist, hr⟩ := reached_run greedy (fun _ => zeroed) zeroed (fun _ => 0) hops
  exact not_agesSpec_of_twins (fun _ hblk => ages_after_eighths hn hblk)
    (hall (fillOps eighths (n + 1)) hops hist hr 0 (by decide))

end BufferedFtl
