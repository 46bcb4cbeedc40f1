import Coursework.Dftl.Overfull

/-! The run that fills a bank, on the device: afterwards page 0 reads as it was before its last
write, and data garbage collection has returned without a free page. -/
namespace Dftl
open Nand Sector Paging

section Device
variable {s : Ftl} {b l : ℕ}

/-- Gathering the old page only translates and reads. -/
theorem load_kept {w : Writing} (hinv : BankInv b (w.ftl.bank b)) (hl : l < nLpnsPb)
    (pad : Sectors) : Kept b (w.ftl.bank b) ((w.load b l pad).ftl.bank b) ∧
      (w.load b l pad).cur = w.cur := by
  obtain ⟨hk, he⟩ := lpn2ppn_kept hinv.map hl
  have hself : (w.ftl.lpn2ppn b l).2.bank b = (Dftl.lpn2ppn b l (w.ftl.bank b)).2 := bank_put _ _ _
  rw [← hself] at hk
  have hentry : (w.ftl.lpn2ppn b l).1 = table b ((w.ftl.lpn2ppn b l).2.bank b) l := by
    rw [hk.table]
    exact he
  have hinv' := hk.bankInv hinv
  unfold Writing.load
  simp only
  generalize w.ftl.lpn2ppn b l = x at *
  obtain ⟨ppn, s⟩ := x
  simp only at hk hentry hinv' ⊢
  cases simBufferL2s (s.row b) l with
  | some slot => exact ⟨hk, rfl⟩
  | none =>
    simp only
    split_ifs with hne
    · exact ⟨hk, rfl⟩
    · rw [hentry] at hne
      obtain ⟨d, -, hrd⟩ := hinv'.read_entry hne
      have hrd' : nandRead s.nand _ _ _ w.data s.stack.spare = _ := hrd w.data s.stack.spare
      unfold Writing.fetch Ftl.readPpn
      simp only
      rw [hentry, hrd', bank_put]
      refine ⟨hk.trans ⟨?_, rfl, Local.refl _ _, fun _ _ => rfl, fun _ _ => rfl, fun _ _ => rfl,
        rfl, fun hc => hc.returned⟩, trivial⟩
      obtain ⟨h1, h2, h3, h4, h5, h6, h7, h8⟩ := hk.inv
      exact ⟨h1, h2, h3, h4, h5, h6, h7, h8⟩

theorem BankInv.withStack {s : Bank} (h : BankInv b s) (stack : Page Sectors ℤ) :
    BankInv b { s with stack := stack } := by
  obtain ⟨⟨h1, h2, h3, h4, h5, h6, h7, h8⟩, hr, hl, hbuf⟩ := h
  exact ⟨⟨h1, h2, h3, h4, h5, h6, h7, h8⟩, hr, hl, hbuf⟩

/-- Writing one page of bank 0 as a whole. -/
theorem write_bank (hinv : BankInv 0 (s.bank 0)) (hl : l < nLpnsPb) (v : Word)
    (stack : Page Sectors ℤ) :
    ∃ x, Kept 0 { s.bank 0 with stack := stack } x ∧
      (step s (.write (64 * l) 8 (fun _ => v) stack)).bank 0 =
        (writeThroughLpn 0 l (fun _ => v) x).count fun t =>
          { t with hostWrite := t.hostWrite + 8 } := by
  have hone : (⟨64 * l, 8⟩ : Request).sendKazu = 1 := by
    rw [Request.sendKazu_eq]
    simp only
    omega
  have hoff : (⟨64 * l, 8⟩ : Request).firstLbaOffset = 0 := by
    unfold Request.firstLbaOffset
    simp only
    omega
  have hpage : (⟨64 * l, 8⟩ : Request).firstPageFirstLba / 8 = 8 * l := by
    unfold Request.firstPageFirstLba Request.firstLbaOffset
    simp only
    omega
  have hbank : 8 * l % nBanks = 0 := Nat.mul_mod_right 8 l
  have hlpn : 8 * l / nBanks = l := Nat.mul_div_cancel_left l (by decide)
  let w : Writing := ⟨{ s with stack := stack }, 0, stack.data⟩
  let pad := (stack.data.patch 0 0 fun _ => blank).patch
    ((⟨64 * l, 8⟩ : Request).lastLbaOffset + 1) (7 - (⟨64 * l, 8⟩ : Request).lastLbaOffset)
      fun _ => blank
  obtain ⟨hk, -⟩ := @load_kept 0 l w (hinv.withStack stack) hl pad
  refine ⟨_, hk, ?_⟩
  have hdata : ((w.load 0 l pad).data.patch 0 8 fun _ => v) = fun _ => v := by
    funext k
    exact if_pos ⟨Nat.zero_le _, by have := k.isLt; omega⟩
  unfold step ftlWrite
  simp only
  rw [if_pos hone]
  unfold writeSingle
  simp only
  rw [hpage, hbank, hlpn, hoff]
  change (((w.load 0 l pad).send (fun _ => v) 0 l 0 8).ftl.bank 0).count
    (fun t => { t with hostWrite := t.hostWrite + 8 }) = _
  unfold Writing.send
  simp only
  rw [hdata, bank_put]

/-- Reading an unbuffered page 0 whose entry is 96. -/
theorem readBack_zero {k : ℤ} (hinv : MapInv 0 (s.bank 0))
    (hnone : simBufferL2s (s.row 0) 0 = none) (hentry : table 0 (s.bank 0) 0 = 96)
    (hphys : s.nand.phys 0 96 = some ⟨fun _ => 0, k⟩) (stack : Page Sectors ℤ) (buf : ℕ → Word) :
    readBack s stack 0 8 buf 0 = 0 := by
  let s' : Ftl := { s with stack := stack }
  have hinv' : MapInv 0 (s'.bank 0) := by
    obtain ⟨h1, h2, h3, h4, h5, h6, h7, h8⟩ := hinv
    exact ⟨h1, h2, h3, h4, h5, h6, h7, h8⟩
  obtain ⟨hk, he⟩ := lpn2ppn_kept hinv' (show 0 < nLpnsPb by decide)
  have hreq : s'.require (8 > 0) = s' := by simp [Ftl.require]
  have hppn : (s'.lpn2ppn 0 0).1 = 96 := he.trans hentry
  have hread : ∀ data spare, nandRead (s'.lpn2ppn 0 0).2.nand (0 : ℕ) (96 / pagesPerBlk)
      (96 % pagesPerBlk) data spare = (.success, ⟨fun _ => 0, k⟩) :=
    hk.inv.fits.read ((hk.step.phys 96 (by decide)).trans hphys)
  have hpage : (⟨0, 8⟩ : Request).firstPageFirstLba / 8 = 0 := rfl
  have hslot : simBufferL2s (s'.row 0) (0 : ℕ) = none := hnone
  unfold readBack ftlRead
  simp only
  rw [hreq, if_pos (by decide)]
  unfold readSingle
  simp only [hpage, Nat.zero_mod, Nat.zero_div, hslot]
  generalize s'.lpn2ppn 0 0 = x at *
  unfold Reading.miss Ftl.readPpn Ftl.count
  simp only
  rw [hppn, if_neg (by decide), hread]
  simp [store, Sectors.get]

/-- The first `n` writes of the run. -/
def fillOps (n : ℕ) : List Op :=
  (List.range n).map fun i => .write (64 * order i) 8 (fun _ => word i) ⟨fun _ => 0, 0⟩

/-- A device whose buffer slots fall victim in order. -/
def fifoOpen : Ftl := ftlOpen (fun _ => ⟨fun _ => 0, 0⟩) ⟨fun _ => 0, 0⟩ (fun k => k) fun _ => 0

theorem run_fillOps_succ (n : ℕ) : Machine.run step fifoOpen (fillOps (n + 1)) =
    step (Machine.run step fifoOpen (fillOps n))
      (.write (64 * order n) 8 (fun _ => word n) ⟨fun _ => 0, 0⟩) := by
  rw [fillOps, List.range_succ, List.map_append, Machine.run_append]
  rfl

theorem fillOps_inRange {n : ℕ} (hn : n ≤ 524) : ∀ op ∈ fillOps n, op.InRange := by
  have e1 : nLpnsPb = 512 := rfl
  have e2 : nLpns = 4096 := rfl
  intro op hop
  obtain ⟨i, hi, rfl⟩ := List.mem_map.mp hop
  have hlt := order_lt (n := i) (by have := List.mem_range.mp hi; omega)
  exact ⟨by decide, by omega⟩

theorem Loaded.withStack {n : ℕ} {s : Bank} (h : Loaded 0 n s) (stack : Page Sectors ℤ) :
    Loaded 0 n { s with stack := stack } := by
  obtain ⟨⟨h1, h2, h3⟩, he⟩ := h
  refine ⟨⟨h1, h2, h3⟩, ?_⟩
  rcases he with ⟨hm, ⟨hinv, hr, hn, ht, hz⟩, htable⟩ | ⟨hm, ⟨hinv, hr, hn, ht, hz⟩, hall⟩
  · exact .inl ⟨hm, ⟨hinv.withStack stack, hr, hn, ht, hz⟩, htable⟩
  · exact .inr ⟨hm, ⟨hinv.withStack stack, hr, hn, ht, hz⟩, hall⟩

theorem loaded_fillOps : ∀ n ≤ 523, Loaded 0 n ((Machine.run step fifoOpen (fillOps n)).bank 0)
  | 0, _ => by
    refine ⟨⟨fun k => (Nat.zero_add k).symm, fun _ _ _ => rfl, fun i hi => absurd hi (by omega)⟩,
      .inl ⟨by decide, ⟨bankInv_ftlOpen _ _ _ _ (by decide), region_ftlOpen _ _ _ _ 0, rfl, rfl,
        fun k d hd => ?_⟩, funext (table_ftlOpen _ _ _ _ 0)⟩⟩
    have hnone : (dataLog 0 (fifoOpen.bank 0)).loc k = none := by
      unfold dataLog regionLog fifoOpen
      simp only [table_ftlOpen, entry_neg_one, ite_self]
    have hd' : (dataLog 0 (fifoOpen.bank 0)).value k = some d := hd
    rw [PageLog.value, hnone] at hd'
    cases hd'
  | n + 1, hn => by
    have hold := (loaded_fillOps n (by omega)).withStack ⟨fun _ => 0, 0⟩
    obtain ⟨x, hk, hx⟩ := write_bank (loaded_fillOps n (by omega)).evicted.inv
      (order_lt (n := n) (by omega)) (word n) ⟨fun _ => 0, 0⟩
    have hstep := Loaded.step ⟨hold.queue.kept hk, hold.evicted.kept hk⟩ (by omega)
    rw [run_fillOps_succ, hx]
    have hcount := kept_count hstep.evicted.inv.map fun t => { t with hostWrite := t.hostWrite + 8 }
    exact ⟨hstep.queue.kept hcount, hstep.evicted.kept hcount⟩

/-- Page 0 of bank 0 is lost: its entry names a page that holds zeros, and data garbage
collection has returned without room. -/
structure ZeroLost (s : Ftl) : Prop where
  inv : MapInv 0 (s.bank 0)
  unbuffered : simBufferL2s (s.row 0) 0 = none
  entry : table 0 (s.bank 0) 0 = 96
  phys : ∃ k, s.nand.phys 0 96 = some ⟨fun _ => 0, k⟩
  gcReturns : (96, 96) ∈ s.trace.gcReturns

/-- The last write of the run. -/
theorem Loaded.zeroLost {x : Bank} (hlast : Loaded 0 523 x)
    (hbank : s.bank 0 = (writeThroughLpn 0 10 (fun _ => 0) x).count fun t =>
      { t with hostWrite := t.hostWrite + 8 }) : ZeroLost s := by
  obtain ⟨hlost, hwrite⟩ := hlast.last
  rw [hwrite] at hbank
  obtain ⟨⟨hs2l, -, -⟩, ⟨h1, h2, h3, h4, h5, h6, h7, h8⟩, hentry, hphys, hret⟩ := hlost
  have hnone : simBufferL2s (s.bank 0).toRow 0 = none := by
    rw [hbank]
    refine Slots.find_eq_none.mpr fun o ho => ?_
    change Function.update (evict 0 _).bufferS2l 3 (10 : ℤ) o ≠ 0
    by_cases ho3 : o = 3
    · rw [ho3, Function.update_self]
      decide
    · rw [Function.update_of_ne ho3, hs2l, Function.update_of_ne ho3]
      have e : nBuffers = 10 := rfl
      rcases hlast.queue.slot_cases ho with ⟨-, h⟩ | ⟨i, hi, hw, hmod, h⟩
      · omega
      · have hmod' : i % 10 = o := hmod
        have hne : order i ≠ 0 := by
          unfold order
          split_ifs <;> omega
        omega
  have hinv : MapInv 0 (s.bank 0) := by
    rw [hbank]
    exact ⟨h1, h2, h3, h4, h5, h6.congr rfl rfl, h7, h8⟩
  have htable : table 0 (s.bank 0) 0 = 96 := by
    rw [hbank]
    exact hentry
  have hnand : ∃ k, (s.bank 0).nand.phys 0 96 = some ⟨fun _ => 0, k⟩ := by
    rw [hbank]
    exact hphys
  have hreturns : (96, 96) ∈ (s.bank 0).trace.gcReturns := by
    rw [hbank]
    exact hret
  exact ⟨hinv, hnone, htable, hnand, hreturns⟩

theorem zeroLost_fillOps : ZeroLost (Machine.run step fifoOpen (fillOps 524)) := by
  have hold := (loaded_fillOps 523 le_rfl).withStack ⟨fun _ => 0, 0⟩
  obtain ⟨x, hk, hx⟩ := write_bank (loaded_fillOps 523 le_rfl).evicted.inv
    (order_lt (n := 523) le_rfl) (word 523) ⟨fun _ => 0, 0⟩
  rw [run_fillOps_succ]
  exact Loaded.zeroLost ⟨hold.queue.kept hk, hold.evicted.kept hk⟩ hx

theorem expected_fillOps : ∀ n ≤ 524, expected (fillOps n) 0 =
    if n = 0 then blank else if n ≤ 513 then 0 else 1
  | 0, _ => rfl
  | n + 1, hn => by
    have hsucc : expected (fillOps (n + 1)) =
        writeFlat (expected (fillOps n)) (64 * order n) 8 fun _ => word n := by
      rw [expected, fillOps, List.range_succ, List.map_append, Machine.run_append]
      rfl
    have hcond : (64 * order n ≤ 0 ∧ 0 < 64 * order n + 8) ↔ n = 0 ∨ n = 513 := by
      unfold order
      split_ifs <;> omega
    rw [hsucc, writeFlat, if_congr hcond rfl rfl, expected_fillOps n (by omega), word,
      if_neg (Nat.succ_ne_zero n)]
    by_cases h0 : n = 0
    · rw [if_pos (.inl h0), if_neg (by omega), if_pos (by omega)]
    · by_cases h513 : n = 513
      · rw [if_pos (.inr h513), if_pos h513, if_neg (by omega)]
      · rw [if_neg (by omega), if_neg h0]
        exact if_congr (by omega) rfl rfl

end Device

/-- A page is read back as it was before its last write: the write of page 0 that follows 523
others is evicted to a data page in use. -/
theorem ftlRead_stale : ¬ ∀ (dataVictims slotVictims : ℕ → ℕ) (ops : List Op),
    (∀ op ∈ ops, op.InRange) → ∀ lba nsect, InRange lba nsect → ∀ stack buf, ∀ i < nsect,
      readBack (Machine.run step (ftlOpen (fun _ => ⟨fun _ => 0, 0⟩) ⟨fun _ => 0, 0⟩ dataVictims
        slotVictims) ops) stack lba nsect buf i = expected ops (lba + i) := by
  intro h
  have hlost := zeroLost_fillOps
  have hread : readBack (Machine.run step fifoOpen (fillOps 524)) ⟨fun _ => 0, 0⟩ 0 8 (fun _ => 0)
      0 = expected (fillOps 524) (0 + 0) :=
    h (fun k => k) (fun _ => 0) (fillOps 524) (fillOps_inRange le_rfl) 0 8
      ⟨by decide, by decide⟩ ⟨fun _ => 0, 0⟩ (fun _ => 0) 0 (by decide)
  rw [Nat.add_zero, expected_fillOps 524 le_rfl] at hread
  generalize Machine.run step fifoOpen (fillOps 524) = s at *
  obtain ⟨k, hphys⟩ := hlost.phys
  rw [readBack_zero hlost.inv hlost.unbuffered hlost.entry hphys] at hread
  exact absurd hread (by decide)

/-- In the same run data garbage collection returns without a free data page. -/
theorem spaceOk_fails : ¬ ∀ (dataVictims slotVictims : ℕ → ℕ) (ops : List Op),
    (∀ op ∈ ops, op.InRange) → SpaceOk (Machine.run step (ftlOpen (fun _ => ⟨fun _ => 0, 0⟩)
      ⟨fun _ => 0, 0⟩ dataVictims slotVictims) ops).trace := by
  intro h
  have hspace := (h (fun k => k) (fun _ => 0) (fillOps 524) (fillOps_inRange le_rfl)).2.2
  have hlost := zeroLost_fillOps
  unfold fifoOpen at hlost
  generalize Machine.run step _ (fillOps 524) = s at *
  exact absurd (hspace _ hlost.gcReturns) (by decide)

end Dftl
