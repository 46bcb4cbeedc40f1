import Coursework.Dftl.Translation

/-! The translation of all banks refines a flat table, over every sequence of `lpn2ppn` and
`update_L2P` calls from `ftl_open` on. -/
namespace Dftl
open Nand Sector Paging

section Rows
variable {bank : ℕ} {s s' : Bank}

theorem mapLog_congr (hrow : s'.toRow = s.toRow) (hphys : s'.nand.phys bank = s.nand.phys bank) :
    mapLog bank s' = mapLog bank s := by
  rw [mapLog, mapLog, hphys, hrow]

theorem table_other (hrow : s'.toRow = s.toRow) (hphys : s'.nand.phys bank = s.nand.phys bank) :
    table bank s' = table bank s := by
  refine table_congr fun v => ?_
  rw [mapPage, mapPage, mapLog_congr hrow hphys, hrow]

theorem MapInv.other (h : MapInv bank s) (hrow : s'.toRow = s.toRow) {b : ℕ}
    (hl : Local s.nand s'.nand b) (hb : bank ≠ b) : MapInv bank s' := by
  have hphys := hl.phys bank hb
  constructor
  · exact h.fits.of_local hl
  · rw [mapLog_congr hrow hphys, hrow]
    exact h.region
  · rw [hrow]
    exact h.outside
  · rw [hrow]
    exact h.gtd_ge
  · rw [hrow]
    exact h.gtd_lt
  · rw [hrow]
    exact h.cmt
  · rw [hrow]
    exact h.fresh
  · rw [table_other hrow hphys]
    exact h.table_ge

end Rows

section Init
variable (mem : ℕ → Page Sectors ℤ) (stack : Page Sectors ℤ) (dataVictims slotVictims : ℕ → ℕ)

theorem initNand_spec : (initNand mem).nbanks = nBanks ∧ (initNand mem).nblks = blksPerBank ∧
    (initNand mem).npages = pagesPerBlk ∧ ∀ b p, (initNand mem).phys b p = none := by
  have h : nandInit mem nBanks blksPerBank pagesPerBlk = some (initNand mem) :=
    (Option.some_get _).symm
  obtain ⟨h1, h2, h3, h4⟩ := cell_nandInit h
  exact ⟨by omega, by omega, by omega, fun b p => h4 _ _ _⟩

theorem slotOf_initRow (v : ℕ) : slotOf initRow v = none := by
  refine Slots.find_eq_none.mpr fun o _ => ?_
  simp only [initRow]
  omega

/-- Freshly opened, a region is empty, and its last block is the spare one. -/
theorem region_initRow {lo hi : ℕ} {kind : Status} {tbl : ℕ → ℤ} {status : ℕ → Status}
    {phys : ℕ → Option (Page Sectors ℤ)} (hlt : lo < hi) (hphys : ∀ p, phys p = none)
    (htbl : ∀ l, tbl l = -1) (hempty : status (hi - 1) = .empty)
    (hkind : ∀ b, lo ≤ b → b < hi - 1 → status b = kind) :
    Region lo hi kind (lo * pagesPerBlk) ((hi - 1) * pagesPerBlk) status
      (regionLog lo hi phys tbl fun _ => true) (hi - 1) := by
  have hcell : ∀ p, (regionLog lo hi phys tbl fun _ => true).cell p = none := by
    intro p
    simp [regionLog, hphys]
  refine ⟨⟨⟨fun {k p} hl => ?_, fun {p} _ => ?_⟩, fun {p} => ?_, by omega, by omega, le_rfl, ?_,
    ?_, Dvd.intro_left _ rfl, fun p _ h2 => ?_⟩, hempty, fun b h1 h2 h3 => hkind b h1 (by omega)⟩
  · simp only [regionLog, htbl] at hl
    split_ifs at hl
    cases hl
  · simp [regionLog, hphys]
  · rw [hcell]
    simp only [Option.isSome_none, Bool.false_eq_true, false_iff, not_and, not_or, not_lt, not_le]
    intro h1 h2 h3
    have := (Nat.div_lt_iff_lt_mul pagesPerBlk_pos).mpr h2
    exact ⟨h1, (Nat.div_lt_iff_lt_mul pagesPerBlk_pos).mp (by omega)⟩
  · exact Nat.mul_le_mul_right _ (by omega)
  · exact Nat.mul_le_mul_right _ (by omega)
  · exact ((Nat.div_lt_iff_lt_mul pagesPerBlk_pos).mpr h2).ne

theorem mapPage_ftlOpen (b v : ℕ) :
    mapPage b ((ftlOpen mem stack dataVictims slotVictims).bank b) v = fun _ => -1 := by
  rw [mapPage_uncached (slotOf_initRow v)]
  have : (mapLog b ((ftlOpen mem stack dataVictims slotVictims).bank b)).loc v = none := by
    rw [mapLog, loc_natCast]
    rfl
  rw [PageLog.value, this]
  rfl

theorem mapInv_ftlOpen {b : ℕ} (hb : b < nBanks) :
    MapInv b ((ftlOpen mem stack dataVictims slotVictims).bank b) := by
  obtain ⟨h1, h2, h3, h4⟩ := initNand_spec mem
  constructor
  · exact ⟨by change b < (initNand mem).nbanks; omega, h2, h3⟩
  · refine ⟨blksPerBank - 1, ?_⟩
    refine @region_initRow nPhyDataBlk blksPerBank _ _ _ _ (by decide) (h4 b)
      (fun _ => rfl) rfl fun blk hlo hhi => ?_
    have e1 : nPhyDataBlk = 33 := rfl
    have e2 : nUserBlocksPb + nUserOpBlocksPb - 1 = 32 := rfl
    change (initRow.blockStatus blk) = _
    simp only [initRow]
    rw [if_neg (by omega), if_neg (by omega), if_neg (by omega)]
  · intro blk hblk
    have e1 : nPhyDataBlk = 33 := rfl
    have e2 : nUserBlocksPb + nUserOpBlocksPb - 1 = 32 := rfl
    change (initRow.blockStatus blk) ≠ _
    simp only [initRow]
    split_ifs <;> first | omega | simp
  · exact fun _ => le_rfl
  · exact fun v hv => absurd rfl hv
  · exact ⟨Slots.distinct_free _ _, fun _ _ h => absurd rfl h⟩
  · intro v
    exact ⟨fun _ => ⟨rfl, slotOf_initRow v⟩, fun _ => rfl⟩
  · intro l
    rw [table, mapPage_ftlOpen]
    rfl

theorem table_ftlOpen (b l : ℕ) :
    table b ((ftlOpen mem stack dataVictims slotVictims).bank b) l = -1 := by
  rw [table, mapPage_ftlOpen]
  rfl

theorem clean_ftlOpen : (ftlOpen mem stack dataVictims slotVictims).trace.Clean :=
  ⟨rfl, fun _ h => absurd h List.not_mem_nil, fun _ h => absurd h List.not_mem_nil,
    fun _ h => absurd h List.not_mem_nil⟩

end Init

/-- A call of the translation. -/
inductive TableOp where
  | lookup (bank lpn : ℕ)
  | update (bank lpn : ℕ) (ppn : ℤ)

namespace TableOp

/-- The arguments the callers pass. -/
def InRange : TableOp → Prop
  | lookup bank lpn => bank < nBanks ∧ lpn < nLpnsPb
  | update bank lpn ppn => bank < nBanks ∧ lpn < nLpnsPb ∧ 0 ≤ ppn

/-- The call is an `update_L2P` of the given entry. -/
def Sets (op : TableOp) (b l : ℕ) : Prop :=
  match op with
  | lookup _ _ => False
  | update bank lpn _ => bank = b ∧ lpn = l

end TableOp

def tableStep (s : Ftl) : TableOp → Ftl
  | .lookup bank lpn => s.put bank (lpn2ppn bank lpn (s.bank bank)).2
  | .update bank lpn ppn => s.put bank (updateL2p bank lpn ppn (s.bank bank))

/-- The result of `lpn2ppn(bank, lpn)`. -/
def translate (s : Ftl) (bank lpn : ℕ) : ℤ := (lpn2ppn bank lpn (s.bank bank)).1

/-- A call on a flat table. -/
def flatStep (T : ℕ → ℕ → ℤ) : TableOp → ℕ → ℕ → ℤ
  | .lookup _ _ => T
  | .update bank lpn ppn => Function.update T bank (Function.update (T bank) lpn ppn)

/-- The entry each last `update_L2P` gave, and `-1` where there was none. -/
def lastUpdates (ops : List TableOp) : ℕ → ℕ → ℤ := Machine.run flatStep (fun _ _ => -1) ops

/-- The translation stands for a flat table. -/
structure TableRefines (s : Ftl) (T : ℕ → ℕ → ℤ) : Prop where
  inv : ∀ b < nBanks, MapInv b (s.bank b)
  table_eq : ∀ b < nBanks, table b (s.bank b) = T b
  clean : s.trace.Clean

namespace TableRefines
variable {s : Ftl} {T : ℕ → ℕ → ℤ}

theorem put (h : TableRefines s T) {b : ℕ} {x : Bank} {f : ℕ → ℤ} (hinv : MapInv b x)
    (htable : table b x = f) (hstep : MapStep b (s.bank b) x) :
    TableRefines (s.put b x) (Function.update T b f) := by
  have hrow : ∀ b', b' ≠ b → ((s.put b x).bank b').toRow = (s.bank b').toRow := fun b' hb =>
    Function.update_of_ne hb _ _
  have hself : (s.put b x).bank b = x := by
    simp only [Ftl.put, Ftl.bank, Function.update_self]
  refine ⟨fun b' hb' => ?_, fun b' hb' => ?_, hstep.clean h.clean⟩
  · by_cases hb : b' = b
    · rwa [hb, hself]
    · exact (h.inv b' hb').other (hrow b' hb) hstep.isLocal hb
  · by_cases hb : b' = b
    · rw [hb, hself, Function.update_self, htable]
    · rw [Function.update_of_ne hb, ← h.table_eq b' hb']
      exact table_other (hrow b' hb) (hstep.isLocal.phys b' hb)

theorem step (h : TableRefines s T) {op : TableOp} (hop : op.InRange) :
    TableRefines (tableStep s op) (flatStep T op) := by
  cases op with
  | lookup bank lpn =>
    obtain ⟨hk, -⟩ := lpn2ppn_kept (h.inv bank hop.1) hop.2
    have := h.put hk.inv (hk.table.trans (h.table_eq bank hop.1)) hk.step
    rwa [Function.update_eq_self] at this
  | update bank lpn ppn =>
    obtain ⟨h1, h2, h3⟩ := updateL2p_spec (h.inv bank hop.1) hop.2.1 hop.2.2
    rw [h.table_eq bank hop.1] at h2
    exact h.put h1 h2 h3

theorem translate_eq (h : TableRefines s T) {b l : ℕ} (hb : b < nBanks) (hl : l < nLpnsPb) :
    translate s b l = T b l := by
  rw [translate, (lpn2ppn_kept (h.inv b hb) hl).2, h.table_eq b hb]

end TableRefines

section Runs
variable (mem : ℕ → Page Sectors ℤ) (stack : Page Sectors ℤ) (dataVictims slotVictims : ℕ → ℕ)

theorem tableRefines_run {ops : List TableOp} (hops : ∀ op ∈ ops, op.InRange) :
    TableRefines (Machine.run tableStep (ftlOpen mem stack dataVictims slotVictims) ops)
      (lastUpdates ops) := by
  refine Machine.simulation (P := fun _ op => op.InRange) (fun _ _ _ h hop => h.step hop) ops _ _
    ⟨fun b hb => mapInv_ftlOpen mem stack dataVictims slotVictims hb, fun b hb => ?_,
      clean_ftlOpen mem stack dataVictims slotVictims⟩
    (Machine.along_of_forall (fun op hop _ => hops op hop) _)
  exact funext (table_ftlOpen mem stack dataVictims slotVictims b)

theorem flatStep_other (T : ℕ → ℕ → ℤ) {op : TableOp} {b l : ℕ} (h : ¬op.Sets b l) :
    flatStep T op b l = T b l := by
  cases op with
  | lookup bank lpn => rfl
  | update bank lpn ppn =>
    simp only [flatStep]
    by_cases hb : b = bank
    · subst hb
      rw [Function.update_self, Function.update_of_ne]
      rintro rfl
      exact h ⟨rfl, rfl⟩
    · rw [Function.update_of_ne hb]

/-- `lpn2ppn` returns what the last `update_L2P` gave, no call changes the translation of
another page, and no assertion fails. -/
theorem lpn2ppn_last_update {ops : List TableOp} (hops : ∀ op ∈ ops, op.InRange) :
    let s := Machine.run tableStep (ftlOpen mem stack dataVictims slotVictims) ops
    (∀ b < nBanks, ∀ l < nLpnsPb, translate s b l = lastUpdates ops b l) ∧
      (∀ op : TableOp, op.InRange → ∀ b < nBanks, ∀ l < nLpnsPb, ¬op.Sets b l →
        translate (tableStep s op) b l = translate s b l) ∧
      s.trace.asserted = true := by
  have h := tableRefines_run mem stack dataVictims slotVictims hops
  refine ⟨fun b hb l hl => h.translate_eq hb hl, fun op hop b hb l hl hne => ?_, h.clean.asserted⟩
  rw [h.translate_eq hb hl, (h.step hop).translate_eq hb hl, flatStep_other _ hne]

/-- Five map pages in four slots: the first one is evicted and brought back. -/
theorem lpn2ppn_last_update_evicted :
    translate (Machine.run tableStep (ftlOpen (fun _ => ⟨fun _ => 0, 0⟩) ⟨fun _ => 0, 0⟩
        (fun _ => 0) fun _ => 0)
      [.update 1 3 700, .update 1 8 1, .update 1 16 2, .update 1 24 3, .update 1 32 4]) 1 3 =
      700 := by
  have h := (@lpn2ppn_last_update (fun _ => ⟨fun _ => 0, 0⟩) ⟨fun _ => 0, 0⟩ (fun _ => 0)
    (fun _ => 0) [.update 1 3 700, .update 1 8 1, .update 1 16 2, .update 1 24 3,
      .update 1 32 4] (by simp [TableOp.InRange, nBanks, nLpnsPb, nUserBlocksPb, blksPerBank,
        nMapBlocksPb, nMapPagesPb, nPpnsPb, pagesPerBlk, nMapEntriesPerPage, mapEntrySize,
        opRatio])).1 1 (by decide) 3 (by decide)
  rw [h]
  decide

end Runs

end Dftl
