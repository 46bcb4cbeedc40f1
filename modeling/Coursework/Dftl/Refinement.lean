import Coursework.Dftl.Writes

/-! Runs of the demand-paged FTL against the flat array of sectors. They stand for it as long as
no write comes to a data garbage collection that finds no invalid page. -/
namespace Dftl
open Nand Sector Paging

variable {s : Ftl} {flat : ℕ → Word}

/-- A call of the driver in range that is safe to execute. -/
def Admitted (s : Ftl) : Op → Prop
  | .read lba nsect _ _ => InRange lba nsect
  | .write lba nsect buf stack =>
    InRange lba nsect ∧ WriteSafe { s with stack := stack } lba nsect buf

theorem Refines.step (h : Refines s flat) {op : Op} (hop : Admitted s op) :
    Refines (step s op) (flatWrites flat op) := by
  cases op with
  | read lba nsect buf stack => exact ((h.withStack stack).ftlRead hop buf).1
  | write lba nsect buf stack => exact (h.withStack stack).ftlWrite hop.1 hop.2

/-- What the sectors hold after the calls: what was last written to them, else blanks. -/
def expected (ops : List Op) : ℕ → Word := Machine.run flatWrites (fun _ => blank) ops

/-- What `ftl_read` leaves in the caller's buffer. -/
def readBack (s : Ftl) (stack : Page Sectors ℤ) (lba nsect : ℕ) (buf : ℕ → Word) : ℕ → Word :=
  (ftlRead { s with stack := stack } lba nsect buf).2

section Runs
variable (mem : ℕ → Page Sectors ℤ) (stack : Page Sectors ℤ) (dataVictims slotVictims : ℕ → ℕ)

theorem region_ftlOpen (b : ℕ) :
    Region 0 nPhyDataBlk .data 0 ((nPhyDataBlk - 1) * pagesPerBlk) initRow.blockStatus
      (dataLog b ((ftlOpen mem stack dataVictims slotVictims).bank b)) (nPhyDataBlk - 1) := by
  obtain ⟨-, -, -, hphys⟩ := initNand_spec mem
  have htable := table_ftlOpen mem stack dataVictims slotVictims b
  have e1 : nPhyDataBlk = 33 := rfl
  have e2 : nUserBlocksPb + nUserOpBlocksPb - 1 = 32 := rfl
  have hregion := @region_initRow 0 nPhyDataBlk .data _ initRow.blockStatus _ (by decide)
    (hphys b) htable (by decide) fun blk _ hhi => by
      simp only [initRow]
      rw [if_pos (by omega)]
  rwa [Nat.zero_mul] at hregion

theorem bankInv_ftlOpen {b : ℕ} (hb : b < nBanks) :
    BankInv b ((ftlOpen mem stack dataVictims slotVictims).bank b) :=
  ⟨mapInv_ftlOpen mem stack dataVictims slotVictims hb,
    ⟨nPhyDataBlk - 1, region_ftlOpen mem stack dataVictims slotVictims b⟩,
    fun l hl => absurd (table_ftlOpen mem stack dataVictims slotVictims b l) hl,
    Slots.distinct_free _ _⟩

theorem content_ftlOpen (b l : ℕ) :
    content b ((ftlOpen mem stack dataVictims slotVictims).bank b) l = fun _ => blank := by
  have hnone : simBufferL2s initRow l = none := by
    refine Slots.find_eq_none.mpr fun o _ => ?_
    simp only [initRow]
    omega
  have hloc : (dataLog b ((ftlOpen mem stack dataVictims slotVictims).bank b)).loc l = none := by
    rw [dataLog, loc_natCast, table_ftlOpen, entry_neg_one]
  rw [content_unbuffered hnone, PageLog.value, hloc]
  rfl

theorem refines_ftlOpen :
    Refines (ftlOpen mem stack dataVictims slotVictims) fun _ => blank :=
  ⟨fun _ hb => bankInv_ftlOpen mem stack dataVictims slotVictims hb,
    fun _ _ => content_ftlOpen mem stack dataVictims slotVictims _ _,
    clean_ftlOpen mem stack dataVictims slotVictims⟩

theorem refines_run {ops : List Op}
    (hops : Machine.Along step Admitted (ftlOpen mem stack dataVictims slotVictims) ops) :
    Refines (Machine.run step (ftlOpen mem stack dataVictims slotVictims) ops) (expected ops) :=
  Machine.simulation (fun _ _ _ h hop => h.step hop) ops _ _
    (refines_ftlOpen mem stack dataVictims slotVictims) hops

/-- A read returns for each sector what was last written to it. -/
theorem ftlRead_latest {ops : List Op}
    (hops : Machine.Along step Admitted (ftlOpen mem stack dataVictims slotVictims) ops)
    {lba nsect : ℕ} (hin : InRange lba nsect) (stack' : Page Sectors ℤ) (buf : ℕ → Word) :
    ∀ i < nsect, readBack (Machine.run step (ftlOpen mem stack dataVictims slotVictims) ops)
      stack' lba nsect buf i = expected ops (lba + i) :=
  (((refines_run mem stack dataVictims slotVictims hops).withStack stack').ftlRead hin buf).2

/-- All NAND operations succeed, each page goes to a block of its kind, and each data garbage
collection makes room. -/
def SpaceOk (t : Trace) : Prop :=
  (∀ c ∈ t.codes, c = .success) ∧ (∀ x ∈ t.placed, x.1 = x.2) ∧ ∀ x ∈ t.gcReturns, x.1 < x.2

theorem spaceOk_run {ops : List Op}
    (hops : Machine.Along step Admitted (ftlOpen mem stack dataVictims slotVictims) ops) :
    SpaceOk (Machine.run step (ftlOpen mem stack dataVictims slotVictims) ops).trace :=
  have h := (refines_run mem stack dataVictims slotVictims hops).clean
  ⟨h.codes, h.placed, h.gcReturns⟩

end Runs

section Examples

/-- A write over three pages of different banks and one inside a page. -/
def twoWrites : List Op :=
  [.write 3 16 (fun i => i) ⟨fun _ => 0, 0⟩, .write 5 2 (fun i => i) ⟨fun _ => 0, 0⟩]

theorem admitted_twoWrites : Machine.Along step Admitted
    (ftlOpen (fun _ => ⟨fun _ => 0, 0⟩) ⟨fun _ => 0, 0⟩ (fun _ => 0) fun _ => 0) twoWrites := by
  refine ⟨⟨⟨by decide, by decide⟩, fun pp hpp => .inr (.inl ?_)⟩,
    ⟨⟨by decide, by decide⟩, fun pp hpp => .inr (.inl ?_)⟩, trivial⟩
  · revert pp
    decide +kernel
  · revert pp
    decide +kernel

theorem ftlRead_latest_twoWrites :
    readBack (Machine.run step (ftlOpen (fun _ => ⟨fun _ => 0, 0⟩) ⟨fun _ => 0, 0⟩ (fun _ => 0)
      fun _ => 0) twoWrites) ⟨fun _ => 0, 0⟩ 0 8 (fun _ => 0) 5 = expected twoWrites (0 + 5) :=
  ftlRead_latest _ _ _ _ admitted_twoWrites ⟨by decide, by decide⟩ _ _ 5 (by decide)

theorem spaceOk_run_twoWrites :
    SpaceOk (Machine.run step (ftlOpen (fun _ => ⟨fun _ => 0, 0⟩) ⟨fun _ => 0, 0⟩ (fun _ => 0)
      fun _ => 0) twoWrites).trace :=
  spaceOk_run _ _ _ _ admitted_twoWrites

end Examples

end Dftl
