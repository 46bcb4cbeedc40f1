import Coursework.BufferedFtl.Trim

/-! Runs of the buffered FTL of lab 3 against the flat array of sectors. -/
namespace BufferedFtl
open Nand Sector PageMap

variable {s : Ftl} {flat : ℕ → Word}

/-- A call of the driver in range; a trim names only pages that are safe to trim. -/
def Admitted (s : Ftl) (op : Op) : Prop :=
  op.InRange ∧ ∀ lpn npage, op = .trim lpn npage → ∀ p, lpn ≤ p → p < lpn + npage → TrimSafe s p

theorem Refines.step (h : Refines s flat) {op : Op} (hop : Admitted s op) :
    Refines (step s op) (flatStep flat op) := by
  cases op with
  | read lba nsect buf stack => exact ((h.withStack stack).ftlRead hop.1 buf).1
  | write lba nsect buf stack => exact (h.withStack stack).ftlWrite hop.1 buf
  | flush stack => exact (h.withStack stack).ftlFlush.1
  | trim lpn npage => exact (h.ftlTrim hop.1 (hop.2 lpn npage rfl)).refines

theorem refines_run (mem : ℕ → Page Sectors ℕ) (stack : Page Sectors ℕ) (outside : ℤ → ℤ)
    {ops : List Op} (hops : Machine.Along step Admitted (ftlOpen mem stack outside) ops) :
    Refines (Machine.run BufferedFtl.step (ftlOpen mem stack outside) ops) (expected ops) :=
  Machine.simulation (fun _ _ _ h hop => h.step hop) ops _ _
    (refines_ftlOpen mem stack outside) hops

/-- What `ftl_read` leaves in the caller's buffer. -/
def readBack (s : Ftl) (stack : Page Sectors ℕ) (lba nsect : ℕ) (buf : ℕ → Word) : ℕ → Word :=
  (ftlRead { s with stack := stack } lba nsect buf).2

theorem Refines.readBack (h : Refines s flat) {lba nsect : ℕ} (hin : InRange lba nsect)
    (stack : Page Sectors ℕ) (buf : ℕ → Word) {i : ℕ} (hi : i < nsect) :
    readBack s stack lba nsect buf i = flat (lba + i) :=
  ((h.withStack stack).ftlRead hin buf).2 i hi

/-- A call other than a trim. -/
def Op.NoTrim (op : Op) : Prop := ∀ lpn npage, op ≠ .trim lpn npage

section Runs
variable (mem : ℕ → Page Sectors ℕ) (stack : Page Sectors ℕ) (outside : ℤ → ℤ)

/-- After every history of writes, reads and flushes, a read returns for each sector the last
value written to it, or the erased pattern. -/
theorem ftlRead_last_written {ops : List Op} (hops : ∀ op ∈ ops, op.InRange ∧ op.NoTrim)
    {lba nsect : ℕ} (hin : InRange lba nsect) (stack' : Page Sectors ℕ) (buf : ℕ → Word) :
    ∀ i < nsect,
      readBack (Machine.run step (ftlOpen mem stack outside) ops) stack' lba nsect buf i =
      expected ops (lba + i) := fun _ hi =>
  (refines_run mem stack outside (Machine.along_of_forall (fun op hop _ =>
    ⟨(hops op hop).1, fun lpn npage he => absurd he ((hops op hop).2 lpn npage)⟩) _)).readBack
      hin stack' buf hi

theorem ftlRead_last_written_flushed :
    readBack (Machine.run step (ftlOpen (fun _ => ⟨fun _ => 0, 0⟩) ⟨fun _ => 0, 0⟩ fun _ => 0)
      [.write 3 10 (fun i => i) ⟨fun _ => 0, 0⟩, .flush ⟨fun _ => 0, 0⟩,
        .write 5 2 (fun i => i) ⟨fun _ => 0, 0⟩]) ⟨fun _ => 0, 0⟩ 0 16 (fun _ => 0) 5 =
      expected [.write 3 10 (fun i => i) ⟨fun _ => 0, 0⟩, .flush ⟨fun _ => 0, 0⟩,
        .write 5 2 (fun i => i) ⟨fun _ => 0, 0⟩] (0 + 5) :=
  ftlRead_last_written _ _ _ (by simp [Op.InRange, InRange, Op.NoTrim, nLpns_eq])
    ⟨by decide, by decide⟩ _ _ 5 (by decide)

/-- What a trim of `npage` pages is to do: they read as never written, also after a flush,
all other sectors read as before, and of the page flags only those of the pages that held
the trimmed ones change. -/
structure TrimSpec (s : Ftl) (lpn npage : ℕ) : Prop where
  reads : ∀ lba nsect, InRange lba nsect → ∀ stack stack' buf buf', ∀ i < nsect,
    readBack (ftlTrim s lpn npage) stack lba nsect buf i =
      if lpn ≤ (lba + i) / 8 ∧ (lba + i) / 8 < lpn + npage then blank
      else readBack s stack' lba nsect buf' i
  flushed : ∀ lba nsect, InRange lba nsect → ∀ stack stack' stack'' buf buf', ∀ i < nsect,
    readBack (ftlFlush { ftlTrim s lpn npage with stack := stack'' }) stack lba nsect buf i =
      if lpn ≤ (lba + i) / 8 ∧ (lba + i) / 8 < lpn + npage then blank
      else readBack s stack' lba nsect buf' i
  isValid : ∀ b < nBanks, ∀ q < nPpnsPb,
    (∀ p, lpn ≤ p → p < lpn + npage → p % nBanks = b → s.ppn p ≠ (q : ℕ)) →
      ((ftlTrim s lpn npage).row b).isValid q = (s.row b).isValid q

/-- In every state reached by calls whose trims name only pages safe to trim, trimming pages
safe to trim does what it is to do. -/
theorem ftlTrim_spec {ops : List Op}
    (hops : Machine.Along step Admitted (ftlOpen mem stack outside) ops) {lpn npage : ℕ}
    (hin : lpn + npage ≤ nLpns) (hsafe : ∀ p, lpn ≤ p → p < lpn + npage →
      TrimSafe (Machine.run step (ftlOpen mem stack outside) ops) p) :
    TrimSpec (Machine.run step (ftlOpen mem stack outside) ops) lpn npage := by
  have href := refines_run mem stack outside hops
  have htrim := href.ftlTrim hin hsafe
  constructor
  · intro lba nsect hr stack₁ stack₂ buf buf' i hi
    rw [htrim.refines.readBack hr stack₁ buf hi, href.readBack hr stack₂ buf' hi]
    rfl
  · intro lba nsect hr stack₁ stack₂ stack₃ buf buf' i hi
    have hflush := (htrim.refines.withStack stack₃).ftlFlush.1
    rw [hflush.readBack hr stack₁ buf hi, href.readBack hr stack₂ buf' hi]
    rfl
  · exact fun b _ q _ hq => htrim.isValid b q hq

/-- Trimming a page that has been flushed. -/
theorem ftlTrim_spec_flushed :
    TrimSpec (Machine.run step (ftlOpen (fun _ => ⟨fun _ => 0, 0⟩) ⟨fun _ => 0, 0⟩ fun _ => 0)
      [.write 0 8 (fun i => i) ⟨fun _ => 0, 0⟩, .flush ⟨fun _ => 0, 0⟩]) 0 1 := by
  refine @ftlTrim_spec _ _ _ [.write 0 8 (fun i => i) ⟨fun _ => 0, 0⟩, .flush ⟨fun _ => 0, 0⟩]
    ⟨⟨⟨by decide, by decide⟩, nofun⟩, ⟨trivial, nofun⟩, trivial⟩ _ _ (by decide) fun p h1 h2 => ?_
  obtain rfl : p = 0 := by omega
  decide +kernel

/-- A page that is only in the write buffer is still there after it is trimmed. -/
theorem ftlTrim_leaves_buffered : ¬ ∀ ops : List Op, (∀ op ∈ ops, op.InRange) → ∀ lpn npage,
    lpn + npage ≤ nLpns → TrimSpec (Machine.run step
      (ftlOpen (fun _ => ⟨fun _ => 0, 0⟩) ⟨fun _ => 0, 0⟩ fun _ => 0) ops) lpn npage := by
  intro h
  have h1 := (h [.write 8 8 (fun _ => 7) ⟨fun _ => 0, 0⟩] (by simp [Op.InRange, InRange, nLpns_eq])
    1 1 (by decide)).reads 8 1 ⟨by decide, by decide⟩ ⟨fun _ => 0, 0⟩ ⟨fun _ => 0, 0⟩
      (fun _ => 0) (fun _ => 0) 0 (by decide)
  revert h1
  decide +kernel

end Runs

end BufferedFtl
