import Coursework.Lib.Machine
import Coursework.Nand.View
import Mathlib.Data.List.GetD

/-! The contract in the comments of `nand.c`: each block is a list of pages that only grows
at its end, until it is erased. -/
namespace Nand

variable {δ σ : Type}

/-- The abstract NAND. -/
structure Chip (δ σ : Type) where
  nbanks : ℕ
  nblks : ℕ
  npages : ℕ
  block : ℕ → ℕ → List (Page δ σ)

/-- A call of one of the three operations. A read passes the buffers that it fills. -/
inductive Call (δ σ : Type) where
  | write (bank blk page : ℤ) (data : δ) (spare : σ)
  | read (bank blk page : ℤ) (data : δ) (spare : σ)
  | erase (bank blk : ℤ)

namespace Chip

def empty (nbanks nblks npages : ℕ) : Chip δ σ := ⟨nbanks, nblks, npages, fun _ _ => []⟩

/-- A page address that exists. -/
def Valid (c : Chip δ σ) (bank blk page : ℤ) : Prop :=
  (0 ≤ bank ∧ bank < c.nbanks) ∧ (0 ≤ blk ∧ blk < c.nblks) ∧ 0 ≤ page ∧ page < c.npages

instance (c : Chip δ σ) (bank blk page : ℤ) : Decidable (c.Valid bank blk page) := by
  unfold Valid
  infer_instance

def setBlock (c : Chip δ σ) (bank blk : ℕ) (pages : List (Page δ σ)) : Chip δ σ :=
  { c with block := Function.update c.block bank (Function.update (c.block bank) blk pages) }

/-- What the contract of `nand_write` says. -/
def write (c : Chip δ σ) (bank blk page : ℤ) (data : δ) (spare : σ) : Chip δ σ × Code :=
  if c.Valid bank blk page then
    if page.toNat < (c.block bank.toNat blk.toNat).length then (c, .errOverwrite)
    else if page.toNat = (c.block bank.toNat blk.toNat).length then
      (c.setBlock bank.toNat blk.toNat (c.block bank.toNat blk.toNat ++ [⟨data, spare⟩]), .success)
    else (c, .errPosition)
  else (c, .errInvalid)

/-- What the contract of `nand_read` says. -/
def read (c : Chip δ σ) (bank blk page : ℤ) (data : δ) (spare : σ) : Code × Page δ σ :=
  if c.Valid bank blk page then
    match (c.block bank.toNat blk.toNat)[page.toNat]? with
    | some pg => (.success, pg)
    | none => (.errEmpty, ⟨data, spare⟩)
  else (.errInvalid, ⟨data, spare⟩)

/-- What the contract of `nand_erase` says. -/
def erase (c : Chip δ σ) (bank blk : ℤ) : Chip δ σ × Code :=
  if (0 ≤ bank ∧ bank < c.nbanks) ∧ 0 ≤ blk ∧ blk < c.nblks then
    if c.block bank.toNat blk.toNat = [] then (c, .errEmpty)
    else (c.setBlock bank.toNat blk.toNat [], .success)
  else (c, .errInvalid)

/-- The state, the code and, for a read, the buffers after a call. -/
def call (c : Chip δ σ) : Call δ σ → Chip δ σ × Code × Option (Page δ σ)
  | .write bank blk page data spare =>
    ((c.write bank blk page data spare).1, (c.write bank blk page data spare).2, none)
  | .read bank blk page data spare =>
    (c, (c.read bank blk page data spare).1, some (c.read bank blk page data spare).2)
  | .erase bank blk => ((c.erase bank blk).1, (c.erase bank blk).2, none)

/-- The call writes a page that has been written since the last erase of its block. -/
def Overwrites (c : Chip δ σ) : Call δ σ → Prop
  | .write bank blk page _ _ =>
    c.Valid bank blk page ∧ page.toNat < (c.block bank.toNat blk.toNat).length
  | _ => False

instance (c : Chip δ σ) (op : Call δ σ) : Decidable (c.Overwrites op) := by
  cases op <;> unfold Overwrites <;> infer_instance

end Chip

/-- The state, the code and, for a read, the buffers after a call. -/
def Device.call (n : Device δ σ) : Call δ σ → Device δ σ × Code × Option (Page δ σ)
  | .write bank blk page data spare =>
    ((nandWrite n bank blk page data spare).1, (nandWrite n bank blk page data spare).2, none)
  | .read bank blk page data spare =>
    (n, (nandRead n bank blk page data spare).1, some (nandRead n bank blk page data spare).2)
  | .erase bank blk => ((nandErase n bank blk).1, (nandErase n bank blk).2, none)

/-- The arrays hold the page lists. -/
structure Represents (n : Device δ σ) (c : Chip δ σ) : Prop where
  nbanks : n.nbanks = c.nbanks
  nblks : n.nblks = c.nblks
  npages : n.npages = c.npages
  cell : ∀ bank blk page, bank < n.nbanks → blk < n.nblks → page < n.npages →
    n.cell bank blk page = (c.block bank blk)[page]?
  blkIndex : ∀ bank blk, bank < n.nbanks → blk < n.nblks →
    n.blkIndex (n.blkIdx bank blk) = (c.block bank blk).length

namespace Represents

variable {n : Device δ σ} {c : Chip δ σ}

theorem init {mem : ℕ → Page δ σ} {nbanks nblks npages : ℤ}
    (h : nandInit mem nbanks nblks npages = some n) :
    Represents n (Chip.empty n.nbanks n.nblks n.npages) where
  nbanks := rfl
  nblks := rfl
  npages := rfl
  cell bank blk page _ _ _ := (cell_nandInit h).2.2.2 bank blk page
  blkIndex bank blk _ _ := by
    unfold nandInit at h
    split at h
    · cases h
    · obtain rfl := Option.some.inj h
      rfl

theorem address (h : Represents n c) (bank blk page : ℤ) :
    n.address? bank blk page = true ↔ c.Valid bank blk page := by
  simp only [Device.address?, Chip.Valid, Bool.not_eq_true', Bool.or_eq_false_iff,
    decide_eq_false_iff_not, h.nbanks, h.nblks, h.npages]
  omega

/-- A page of the list stored at its end, and in the arrays. -/
theorem program (h : Represents n c) {bank blk page : ℕ} (data : δ) (spare : σ)
    (hr : n.InRange bank blk page) (hpos : n.blkIndex (n.blkIdx bank blk) = page) :
    Represents (n.program bank blk page data spare hr hpos)
      (c.setBlock bank blk (c.block bank blk ++ [⟨data, spare⟩])) := by
  have hlen := h.blkIndex bank blk hr.1 hr.2.1
  rw [hpos] at hlen
  refine ⟨h.nbanks, h.nblks, h.npages, fun bank' blk' page' hb hk hp => ?_,
    fun bank' blk' hb hk => ?_⟩
  · rw [n.cell_program data spare hr hpos]
    have hold := h.cell bank' blk' page' hb hk hp
    by_cases hbank : bank' = bank
    · subst hbank
      by_cases hblk : blk' = blk
      · subst hblk
        by_cases hpage : page' = page
        · subst hpage
          simp [Chip.setBlock, hlen]
        · rw [if_neg (fun hc => hpage hc.2.2), hold]
          simp only [Chip.setBlock, Function.update_self]
          by_cases hlt : page' < page
          · rw [List.getElem?_append_left (by omega)]
          · rw [List.getElem?_eq_none (by omega), List.getElem?_eq_none]
            rw [List.length_append, List.length_singleton]
            omega
      · rw [if_neg (fun hc => hblk hc.2.1), hold]
        simp [Chip.setBlock, hblk]
    · rw [if_neg (fun hc => hbank hc.1), hold]
      simp [Chip.setBlock, hbank]
  · change Function.update n.blkIndex (n.blkIdx bank blk) (page + 1) (n.blkIdx bank' blk') = _
    by_cases hblk : n.blkIdx bank' blk' = n.blkIdx bank blk
    · obtain ⟨rfl, rfl⟩ := n.blkIdx_inj hk hr.2.1 hblk
      rw [Function.update_self]
      simp [Chip.setBlock, hlen]
    · rw [Function.update_of_ne hblk, h.blkIndex bank' blk' hb hk]
      by_cases hbank : bank' = bank
      · subst hbank
        have hk' : blk' ≠ blk := by
          rintro rfl
          exact hblk rfl
        simp [Chip.setBlock, hk']
      · simp [Chip.setBlock, hbank]

/-- A block emptied in the lists and in the arrays. -/
theorem wipe (h : Represents n c) {bank blk : ℕ} (hk : blk < n.nblks) :
    Represents (n.wipe bank blk) (c.setBlock bank blk []) := by
  refine ⟨h.nbanks, h.nblks, h.npages, fun bank' blk' page' hb hk' hp => ?_,
    fun bank' blk' hb hk' => ?_⟩
  · rw [n.cell_wipe hk]
    have hold := h.cell bank' blk' page' hb hk' hp
    by_cases hbank : bank' = bank
    · subst hbank
      by_cases hblk : blk' = blk
      · subst hblk
        simp [Chip.setBlock]
      · rw [if_neg (fun hc => hblk hc.2), hold]
        simp [Chip.setBlock, hblk]
    · rw [if_neg (fun hc => hbank hc.1), hold]
      simp [Chip.setBlock, hbank]
  · change Function.update n.blkIndex (n.blkIdx bank blk) 0 (n.blkIdx bank' blk') = _
    by_cases hblk : n.blkIdx bank' blk' = n.blkIdx bank blk
    · obtain ⟨rfl, rfl⟩ := n.blkIdx_inj hk' hk hblk
      rw [Function.update_self]
      simp [Chip.setBlock]
    · rw [Function.update_of_ne hblk, h.blkIndex bank' blk' hb hk']
      by_cases hbank : bank' = bank
      · subst hbank
        have hne : blk' ≠ blk := by
          rintro rfl
          exact hblk rfl
        simp [Chip.setBlock, hne]
      · simp [Chip.setBlock, hbank]

/-- `nand_write` stores what the contract has it store; its code differs only for a page
that is written already, for which it is `NAND_ERR_POSITION`. -/
theorem write (h : Represents n c) (bank blk page : ℤ) (data : δ) (spare : σ) :
    Represents (nandWrite n bank blk page data spare).1 (c.write bank blk page data spare).1 ∧
      (nandWrite n bank blk page data spare).2 =
        if c.Overwrites (.write bank blk page data spare) then .errPosition
        else (c.write bank blk page data spare).2 := by
  by_cases hv : c.Valid bank blk page
  · have ha := (h.address bank blk page).2 hv
    have hr := Device.inRange_of_address ha
    have hlen := h.blkIndex _ _ hr.1 hr.2.1
    unfold nandWrite Chip.write
    rw [dif_pos ha, if_pos hv]
    by_cases hpos : n.blkIndex (n.blkIdx bank.toNat blk.toNat) = page.toNat
    · have hfresh : n.iswritten (n.pageIdx bank.toNat blk.toNat page.toNat) = false := by
        have hw := n.written_iff _ _ _ hr.1 hr.2.1 hr.2.2
        change _ ↔ page.toNat < n.blkIndex (n.blkIdx bank.toNat blk.toNat) at hw
        rw [hpos] at hw
        simpa [Device.pageIdx] using hw
      have hno : ¬ page.toNat < (c.block bank.toNat blk.toNat).length := by omega
      rw [dif_pos hpos, if_neg (by rw [hfresh]; simp), if_neg hno,
        if_pos (by rw [← hlen, hpos]), if_neg (fun hc => hno hc.2)]
      exact ⟨h.program data spare hr hpos, rfl⟩
    · rw [dif_neg hpos]
      by_cases hlt : page.toNat < (c.block bank.toNat blk.toNat).length
      · rw [if_pos hlt, if_pos ⟨hv, hlt⟩]
        exact ⟨h, rfl⟩
      · rw [if_neg hlt, if_neg (by omega), if_neg (fun hc => hlt hc.2)]
        exact ⟨h, rfl⟩
  · have ha : ¬ n.address? bank blk page = true := fun ha => hv ((h.address bank blk page).1 ha)
    unfold nandWrite Chip.write
    rw [dif_neg ha, if_neg hv, if_neg (fun hc => hv hc.1)]
    exact ⟨h, rfl⟩

theorem read (h : Represents n c) (bank blk page : ℤ) (data : δ) (spare : σ) :
    nandRead n bank blk page data spare = c.read bank blk page data spare := by
  unfold nandRead Chip.read
  by_cases hv : c.Valid bank blk page
  · have ha := (h.address bank blk page).2 hv
    have hr := Device.inRange_of_address ha
    have hc := h.cell _ _ _ hr.1 hr.2.1 hr.2.2
    rw [Device.cell_of_inRange hr] at hc
    rw [if_pos ha, if_pos hv, ← hc]
    split <;> rfl
  · have ha : ¬ n.address? bank blk page = true := fun ha => hv ((h.address bank blk page).1 ha)
    rw [if_neg ha, if_neg hv]

theorem erase (h : Represents n c) (bank blk : ℤ) :
    Represents (nandErase n bank blk).1 (c.erase bank blk).1 ∧
      (nandErase n bank blk).2 = (c.erase bank blk).2 := by
  unfold nandErase Chip.erase
  have hnb := h.nbanks
  have hnk := h.nblks
  by_cases hv : (0 ≤ bank ∧ bank < c.nbanks) ∧ 0 ≤ blk ∧ blk < c.nblks
  · have hlen := h.blkIndex bank.toNat blk.toNat (by omega) (by omega)
    rw [if_neg (by omega), if_pos hv]
    by_cases hz : n.blkIndex (n.blkIdx bank.toNat blk.toNat) = 0
    · rw [if_pos hz, if_pos (List.length_eq_zero_iff.1 (hlen.symm.trans hz))]
      exact ⟨h, rfl⟩
    · have hne : c.block bank.toNat blk.toNat ≠ [] := by
        intro e
        rw [e] at hlen
        exact hz hlen
      rw [if_neg hz, if_neg hne]
      exact ⟨h.wipe (by omega), rfl⟩
  · rw [if_pos (by omega), if_neg hv]
    exact ⟨h, rfl⟩

/-- One call: the lists stay represented, and the result is that of the contract unless the
call overwrites. -/
theorem call (h : Represents n c) (op : Call δ σ) :
    Represents (n.call op).1 (c.call op).1 ∧
      ((n.call op).2 = (c.call op).2 ↔ ¬ c.Overwrites op) := by
  cases op with
  | write bank blk page data spare =>
    obtain ⟨h', hcode⟩ := h.write bank blk page data spare
    refine ⟨h', ?_⟩
    change ((nandWrite n bank blk page data spare).2, none) =
      ((c.write bank blk page data spare).2, none) ↔ _
    rw [hcode, Prod.mk.injEq]
    by_cases ho : c.Overwrites (.write bank blk page data spare)
    · have hw : (c.write bank blk page data spare).2 = .errOverwrite := by
        rw [Chip.write, if_pos ho.1, if_pos ho.2]
      rw [if_pos ho, hw]
      simp [ho]
    · rw [if_neg ho]
      simp [ho]
  | read bank blk page data spare =>
    refine ⟨h, ?_⟩
    have hr := h.read bank blk page data spare
    simp [Device.call, Chip.call, Chip.Overwrites, hr]
  | erase bank blk =>
    obtain ⟨h', hcode⟩ := h.erase bank blk
    refine ⟨h', ?_⟩
    simp [Device.call, Chip.call, Chip.Overwrites, hcode]

end Represents

theorem nandWrite_error {n : Device δ σ} {bank blk page : ℤ} {data : δ} {spare : σ}
    (h : (nandWrite n bank blk page data spare).2 ≠ .success) :
    (nandWrite n bank blk page data spare).1 = n := by
  revert h
  unfold nandWrite
  split
  · split
    · split
      · exact fun _ => rfl
      · exact fun h => absurd rfl h
    · exact fun _ => rfl
  · exact fun _ => rfl

theorem nandErase_error {n : Device δ σ} {bank blk : ℤ}
    (h : (nandErase n bank blk).2 ≠ .success) : (nandErase n bank blk).1 = n := by
  revert h
  unfold nandErase
  split
  · exact fun _ => rfl
  · split
    · exact fun _ => rfl
    · exact fun h => absurd rfl h

theorem Device.call_error {n : Device δ σ} {op : Call δ σ}
    (h : (n.call op).2.1 ≠ .success) : (n.call op).1 = n := by
  cases op with
  | write bank blk page data spare => exact nandWrite_error h
  | read bank blk page data spare => rfl
  | erase bank blk => exact nandErase_error h

theorem Represents.run {n : Device δ σ} {c : Chip δ σ} (h : Represents n c)
    (ops : List (Call δ σ)) :
    Represents (Machine.run (fun n op => (Device.call n op).1) n ops)
      (Machine.run (fun c op => (Chip.call c op).1) c ops) := by
  apply Machine.simulation (P := fun _ _ => True) (R := Represents) _ ops n c h
  · exact Machine.along_of_forall (fun _ _ _ => trivial) n
  · exact fun n c op h _ => (h.call op).1

/-- After any calls from `nand_init`, a call gives the code and the data of the contract, and
changes the lists as the contract says and only if it succeeds, if and only if it does not
write a page that is written already. -/
theorem nand_contract {mem : ℕ → Page δ σ} {nbanks nblks npages : ℤ} {n : Device δ σ}
    (h : nandInit mem nbanks nblks npages = some n) (ops : List (Call δ σ)) (op : Call δ σ) :
    let n' := Machine.run (fun n op => (Device.call n op).1) n ops
    let c' := Machine.run (fun c op => (Chip.call c op).1)
      (Chip.empty n.nbanks n.nblks n.npages) ops
    ((n'.call op).2 = (c'.call op).2 ∧ Represents (n'.call op).1 (c'.call op).1 ∧
      ((n'.call op).2.1 ≠ .success → (n'.call op).1 = n')) ↔ ¬ c'.Overwrites op := by
  intro n' c'
  have hr : Represents n' c' := (Represents.init h).run ops
  obtain ⟨hs, hres⟩ := hr.call op
  exact ⟨fun hc => hres.1 hc.1, fun ho => ⟨hres.2 ho, hs, Device.call_error⟩⟩

/-- A block is written, erased and written again; the next call writes its second page. -/
def rewritten : List (Call ℕ ℕ) := [.write 0 0 0 7 7, .erase 0 0, .write 0 0 0 8 8]

theorem nand_contract_rewritten : ∃ n : Device ℕ ℕ,
    nandInit (fun _ => ⟨0, 0⟩) 1 1 2 = some n ∧
      let n' := Machine.run (fun n op => (Device.call n op).1) n rewritten
      let c' := Machine.run (fun c op => (Chip.call c op).1)
        (Chip.empty n.nbanks n.nblks n.npages) rewritten
      (n'.call (.write 0 0 1 9 9)).2 = (c'.call (.write 0 0 1 9 9)).2 ∧
        Represents (n'.call (.write 0 0 1 9 9)).1 (c'.call (.write 0 0 1 9 9)).1 ∧
        ((n'.call (.write 0 0 1 9 9)).2.1 ≠ .success → (n'.call (.write 0 0 1 9 9)).1 = n') := by
  refine ⟨_, rfl, ?_⟩
  have hinit : nandInit (fun _ => (⟨0, 0⟩ : Page ℕ ℕ)) 1 1 2 = some _ := rfl
  exact (nand_contract hinit rewritten (.write 0 0 1 9 9)).2 fun h => absurd h.2 (Nat.lt_irrefl 1)

/-- The second write of a page is refused as one at a wrong position. -/
theorem nandWrite_twice : ∃ n : Device ℕ ℕ, nandInit (fun _ => ⟨0, 0⟩) 1 1 1 = some n ∧
    (nandWrite (nandWrite n 0 0 0 7 7).1 0 0 0 8 8).2 = .errPosition ∧
    (((Chip.empty 1 1 1 : Chip ℕ ℕ).write 0 0 0 7 7).1.write 0 0 0 8 8).2 = .errOverwrite :=
  ⟨_, rfl, rfl, rfl⟩

end Nand
