import Coursework.Swap.RoundTrip

/-! The slots of the swap area: as long as no step drops an entry that names a slot, a set bit
of the bitmap and an entry belong together. -/
namespace Swap
open Program

/-- The entry of the page names slot `k`. -/
def Names (s : Kernel) (k : ℕ) (page : ℕ × ℕ) : Prop :=
  (s.look page.1 page.2).Swapped ∧ (s.look page.1 page.2).pfn = k

/-- No entry that names a slot is dropped: what is newly mapped had zero entries, and an
address space that goes has no swapped-out page. -/
def KeepsSlots (s : Kernel) : Op → Prop
  | .inituvm d _ _ => s.look d 0 = Pte.zero
  | .allocuvm d oldsz newsz => ∀ v ∈ pageRange oldsz newsz, s.look d v = Pte.zero
  | .freevm d => ∀ v, ¬ (s.look d v).Swapped
  | _ => True

/-- The mode in which every set bit is in use. -/
def slotMode : Mode := ⟨False, fun _ => True, fun _ _ => False, Nowhere⟩

theorem KeepsSlots.fits {s : Kernel} {op : Op} (h : KeepsSlots s op) : Fits slotMode s op := by
  cases op with
  | inituvm d init sz => exact ⟨.inl h, .inl fun _ _ hc => hc⟩
  | allocuvm d oldsz newsz => exact fun v hv => .inl (h v hv)
  | copyuvm d sz => exact .inr fun _ _ hc => hc
  | freevm d => exact fun v hs => absurd hs (h v)
  | access d va byte => exact fun hc => hc.elim
  | kalloc | kfree | setupkvm | deallocuvm => trivial

theorem Sound.bitmap_iff {s : Kernel} (h : Sound slotMode s) (k : ℕ) :
    s.bitmap k = true ↔ ∃! page : ℕ × ℕ, Names s k page := by
  constructor
  · intro hb
    obtain ⟨d, v, hs, hk⟩ := h.inv.exact k trivial hb
    refine ⟨(d, v), ⟨hs, hk⟩, ?_⟩
    rintro ⟨d', v'⟩ ⟨hs', hk'⟩
    obtain ⟨rfl, rfl⟩ := h.inv.slots.inj hs' hs (hk'.trans hk.symm)
    rfl
  · rintro ⟨⟨d, v⟩, ⟨hs, hk⟩, -⟩
    rw [← hk]
    exact h.inv.slots.used hs

/-- In a run that keeps the entries that name slots, each bit of the bitmap is set exactly
when one entry names its slot, and a slot out of range is met only with all slots in use. -/
theorem slots_accounted {s₀ s : Kernel} {ws : List Handout} {o : Option Panic} (hb : Boot s₀)
    (h : Runs KeepsSlots s₀ ws o s) (hA : ∀ w ∈ ws, Undoubled w) :
    (o = none → ∀ k, s.bitmap k = true ↔ ∃! page : ℕ × ℕ, Names s k page) ∧
      ((∃ k, 1 ≤ k ∧ k < 12437 ∧ s.bitmap k = false) → ∀ blkno, o ≠ some (.swapRange blkno)) := by
  have hrun := (Runs.sound (m := slotMode) (fun _ _ hs => hs) (fun _ _ _ hP => hP.fits) hb h
    fun w hw => (hA w hw).admitted).2
  constructor
  · rintro rfl
    exact fun k => Sound.bitmap_iff hrun k
  · rintro ⟨k, h1, hlt, hk⟩ blkno rfl
    have hfull : s.bitmap k = true := hrun blkno rfl k h1 hlt
    rw [hk] at hfull
    cases hfull

section Example

/-- A check for `KeepsSlots`, for runs in which no address space is freed. -/
def checkSlots (s : Kernel) : Op → Bool
  | .inituvm d _ _ => decide (s.look d 0 = Pte.zero)
  | .allocuvm d oldsz newsz => decide (∀ v ∈ pageRange oldsz newsz, s.look d v = Pte.zero)
  | .freevm _ => false
  | _ => true

theorem checkSlots_keeps (s : Kernel) (op : Op) (h : checkSlots s op = true) :
    KeepsSlots s op := by
  cases op with
  | inituvm d init sz =>
    rw [checkSlots, decide_eq_true_eq] at h
    exact h
  | allocuvm d oldsz newsz =>
    rw [checkSlots, decide_eq_true_eq] at h
    exact h
  | freevm d => cases h
  | kalloc | kfree | setupkvm | deallocuvm | copyuvm | access => trivial

theorem slots_accounted_swappedPage : ∃ s, Kernel.bitmap s 1 = true ∧
    ∀ k, s.bitmap k = true ↔ ∃! page : ℕ × ℕ, Names s k page := by
  have hrun : (runOps checkSlots 14 swappedPage).any
      (fun r => r.2.bitmap 1 && r.1.all fun w => decide (Undoubled w)) = true := by
    decide +kernel
  obtain ⟨ws, s, hr, hc⟩ := runOps_any (P := KeepsSlots)
    (c := fun ws s => s.bitmap 1 && ws.all fun w => decide (Undoubled w)) checkSlots_keeps hrun
  rw [Bool.and_eq_true] at hc
  refine ⟨s, hc.1, (slots_accounted (booted_boot (by decide)) hr fun w hw => ?_).1 rfl⟩
  exact of_decide_eq_true (List.all_eq_true.1 hc.2 w hw)

theorem Sound.names_dir {m : Mode} {s : Kernel} {k : ℕ} {page : ℕ × ℕ} (h : Sound m s)
    (hn : Names s k page) : page.1 ∈ s.held ∧ page.2 / 1024 < 512 ∧
      ∃ D, s.dirs page.1 = some D ∧ (D.table (page.2 / 1024)).isSome := by
  obtain ⟨hs, -⟩ := hn
  have hw := Kernel.walk_of_look hs.2
  have hlt := h.inv.tidy.user hs.2
  cases hD : s.dirs page.1 with
  | none =>
    rw [Kernel.walkpgdir_of_none hD] at hw
    cases hw
  | some D =>
    rw [Kernel.walkpgdir_of_some hD] at hw
    obtain ⟨t, ht, -⟩ := Option.map_eq_some_iff.1 hw
    refine ⟨?_, by omega, D, rfl, by rw [ht]; rfl⟩
    apply h.inv.custody.held_of_own (o := .dir page.1)
    rw [Kernel.own_dir, hD]
    rfl

/-- A page is swapped out, the process shrinks and grows again, and the slot stays taken. -/
def regrownPage : List Op := swappedPage ++ [.deallocuvm 700 8192 4096, .allocuvm 700 4096 8192]

/-- The page directory of the process has one page table in the user half, and none of its
entries names slot `1`, which is taken. -/
def leaksSlot (s : Kernel) : Bool :=
  s.bitmap 1 && (s.held.all fun d => d == 700 || (s.dirs d).isNone) &&
    ((List.range 512).all fun i => i == 0 || (s.dirs 700).all fun D => (D.table i).isNone) &&
    (List.range 1024).all fun v => !decide ((s.look 700 v).Swapped ∧ (s.look 700 v).pfn = 1)

/-- Growing over a swapped-out page leaks its slot. -/
theorem allocuvm_leaks_slot : ¬ ∀ (s₀ s : Kernel) (ws : List Handout), Boot s₀ →
    Runs (fun _ _ => True) s₀ ws none s →
    ∀ k, s.bitmap k = true ↔ ∃! page : ℕ × ℕ, Names s k page := by
  intro h
  have hrun : (runOps anyStep 14 regrownPage).any
      (fun r => leaksSlot r.2 && r.1.all fun w => decide (Undoubled w)) = true := by
    decide +kernel
  obtain ⟨ws, s, hr, hc⟩ := runOps_any (P := fun _ _ => True)
    (c := fun ws s => leaksSlot s && ws.all fun w => decide (Undoubled w))
    (fun _ _ _ => trivial) hrun
  simp only [leaksSlot, Bool.and_eq_true] at hc
  obtain ⟨⟨⟨⟨hbit, hheld⟩, htables⟩, hpages⟩, hA⟩ := hc
  have hsound : Sound laxMode s := (Runs.sound (m := laxMode) (fun _ _ hs => hs)
    (fun s op _ _ => fits_of_free (fun _ hx => hx) (fun _ _ hc => hc) s op)
    (booted_boot (by decide)) hr
    fun w hw => (of_decide_eq_true (List.all_eq_true.1 hA w hw)).admitted).2
  obtain ⟨⟨d, v⟩, hn, -⟩ := (h _ s ws (booted_boot (by decide)) hr 1).1 hbit
  obtain ⟨hd, hv, D, hD, ht⟩ := hsound.names_dir hn
  have hd700 : d = 700 := by
    have := List.all_eq_true.1 hheld d hd
    change s.dirs d = some D at hD
    rw [hD] at this
    simpa using this
  subst hd700
  change s.dirs 700 = some D at hD
  have hv0 : v / 1024 = 0 := by
    have := List.all_eq_true.1 htables (v / 1024) (List.mem_range.2 hv)
    rw [hD] at this
    change (D.table (v / 1024)).isSome at ht
    obtain ⟨t, ht⟩ := Option.isSome_iff_exists.1 ht
    simpa [ht] using this
  have hpage := List.all_eq_true.1 hpages v (List.mem_range.2 (by omega))
  rw [Bool.not_eq_true', decide_eq_false_iff_not] at hpage
  exact hpage hn

end Example

end Swap
