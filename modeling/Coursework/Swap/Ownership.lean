import Coursework.Swap.Fault

/-! Exclusive ownership of frames: `kalloc` keeps it exactly as long as it finds the free list
not empty. A frame from `swapout` stays on the free list. -/
namespace Swap
open Program

/-- All hand-outs of the program are as in `G`. -/
def Emits {α : Type} (G : Handout → Prop) (p : M α) : Prop :=
  ∀ s, Ensures (fun _ => True) G p s (fun _ _ => True) (fun _ _ => True)

section
variable {G : Handout → Prop} {α β : Type}

namespace Emits

theorem pure (a : α) : Emits G (Pure.pure a) := fun _ => Ensures.pure trivial

theorem change (f : Kernel → Kernel) : Emits G (change f) := fun _ => Ensures.change trivial

theorem stop (e : Panic) : Emits G (stop e : M α) := fun _ => Ensures.stop trivial

theorem bind {m : M α} {f : α → M β} (h : Emits G m) (hf : ∀ a, Emits G (f a)) :
    Emits G (m >>= f) := fun s => Ensures.bind (h s) fun a s' _ => hf a s'

theorem read_bind {f : Kernel → M α} (h : ∀ s, Emits G (f s)) : Emits G (Program.read >>= f) :=
  fun s => Ensures.read_bind (h s s)

theorem forM {ι : Type} {f : ι → M PUnit} (h : ∀ x, Emits G (f x)) (xs : List ι) :
    Emits G (xs.forM f) := fun _ =>
  (Ensures.forM (I := fun _ _ => True) (fun x _ s _ => h x s) xs trivial).mono
    (fun _ _ _ => trivial) fun _ _ _ => trivial

theorem ite {c : Prop} [Decidable c] {p q : M α} (hp : Emits G p) (hq : Emits G q) :
    Emits G (if c then p else q) := by
  split
  · exact hp
  · exact hq

end Emits

theorem lruDelete_emits (i : ℕ) : Emits G (lruDelete i) := by
  refine Emits.read_bind fun s => Emits.ite (Emits.stop _) ?_
  refine Emits.bind (Emits.change _) fun _ => Emits.bind ?_ fun _ => Emits.change _
  refine Emits.read_bind fun s' => Emits.ite (Emits.change _) ?_
  split
  · exact Emits.change _
  · exact Emits.stop _

theorem scanLru_emits (v n : ℕ) : ∀ o, Emits G (scanLru v n o) := by
  induction n with
  | zero => exact fun _ => Emits.pure _
  | succ n ih =>
    rintro (- | cur)
    · exact Emits.stop _
    · refine Emits.read_bind fun s => ?_
      split
      · exact Emits.stop _
      · exact Emits.ite (lruDelete_emits cur) (ih _)

theorem unlist_emits (v : ℕ) : Emits G (unlist v) := by
  refine Emits.read_bind fun s => ?_
  split
  · exact Emits.pure _
  · exact scanLru_emits v _ _

theorem kfree_emits (v : ℕ) : Emits G (kfree v) :=
  Emits.read_bind fun _ => Emits.ite (Emits.stop _)
    (Emits.bind (unlist_emits v) fun _ => Emits.change _)

theorem clockFrom_emits (n : ℕ) : Emits G (clockFrom n) := by
  induction n with
  | zero => exact Emits.stop _
  | succ n ih =>
    refine Emits.read_bind fun s => ?_
    split
    · exact Emits.stop _
    · refine Emits.ite (Emits.stop _) ?_
      split
      · exact Emits.stop _
      · exact Emits.ite (Emits.bind (Emits.change _) fun _ => ih)
          (Emits.bind (Emits.change _) fun _ => Emits.pure _)

theorem swapwrite_emits (ptr : ℕ → ℕ) (blkno : ℤ) : Emits G (swapwrite ptr blkno) :=
  Emits.ite (Emits.stop _) (Emits.forM (fun _ => Emits.change _) _)

theorem lruAppend_emits (d va : ℕ) : Emits G (lruAppend d va) := by
  refine Emits.read_bind fun s => ?_
  split
  · exact Emits.stop _
  · refine Emits.ite (Emits.stop _) (Emits.bind (Emits.change _) fun _ => Emits.bind ?_ fun _ =>
      Emits.change _)
    refine Emits.read_bind fun s' => Emits.ite (Emits.change _) ?_
    split
    · exact Emits.stop _
    · refine Emits.ite (Emits.change _) ?_
      split
      · exact Emits.stop _
      · exact Emits.change _

theorem kfree_free (v : ℕ) (s : Kernel) :
    Ensures (fun _ => True) G (kfree v) s (fun _ s' => v ∈ s'.freelist) (fun _ _ => True) := by
  apply Ensures.read_bind
  split
  · exact Ensures.stop trivial
  · apply Ensures.bind (unlist_emits v s)
    exact fun _ s' _ => Ensures.change List.mem_cons_self

/-- `swapout` leaves the frame that it returns on the free list. -/
theorem swapout_free (s : Kernel) :
    Ensures (fun _ => True) G swapout s (fun f s' => f ∈ s'.freelist) (fun _ _ => True) := by
  apply Ensures.read_bind
  split
  case isTrue => exact Ensures.stop trivial
  case isFalse =>
    have hclock : Emits G clock := Emits.read_bind fun s => clockFrom_emits _
    apply Ensures.bind (hclock s)
    intro i s₁ _
    apply Ensures.read_bind
    dsimp only
    split
    · exact Ensures.stop trivial
    · apply Ensures.bind (swapwrite_emits _ _ s₁)
      intro _ s₂ _
      apply Ensures.change_bind
      apply Ensures.change_bind
      apply Ensures.bind (kfree_free _ _)
      intro _ s₃ hs₃
      apply Ensures.change_bind
      exact Ensures.pure hs₃

/-- A frame from an empty free list is left there. -/
def Reclaimed (w : Handout) : Prop := w.before.freelist = [] → w.frame ∈ w.after.freelist

theorem kalloc_emits : Emits Reclaimed kalloc := by
  intro s
  apply Ensures.read_bind
  have htake : Ensures (fun _ => True) Reclaimed takeFrame s
      (fun f s' => s.freelist = [] → f ∈ s'.freelist) (fun _ _ => True) := by
    apply Ensures.read_bind
    split
    case h_1 => exact (swapout_free s).mono (fun _ _ h _ => h) fun _ _ h => h
    case h_2 r rest hfree =>
      apply Ensures.change_bind
      apply Ensures.pure
      rw [hfree]
      exact fun h => nomatch h
  apply Ensures.bind htake
  intro f s₁ hf
  apply Ensures.read_bind
  apply Ensures.bind (Q := fun _ _ => True) (Ensures.emit fun _ => ⟨hf, trivial⟩)
  intro _ s₂ _
  apply Ensures.change_bind
  exact Ensures.pure trivial

theorem walkpgdirAlloc_emits (d v : ℕ) : Emits Reclaimed (walkpgdirAlloc d v) := by
  refine Emits.read_bind fun s => ?_
  split
  · exact Emits.stop _
  · split
    · exact Emits.pure _
    · exact Emits.bind kalloc_emits fun _ => Emits.change _

theorem mappages_emits (d v : ℕ) (e : Pte) : Emits Reclaimed (mappages d v e) :=
  Emits.bind (walkpgdirAlloc_emits d v) fun _ => Emits.read_bind fun _ =>
    Emits.ite (Emits.stop _) (Emits.change _)

theorem setupkvm_emits : Emits Reclaimed setupkvm :=
  Emits.bind kalloc_emits fun pgdir => Emits.bind (Emits.change _) fun _ =>
    Emits.bind (Emits.forM (fun i => walkpgdirAlloc_emits pgdir (1024 * i)) _) fun _ => Emits.pure _

theorem deallocuvm_emits (d oldsz newsz : ℕ) : Emits Reclaimed (deallocuvm d oldsz newsz) := by
  refine Emits.ite (Emits.pure _) (Emits.bind (Emits.forM (fun v => ?_) _) fun _ => Emits.pure _)
  refine Emits.read_bind fun s => ?_
  split
  · exact Emits.pure _
  · exact Emits.ite (Emits.ite (Emits.stop _)
      (Emits.bind (kfree_emits _) fun _ => Emits.change _)) (Emits.pure _)

theorem copyuvm_emits (d sz : ℕ) : Emits Reclaimed (copyuvm d sz) := by
  refine Emits.bind setupkvm_emits fun child =>
    Emits.bind (Emits.forM (fun v => ?_) _) fun _ => Emits.pure _
  refine Emits.read_bind fun s => ?_
  split
  · exact Emits.stop _
  · exact Emits.ite (Emits.bind kalloc_emits fun mem => Emits.bind (Emits.change _) fun _ =>
      mappages_emits child v _) (Emits.stop _)

theorem freevm_emits (d : ℕ) : Emits Reclaimed (freevm d) := by
  refine Emits.bind (deallocuvm_emits d _ _) fun _ => Emits.bind (Emits.forM (fun i => ?_) _)
    fun _ => Emits.bind (kfree_emits d) fun _ => Emits.change _
  refine Emits.read_bind fun s => ?_
  split
  · exact Emits.pure _
  · exact Emits.bind (kfree_emits _) fun _ => Emits.change _

theorem swapin_emits (d va : ℕ) : Emits Reclaimed (swapin d va) := by
  refine Emits.bind (walkpgdirAlloc_emits d _) fun _ => Emits.read_bind fun s =>
    Emits.ite (Emits.bind kalloc_emits fun mem => Emits.bind ?_ fun _ =>
      Emits.bind (Emits.change _) fun _ => Emits.bind (lruAppend_emits d va) fun _ =>
        Emits.bind (Emits.change _) fun _ => Emits.pure _) (Emits.pure _)
  exact Emits.read_bind fun _ => Emits.ite
    (Emits.ite (Emits.stop _) (Emits.forM (fun _ => Emits.change _) _)) (Emits.pure _)

theorem exec_emits (op : Op) : Emits Reclaimed (exec op) := by
  cases op with
  | kalloc => exact Emits.bind kalloc_emits fun _ => Emits.change _
  | kfree k =>
    refine Emits.read_bind fun s => ?_
    split
    · exact Emits.pure _
    · exact Emits.bind (kfree_emits _) fun _ => Emits.change _
  | setupkvm => exact Emits.bind setupkvm_emits fun _ => Emits.pure _
  | inituvm d init sz =>
    exact Emits.ite (Emits.stop _) (Emits.bind kalloc_emits fun _ =>
      Emits.bind (Emits.change _) fun _ => Emits.bind (mappages_emits d 0 _) fun _ =>
        Emits.bind (Emits.change _) fun _ => Emits.bind (Emits.change _) fun _ =>
          lruAppend_emits d 0)
  | allocuvm d oldsz newsz =>
    refine Emits.bind (Emits.ite (Emits.pure _) (Emits.ite (Emits.pure _)
      (Emits.bind (Emits.forM (fun v => ?_) _) fun _ => Emits.pure _))) fun _ => Emits.pure _
    exact Emits.bind kalloc_emits fun _ => Emits.bind (Emits.change _) fun _ =>
      Emits.bind (mappages_emits d v _) fun _ => lruAppend_emits d _
  | deallocuvm d oldsz newsz => exact Emits.bind (deallocuvm_emits d _ _) fun _ => Emits.pure _
  | copyuvm d sz => exact Emits.bind (copyuvm_emits d sz) fun _ => Emits.pure _
  | freevm d => exact freevm_emits d
  | access d va byte =>
    exact Emits.read_bind fun s => Emits.ite (Emits.change _)
      (Emits.bind (swapin_emits d va) fun _ => Emits.pure _)

end

/-- The mode in which no page is swapped out. -/
def strictMode : Mode := ⟨True, fun _ => False, fun _ _ => False, Nowhere⟩

theorem fits_of_free {m : Mode} (hx : ∀ k, ¬ m.exact k) (hc : ∀ d v, ¬ m.covered d v) (s : Kernel)
    (op : Op) : Fits m s op := by
  cases op with
  | inituvm d init sz => exact ⟨.inr hx, .inl hc⟩
  | allocuvm d oldsz newsz => exact fun v _ => .inr hx
  | copyuvm d sz => exact .inr hc
  | freevm d => exact fun v _ => hx _
  | access d va byte => exact fun h => absurd h (hc _ _)
  | kalloc | kfree | setupkvm | deallocuvm => trivial

/-- In every run, the frames that `kalloc` returns are off the free list, unmapped and with no
other caller if and only if the free list was never empty when it was called. -/
theorem kalloc_exclusive {s₀ s : Kernel} {ws : List Handout} {o : Option Panic} (hb : Boot s₀)
    (h : Runs (fun _ _ => True) s₀ ws o s) :
    (∀ w ∈ ws, Exclusive w) ↔ ∀ w ∈ ws, w.before.freelist ≠ [] := by
  constructor
  · intro hex w hw hfree
    have hrun := Visits.invariant (A := fun _ => True) (G := Reclaimed) (I := fun _ => True)
      (E := fun _ _ => True)
      (fun s op _ (_ : Legal s op ∧ True) => exec_emits op s) trivial h fun _ _ => trivial
    exact (hex w hw).1 (hrun.1 w hw hfree)
  · intro hfree w hw
    have hrun := Runs.sound (m := strictMode) (fun _ _ hs => hs)
      (fun s op _ _ => fits_of_free (fun _ hx => hx) (fun _ _ hc => hc) s op) hb h
      fun w hw => ⟨fun _ => hfree w hw, fun hs => absurd trivial hs⟩
    exact hrun.1 w hw trivial

section Example

/-- The kernel after booting with `n` free frames. -/
def booted (n : ℕ) : Kernel where
  kend := 600
  freelist := List.range' 700 n
  held := []
  kernel := []
  mem _ _ := 0
  dirs _ := none
  node _ := Page.zero
  head := none
  numFree := 0
  numLru := 0
  bitmap _ := false
  disk _ _ := 0
  evicted _ _ := none
  listBase := 0x80110000
  behind _ _ := 0
  swapouts := 0

theorem booted_boot {n : ℕ} (hn : n ≤ 800) : Boot (booted n) where
  nodup := List.nodup_range'
  frames f hf := by
    have hf' : f ∈ List.range' 700 n := hf
    rw [List.mem_range'_1] at hf'
    omega
  kernel := List.nodup_nil
  kernel_frames f hf := absurd hf List.not_mem_nil
  held := rfl
  apart f _ hf := absurd hf List.not_mem_nil
  dirs _ := rfl
  node _ := rfl
  head := rfl
  numFree := rfl
  numLru := rfl
  bitmap _ := rfl

instance (s : Kernel) : (op : Op) → Decidable (Legal s op)
  | .kalloc | .kfree _ | .setupkvm => isTrue trivial
  | .inituvm .. | .allocuvm .. | .freevm _ => inferInstanceAs (Decidable (_ = true))
  | .deallocuvm .. | .copyuvm .. | .access .. => inferInstanceAs (Decidable (_ ∧ _))

/-- The hand-outs and the end of a run of legal steps that pass the check. -/
def runOps (check : Kernel → Op → Bool) (n : ℕ) (ops : List Op) : Option (List Handout × Kernel) :=
  trace exec (fun s op => decide (Legal s op) && check s op) ops (booted n)

/-- Any step passes. -/
def anyStep (_ : Kernel) (_ : Op) : Bool := true

theorem runOps_any {check : Kernel → Op → Bool} {P : Kernel → Op → Prop} {n : ℕ} {ops : List Op}
    {c : List Handout → Kernel → Bool} (hP : ∀ s op, check s op = true → P s op)
    (h : (runOps check n ops).any (fun r => c r.1 r.2) = true) :
    ∃ ws s, Runs P (booted n) ws none s ∧ c ws s = true := by
  obtain ⟨⟨ws, s⟩, hr, hc⟩ := (Option.any_eq_true _ _).1 h
  refine ⟨ws, s, Visits.start.trace (fun s op hs => ?_) hr, hc⟩
  rw [Bool.and_eq_true, decide_eq_true_eq] at hs
  exact ⟨hs.1, hP s op hs.2⟩

/-- A process with two pages takes all of 14 frames. -/
def twoPages : List Op :=
  [.setupkvm, .inituvm 700 (fun o => o) 10, .allocuvm 700 4096 8192]

theorem kalloc_exclusive_twoPages : ∃ ws s, Runs (fun _ _ => True) (booted 14) ws none s ∧
    ws ≠ [] ∧ ∀ w ∈ ws, Exclusive w := by
  have hrun : (runOps anyStep 14 twoPages).any
      (fun r => !r.1.isEmpty && r.1.all fun w => !w.before.freelist.isEmpty) = true := by
    decide +kernel
  obtain ⟨ws, s, hr, hc⟩ := runOps_any (P := fun _ _ => True)
    (c := fun ws _ => !ws.isEmpty && ws.all fun w => !w.before.freelist.isEmpty)
    (fun _ _ _ => trivial) hrun
  rw [Bool.and_eq_true, List.all_eq_true] at hc
  refine ⟨ws, s, hr, by simpa using hc.1, (kalloc_exclusive (booted_boot (by decide)) hr).2 ?_⟩
  exact fun w hw => by simpa using hc.2 w hw

/-- The fifteenth frame is one that `swapout` has freed, and it stays on the free list. -/
theorem swapout_leaves_free : ¬ ∀ (s₀ s : Kernel) (ws : List Handout) (o : Option Panic),
    Boot s₀ → Runs (fun _ _ => True) s₀ ws o s → ∀ w ∈ ws, Exclusive w := by
  intro h
  have hrun : (runOps anyStep 14 (twoPages ++ [.kalloc])).any
      (fun r => r.1.any fun w => w.after.freelist.contains w.frame) = true := by
    decide +kernel
  obtain ⟨ws, s, hr, hc⟩ := runOps_any (P := fun _ _ => True)
    (c := fun ws _ => ws.any fun w => w.after.freelist.contains w.frame) (fun _ _ _ => trivial) hrun
  obtain ⟨w, hw, hf⟩ := List.any_eq_true.1 hc
  exact (h _ _ _ _ (booted_boot (by decide)) hr w hw).1 (by simpa using hf)

end Example

end Swap
