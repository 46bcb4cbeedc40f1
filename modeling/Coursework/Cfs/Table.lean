import Mathlib.Data.Int.Notation
import Mathlib.Tactic.IntervalCases
import Mathlib.Tactic.NormNum

/-! The process table of the CFS project, its weights, and the arithmetic of `vruntime`:
`is_overflow`, `overflow_handler` and the charge of a timer tick. -/
namespace Cfs

/-- `NPROC` is positive, so that a literal is an index of the table. -/
scoped instance instNeZeroNproc : NeZero 64 := ⟨by decide⟩

/-- `enum procstate`. -/
inductive ProcState where
  | unused | embryo | sleeping | runnable | running | zombie
  deriving DecidableEq

/-- The nice values that `setnice` accepts. -/
abbrev Nice := {x : ℤ // -5 ≤ x ∧ x ≤ 5}

theorem zero_nice : -5 ≤ (0 : ℤ) ∧ (0 : ℤ) ≤ 5 := by decide

/-- What a process sleeps on: the address of a process, of `ticks`, or of something else. -/
inductive Chan where
  | proc (i : Fin 64)
  | ticks
  | other (k : ℕ)
  deriving DecidableEq

/-- The scheduling fields of `struct proc`. -/
structure Proc where
  state : ProcState
  pid : Int32
  parent : Option (Fin 64)
  chan : Option Chan
  killed : Bool
  priority : Nice
  weight : ℕ
  vruntime : Int32
  runtimeInterval : ℕ
  timeslice : ℕ

/-- `ptable.proc`, with `NPROC` entries. -/
abbrev Table := Fin 64 → Proc

/-- A process that is `RUNNING` or `RUNNABLE`. -/
def Proc.Awake (p : Proc) : Prop := p.state = .running ∨ p.state = .runnable

/-- A process that a rescale of `vruntime` reaches. -/
def Proc.Live (p : Proc) : Prop :=
  p.state = .runnable ∨ p.state = .running ∨ p.state = .sleeping

instance (p : Proc) : Decidable p.Awake := inferInstanceAs (Decidable (_ ∨ _))

instance (p : Proc) : Decidable p.Live := inferInstanceAs (Decidable (_ ∨ _ ∨ _))

def nice2weightArr : List ℕ := [3121, 2501, 1991, 1586, 1277, 1024, 820, 655, 526, 423, 335]

def nice2weight (nice : Nice) : ℕ := nice2weightArr.getD (nice.val + 5).toNat 0

theorem nice2weight_bounds (nice : Nice) : 335 ≤ nice2weight nice ∧ nice2weight nice ≤ 3121 := by
  obtain ⟨x, hlo, hhi⟩ := nice
  change 335 ≤ nice2weightArr.getD (x + 5).toNat 0 ∧ nice2weightArr.getD (x + 5).toNat 0 ≤ 3121
  interval_cases x <;> decide

/-- `one_tick_vruntime` of `wakeup1`. -/
def oneTickVruntime (nice : Nice) : ℕ := 1000 * 1024 / nice2weight nice

/-- `delta_vruntime` of `trap`. -/
def deltaVruntime (nice : Nice) : ℕ :=
  (1000 * 1024 + nice2weight nice - 1) / nice2weight nice

theorem oneTickVruntime_lt (nice : Nice) : oneTickVruntime nice < 4096 := by
  have h := (nice2weight_bounds nice).1
  exact (Nat.div_lt_iff_lt_mul (by omega)).2 (by omega)

theorem deltaVruntime_bounds (nice : Nice) :
    0 < deltaVruntime nice ∧ deltaVruntime nice < 4096 := by
  have h := (nice2weight_bounds nice).1
  exact ⟨Nat.div_pos (by omega) (by omega), (Nat.div_lt_iff_lt_mul (by omega)).2 (by omega)⟩

section Arithmetic
variable {a b : Int32}

theorem toInt_add_of_range (h : -2147483648 ≤ a.toInt + b.toInt)
    (h' : a.toInt + b.toInt ≤ 2147483647) : (a + b).toInt = a.toInt + b.toInt := by
  rw [Int32.toInt_add, Int.bmod_eq_of_le] <;> norm_num <;> omega

theorem toInt_sub_of_range (h : -2147483648 ≤ a.toInt - b.toInt)
    (h' : a.toInt - b.toInt ≤ 2147483647) : (a - b).toInt = a.toInt - b.toInt := by
  rw [Int32.toInt_sub, Int.bmod_eq_of_le] <;> norm_num <;> omega

theorem toInt_range (a : Int32) : -2147483648 ≤ a.toInt ∧ a.toInt ≤ 2147483647 := by
  have h1 := a.toInt_lt
  have h2 := a.le_toInt
  norm_num at h1 h2
  omega

theorem toInt_minValue : Int32.minValue.toInt = -2147483648 := rfl

theorem toInt_maxValue : Int32.maxValue.toInt = 2147483647 := rfl

theorem toInt_ofNat_of_lt {n : ℕ} (h : n < 4096) : (Int32.ofNat n).toInt = n :=
  Int32.toInt_ofNat_of_lt (by omega)

def isOverflow (a b : Int32) : Bool :=
  if b > 0 then decide (a > Int32.maxValue - b)
  else if b < 0 then decide (a < Int32.minValue - b)
  else false

theorem isOverflow_iff : isOverflow a b = true ↔
    a.toInt + b.toInt < -2147483648 ∨ 2147483647 < a.toInt + b.toInt := by
  have ha := toInt_range a
  have hb := toInt_range b
  have h0 : (0 : Int32).toInt = 0 := rfl
  unfold isOverflow
  by_cases hpos : b > 0
  · have hb0 := Int32.lt_iff_toInt_lt.1 hpos
    rw [h0] at hb0
    have hsub : (Int32.maxValue - b).toInt = 2147483647 - b.toInt := by
      rw [toInt_sub_of_range] <;> rw [toInt_maxValue] <;> omega
    rw [if_pos hpos, decide_eq_true_eq, gt_iff_lt, Int32.lt_iff_toInt_lt, hsub]
    omega
  · have hb0 := mt Int32.lt_iff_toInt_lt.2 hpos
    rw [h0] at hb0
    rw [if_neg hpos]
    by_cases hneg : b < 0
    · have hb1 := Int32.lt_iff_toInt_lt.1 hneg
      rw [h0] at hb1
      have hsub : (Int32.minValue - b).toInt = -2147483648 - b.toInt := by
        rw [toInt_sub_of_range] <;> rw [toInt_minValue] <;> omega
      rw [if_pos hneg, decide_eq_true_eq, Int32.lt_iff_toInt_lt, hsub]
      omega
    · have hb1 := mt Int32.lt_iff_toInt_lt.2 hneg
      rw [h0] at hb1
      rw [if_neg hneg]
      simp only [Bool.false_eq_true, false_iff]
      omega

theorem isOverflow_eq_false_iff : isOverflow a b = false ↔
    -2147483648 ≤ a.toInt + b.toInt ∧ a.toInt + b.toInt ≤ 2147483647 := by
  rw [← Bool.not_eq_true, isOverflow_iff]
  omega

/-- An addition that saturates at `sat` where it would overflow. -/
def satAdd (sat a diff : Int32) : Int32 := if isOverflow a diff then sat else a + diff

theorem toInt_satAdd_min {diff : Int32} (h : diff.toInt ≤ 0) :
    (satAdd Int32.minValue a diff).toInt = max (-2147483648) (a.toInt + diff.toInt) := by
  have ha := toInt_range a
  unfold satAdd
  split
  case isTrue ho =>
    have := isOverflow_iff.1 ho
    rw [toInt_minValue, max_eq_left (by omega)]
  case isFalse ho =>
    have := isOverflow_eq_false_iff.1 (Bool.eq_false_of_not_eq_true ho)
    rw [toInt_add_of_range this.1 this.2, max_eq_right this.1]

theorem toInt_satAdd_max {diff : Int32} (h : 0 ≤ diff.toInt) :
    (satAdd Int32.maxValue a diff).toInt = min 2147483647 (a.toInt + diff.toInt) := by
  have ha := toInt_range a
  unfold satAdd
  split
  case isTrue ho =>
    have := isOverflow_iff.1 ho
    rw [toInt_maxValue, min_eq_left (by omega)]
  case isFalse ho =>
    have := isOverflow_eq_false_iff.1 (Bool.eq_false_of_not_eq_true ho)
    rw [toInt_add_of_range this.1 this.2, min_eq_right this.2]

end Arithmetic

def overflowHandler (i : Int32) (t : Table) : Table :=
  if i > 0 then fun j =>
    if (t j).Live then
      { t j with vruntime := satAdd Int32.minValue (t j).vruntime (-0x0FFFFFFF) }
    else t j
  else if i < 0 then fun j =>
    if (t j).Live then
      { t j with vruntime := satAdd Int32.maxValue (t j).vruntime 0x0FFFFFFF }
    else t j
  else t

/-- The loop of `trap` before the charge `delta`, with a bound on its rounds. -/
def chargeLoop (r : Fin 64) (delta : ℕ) : ℕ → Table → Option Table
  | 0, _ => none
  | k + 1, t =>
    if isOverflow (t r).vruntime (Int32.ofNat delta) then
      chargeLoop r delta k (overflowHandler (Int32.ofNat delta) t)
    else some t

theorem toInt_down : (-0x0FFFFFFF : Int32).toInt = -268435455 := rfl

theorem toInt_up : (0x0FFFFFFF : Int32).toInt = 268435455 := rfl

theorem overflowHandler_pos {i : Int32} (h : i > 0) (t : Table) : overflowHandler i t = fun j =>
    if (t j).Live then
      { t j with vruntime := satAdd Int32.minValue (t j).vruntime (-0x0FFFFFFF) }
    else t j := if_pos h

theorem overflowHandler_state (i : Int32) (t : Table) (j : Fin 64) :
    (overflowHandler i t j).state = (t j).state := by
  unfold overflowHandler
  split_ifs
  · dsimp only
    split_ifs <;> rfl
  · dsimp only
    split_ifs <;> rfl
  · rfl

theorem overflowHandler_mono (i : Int32) (t : Table) {p q : Fin 64} (hp : (t p).Live)
    (hq : (t q).Live) (h : (t p).vruntime ≤ (t q).vruntime) :
    (overflowHandler i t p).vruntime ≤ (overflowHandler i t q).vruntime := by
  rw [Int32.le_iff_toInt_le] at h ⊢
  unfold overflowHandler
  split_ifs
  · dsimp only
    rw [if_pos hp, if_pos hq, toInt_satAdd_min (by rw [toInt_down]; omega),
      toInt_satAdd_min (by rw [toInt_down]; omega)]
    exact max_le_max le_rfl (by omega)
  · dsimp only
    rw [if_pos hp, if_pos hq, toInt_satAdd_max (by rw [toInt_up]; omega),
      toInt_satAdd_max (by rw [toInt_up]; omega)]
    exact min_le_min le_rfl (by omega)
  · exact h

/-- At most one rescale makes room for the charge. -/
theorem chargeLoop_spec {t : Table} {r : Fin 64} (hr : (t r).state = .running) :
    ∃ t', (∀ k, 2 ≤ k → chargeLoop r (deltaVruntime (t r).priority) k t = some t') ∧
      isOverflow (t' r).vruntime (Int32.ofNat (deltaVruntime (t r).priority)) = false ∧
      (t' = t ∨ isOverflow (t r).vruntime (Int32.ofNat (deltaVruntime (t r).priority)) = true ∧
        t' = overflowHandler (Int32.ofNat (deltaVruntime (t r).priority)) t) := by
  obtain ⟨hδ0, hδ⟩ := deltaVruntime_bounds (t r).priority
  set δ := deltaVruntime (t r).priority with hd
  have hδ' := toInt_ofNat_of_lt hδ
  by_cases ho : isOverflow (t r).vruntime (Int32.ofNat δ) = true
  · set t' := overflowHandler (Int32.ofNat δ) t with ht'
    have hpos : Int32.ofNat δ > 0 := by
      rw [gt_iff_lt, Int32.lt_iff_toInt_lt, hδ']
      change (0 : ℤ) < _
      omega
    have hv : (t' r).vruntime = satAdd Int32.minValue (t r).vruntime (-0x0FFFFFFF) := by
      rw [ht', overflowHandler_pos hpos]
      dsimp only
      rw [if_pos (.inr (.inl hr))]
    have hno : isOverflow (t' r).vruntime (Int32.ofNat δ) = false := by
      have := isOverflow_iff.1 ho
      have hrange := toInt_range (t r).vruntime
      rw [isOverflow_eq_false_iff, hv, toInt_satAdd_min (by rw [toInt_down]; omega),
        toInt_down, hδ']
      rw [hδ'] at this
      omega
    refine ⟨t', fun k hk => ?_, hno, .inr ⟨ho, rfl⟩⟩
    obtain ⟨k, rfl⟩ := Nat.exists_eq_add_of_le' hk
    rw [chargeLoop, if_pos ho, chargeLoop, ← ht', if_neg (by rw [hno]; simp)]
  · refine ⟨t, fun k hk => ?_, Bool.eq_false_of_not_eq_true ho, .inl rfl⟩
    obtain ⟨k, rfl⟩ := Nat.exists_eq_add_of_le' hk
    rw [chargeLoop, if_neg ho]

/-- At every tick the rescaling loop ends, the charge then does not overflow, and every
rescale, upwards and downwards, keeps the order of the processes that it reaches. -/
theorem rescale_and_charge (t : Table) :
    (∀ r, (t r).state = .running →
      ∃ t', (∀ k, 2 ≤ k → chargeLoop r (deltaVruntime (t r).priority) k t = some t') ∧
        ((t' r).vruntime + Int32.ofNat (deltaVruntime (t r).priority)).toInt =
          (t' r).vruntime.toInt + deltaVruntime (t r).priority) ∧
    ∀ (i : Int32) (p q : Fin 64), (t p).Live → (t q).Live → (t p).vruntime ≤ (t q).vruntime →
      (overflowHandler i t p).vruntime ≤ (overflowHandler i t q).vruntime := by
  refine ⟨fun r hr => ?_, fun i p q hp hq h => overflowHandler_mono i t hp hq h⟩
  obtain ⟨t', hloop, hno, -⟩ := chargeLoop_spec hr
  have hδ := toInt_ofNat_of_lt (deltaVruntime_bounds (t r).priority).2
  have hrange := isOverflow_eq_false_iff.1 hno
  refine ⟨t', hloop, ?_⟩
  rw [toInt_add_of_range hrange.1 hrange.2, hδ]

/-- A table whose processes all run at the largest `vruntime`. -/
def fullTable : Table := fun _ =>
  ⟨.running, 1, none, none, false, ⟨0, zero_nice⟩, 1024, Int32.maxValue, 0, 0⟩

theorem rescale_and_charge_max :
    ∃ t', (∀ k, 2 ≤ k →
        chargeLoop 0 (deltaVruntime (fullTable 0).priority) k fullTable = some t') ∧
      ((t' 0).vruntime + Int32.ofNat (deltaVruntime (fullTable 0).priority)).toInt =
        (t' 0).vruntime.toInt + deltaVruntime (fullTable 0).priority :=
  (rescale_and_charge fullTable).1 0 rfl

end Cfs
