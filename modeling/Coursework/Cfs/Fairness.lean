import Mathlib
import Coursework.Cfs.System
import Coursework.Lib.FairShare

/-! Fairness on one CPU: while the same processes stay `RUNNING` or `RUNNABLE`, their
`vruntime`s stay within the largest charge of a time slice. -/
namespace Cfs

/-- The sum of the weights of all processes that are `RUNNING` or `RUNNABLE`. -/
def groupWeight (t : Table) : ℕ :=
  ∑ i, if (t i).Awake then nice2weight (t i).priority else 0

/-- The ticks in the time slice of a process among these: the slice in milli-ticks is
rounded up, and so is the number of ticks. -/
def sliceTicks (t : Table) (i : Fin 64) : ℕ :=
  ((10000 * nice2weight (t i).priority) ⌈/⌉ groupWeight t) ⌈/⌉ 1000

/-- The largest charge of a time slice. -/
def sliceBound (t : Table) : ℕ :=
  (Finset.univ.filter fun i => (t i).Awake).sup fun i =>
    sliceTicks t i * (1024000 ⌈/⌉ nice2weight (t i).priority)

/-- The ticks until a running process yields. -/
def ticksLeft (p : Proc) : ℕ := max 1 ((p.timeslice - p.runtimeInterval) ⌈/⌉ 1000)

/-- A tick or a dispatch on one CPU that neither rescales nor ends a process. -/
def Undisturbed (s : State) : Op → Prop
  | .dispatch p => (s.table p).state = .runnable ∧ ∀ j, ¬Running s j
  | .tick none _ => ∀ j, ¬Running s j
  | .tick (some r) user => Running s r ∧ ((s.table r).killed && user) = false ∧
      isOverflow (s.table r).vruntime (Int32.ofNat (deltaVruntime (s.table r).priority)) = false
  | _ => False

instance (s : State) (op : Op) : Decidable (Undisturbed s op) := by
  unfold Undisturbed
  split <;> infer_instance

theorem totalWeight_eq {s : State} (h : ∀ j, ¬Running s j) :
    totalWeight s.table = groupWeight s.table := by
  have hfold : ∀ (l : List (Fin 64)) (ret : ℕ), l.foldl (fun ret j =>
      if (s.table j).state = .runnable then ret + nice2weight (s.table j).priority else ret) ret =
      ret + (l.map fun i => if (s.table i).Awake then nice2weight (s.table i).priority else 0).sum
      := by
    intro l
    induction l with
    | nil => exact fun _ => rfl
    | cons i l ih =>
      intro ret
      have hawake : (s.table i).Awake ↔ (s.table i).state = .runnable := or_iff_right (h i)
      rw [List.foldl_cons, ih, List.map_cons, List.sum_cons]
      by_cases hi : (s.table i).state = .runnable
      · rw [if_pos hi, if_pos (hawake.2 hi), add_assoc]
      · rw [if_neg hi, if_neg (mt hawake.1 hi), zero_add]
  unfold totalWeight groupWeight
  rw [hfold, zero_add, Fin.sum_univ_def]

theorem groupWeight_pos {t : Table} {i : Fin 64} (hi : (t i).Awake) : 0 < groupWeight t := by
  have hw := (nice2weight_bounds (t i).priority).1
  have hle : (if (t i).Awake then nice2weight (t i).priority else 0) ≤ groupWeight t :=
    Finset.single_le_sum (f := fun i => if (t i).Awake then nice2weight (t i).priority else 0)
      (fun _ _ => Nat.zero_le _) (Finset.mem_univ i)
  rw [if_pos hi] at hle
  omega

theorem ticksLeft_timeSlice {t : Table} {i : Fin 64} (hi : (t i).Awake) {p : Proc}
    (hs : p.timeslice = timeSlice (nice2weight (t i).priority) (groupWeight t))
    (h0 : p.runtimeInterval = 0) : ticksLeft p = sliceTicks t i := by
  have hw := (nice2weight_bounds (t i).priority).1
  have hpos := groupWeight_pos hi
  have hslice : 0 < timeSlice (nice2weight (t i).priority) (groupWeight t) :=
    Nat.div_pos (by omega) hpos
  have hceil : (10000 * nice2weight (t i).priority) ⌈/⌉ groupWeight t =
      timeSlice (nice2weight (t i).priority) (groupWeight t) := by
    unfold timeSlice
    rw [Nat.ceilDiv_eq_add_pred_div, show 1000 * (10 * nice2weight (t i).priority) =
      10000 * nice2weight (t i).priority by omega]
  unfold ticksLeft sliceTicks
  rw [hs, h0, hceil, Nat.sub_zero, Nat.ceilDiv_eq_add_pred_div]
  omega

theorem le_sliceBound {t : Table} {i : Fin 64} (hi : (t i).Awake) :
    sliceTicks t i * deltaVruntime (t i).priority ≤ sliceBound t := by
  have hdelta : deltaVruntime (t i).priority = 1024000 ⌈/⌉ nice2weight (t i).priority := by
    rw [Nat.ceilDiv_eq_add_pred_div, deltaVruntime]
  rw [hdelta]
  exact Finset.le_sup (f := fun i => sliceTicks t i * (1024000 ⌈/⌉ nice2weight (t i).priority))
    (Finset.mem_filter.2 ⟨Finset.mem_univ i, hi⟩)

/-- What a running process may still be charged before it yields. -/
def chargeLeft (t : Table) (i : Fin 64) : ℤ :=
  if (t i).state = .running then ticksLeft (t i) * deltaVruntime (t i).priority else 0

theorem chargeLeft_nonneg (t : Table) (i : Fin 64) : 0 ≤ chargeLeft t i := by
  unfold chargeLeft
  split
  · positivity
  · exact le_rfl

/-- The invariant of the runs from `t₀`: the group and the weights are as at the start, and
the `vruntime`s are balanced. -/
structure Fair (t₀ : Table) (s : State) : Prop where
  awake : ∀ i, (s.table i).Awake ↔ (t₀ i).Awake
  priority : ∀ i, (s.table i).priority = (t₀ i).priority
  cpu : ∀ i j, Running s i → Running s j → i = j
  timers : ∀ i, (s.table i).state = .sleeping → (s.table i).chan ≠ some .ticks
  balanced : FairShare.Balanced {i | (t₀ i).Awake} (fun i => (s.table i).vruntime.toInt)
    (chargeLeft s.table) (sliceBound t₀)

theorem Fair.groupWeight {t₀ : Table} {s : State} (h : Fair t₀ s) :
    groupWeight s.table = groupWeight t₀ := by
  unfold Cfs.groupWeight
  apply Finset.sum_congr rfl
  intro i _
  simp only [h.awake i, h.priority i]

theorem wakeup_none {chan : Chan} {s : State}
    (h : ∀ i, (s.table i).state = .sleeping → (s.table i).chan ≠ some chan) :
    (wakeup chan s).table = s.table := by
  have hfold : ∀ (l : List (Fin 64)) (w : WakeState), w.table = s.table →
      (l.foldl (wakeRound chan) w).table = s.table := by
    intro l
    induction l with
    | nil => exact fun _ hw => hw
    | cons p l ih =>
      intro w hw
      apply ih
      rw [wakeRound, if_neg (by rw [hw]; exact fun hp => h p hp.1 hp.2), hw]
  unfold wakeup wakeup1
  generalize minOver s.table (fun _ => true) 0 = m
  apply hfold
  rfl

/-- The entry of a process after a tick on it. -/
def ticked (p : Proc) : Proc :=
  let p := { p with
    runtimeInterval := p.runtimeInterval + 1000
    vruntime := p.vruntime + Int32.ofNat (deltaVruntime p.priority) }
  if p.timeslice ≤ p.runtimeInterval then { p with runtimeInterval := 0, state := .runnable }
  else p

theorem tick_table {s : State} {r : Fin 64} {user : Bool} (h : Undisturbed s (.tick (some r) user))
    (hs : ∀ i, (s.table i).state = .sleeping → (s.table i).chan ≠ some .ticks) :
    (tick (some r) user s).table = Function.update s.table r (ticked (s.table r)) := by
  obtain ⟨hr, hk, ho⟩ := h
  have hcharge : (charge r s).table = Function.update s.table r { s.table r with
      runtimeInterval := (s.table r).runtimeInterval + 1000
      vruntime := (s.table r).vruntime + Int32.ofNat (deltaVruntime (s.table r).priority) } := by
    unfold charge
    simp only [chargeLoop, ho, Bool.false_eq_true, if_false]
  have hquiet : (wakeup .ticks (charge r s)).table = (charge r s).table := by
    apply wakeup_none
    intro i hi
    rw [hcharge] at hi ⊢
    obtain rfl | hne := eq_or_ne i r
    · rw [Function.update_self] at hi
      exact absurd (hi.symm.trans hr) (by decide)
    · rw [Function.update_of_ne hne] at hi ⊢
      exact hs i hi
  have hself : (wakeup .ticks (charge r s)).table r = { s.table r with
      runtimeInterval := (s.table r).runtimeInterval + 1000
      vruntime := (s.table r).vruntime + Int32.ofNat (deltaVruntime (s.table r).priority) } := by
    rw [hquiet, hcharge, Function.update_self]
  unfold tick trapEnd yieldCheck
  dsimp only
  rw [hself]
  dsimp only
  rw [if_neg (by rw [hk]; exact Bool.false_ne_true)]
  unfold ticked
  dsimp only
  by_cases hle : (s.table r).timeslice ≤ (s.table r).runtimeInterval + 1000
  · rw [if_pos ⟨hr, hle⟩, if_pos hle, hquiet, hcharge, Function.update_idem]
  · rw [if_neg fun hc => hle hc.2, if_neg hle, hquiet, hcharge]

theorem ticked_vruntime {p : Proc}
    (ho : isOverflow p.vruntime (Int32.ofNat (deltaVruntime p.priority)) = false) :
    (ticked p).vruntime.toInt = p.vruntime.toInt + deltaVruntime p.priority := by
  have hδ := toInt_ofNat_of_lt (deltaVruntime_bounds p.priority).2
  have hrange := isOverflow_eq_false_iff.1 ho
  have hv : (ticked p).vruntime = p.vruntime + Int32.ofNat (deltaVruntime p.priority) := by
    unfold ticked
    dsimp only
    split <;> rfl
  rw [hv, toInt_add_of_range hrange.1 hrange.2, hδ]

theorem ticked_pays {p : Proc} (hr : p.state = .running) : (ticked p).Awake ∧
    (ticked p).priority = p.priority ∧ ((ticked p).state = .running →
      ticksLeft (ticked p) + 1 ≤ ticksLeft p) := by
  unfold ticked ticksLeft
  dsimp only
  split
  · refine ⟨.inr rfl, rfl, fun h => ?_⟩
    cases h
  · refine ⟨.inl hr, rfl, fun _ => ?_⟩
    simp only [Nat.ceilDiv_eq_add_pred_div]
    omega

theorem Fair.tick {t₀ : Table} {s : State} (h : Fair t₀ s) {r : Fin 64} {user : Bool}
    (hu : Undisturbed s (.tick (some r) user)) : Fair t₀ (tick (some r) user s) := by
  have ht := tick_table hu h.timers
  obtain ⟨hr, -, ho⟩ := hu
  obtain ⟨hawake, hpri, hleft⟩ := ticked_pays hr
  have hv := ticked_vruntime ho
  have hδ := (deltaVruntime_bounds (s.table r).priority).1
  have hothers (i : Fin 64) (hne : i ≠ r) : (Cfs.tick (some r) user s).table i = s.table i := by
    rw [ht, Function.update_of_ne hne]
  have hself : (Cfs.tick (some r) user s).table r = ticked (s.table r) := by
    rw [ht, Function.update_self]
  refine ⟨fun i => ?_, fun i => ?_, fun i j hi hj => ?_, fun i hi => ?_, ?_⟩
  · obtain rfl | hne := eq_or_ne i r
    · rw [hself, ← h.awake]
      exact iff_of_true hawake (.inl hr)
    · rw [hothers i hne, h.awake]
  · obtain rfl | hne := eq_or_ne i r
    · rw [hself, hpri, h.priority]
    · rw [hothers i hne, h.priority]
  · have hold (i : Fin 64) (hi : Running (Cfs.tick (some r) user s) i) : i = r := by
      by_contra hne
      rw [Running, hothers i hne] at hi
      exact hne (h.cpu i r hi hr)
    rw [hold i hi, hold j hj]
  · obtain rfl | hne := eq_or_ne i r
    · rw [hself] at hi
      obtain h' | h' := hawake <;> rw [hi] at h' <;> cases h'
    · rw [hothers i hne] at hi ⊢
      exact h.timers i hi
  · apply h.balanced.spend
    · intro i _
      obtain rfl | hne := eq_or_ne i r
      · rw [hself, hv]
        omega
      · rw [hothers i hne]
    · exact fun i _ => chargeLeft_nonneg _ i
    · intro i _
      unfold chargeLeft
      obtain rfl | hne := eq_or_ne i r
      · have hbefore : (ticksLeft (s.table i) : ℤ) ≥ 1 := by
          unfold ticksLeft
          omega
        rw [hself, hv, hpri, if_pos (show (s.table i).state = .running from hr)]
        split
        · rename_i hrun
          have := hleft hrun
          nlinarith
        · nlinarith
      · rw [hothers i hne]

theorem Fair.dispatch {t₀ : Table} {s : State} (h : Fair t₀ s) {p : Fin 64}
    (hu : Undisturbed s (.dispatch p)) : Fair t₀ (dispatch p s) := by
  obtain ⟨hp, hidle⟩ := hu
  obtain ⟨hlow, hleast⟩ := lowest_spec hp
  set low := lowest s.table p with hlowdef
  have hothers (i : Fin 64) (hne : i ≠ low) : (Cfs.dispatch p s).table i = s.table i :=
    Function.update_of_ne hne _ _
  have hself : (Cfs.dispatch p s).table low = { s.table low with
      weight := nice2weight (s.table low).priority, runtimeInterval := 0
      timeslice := timeSlice (nice2weight (s.table low).priority) (totalWeight s.table)
      state := .running } :=
    Function.update_self _ _ _
  have hrun (i : Fin 64) (hi : Running (Cfs.dispatch p s) i) : i = low := by
    by_contra hne
    rw [Running, hothers i hne] at hi
    exact hidle i hi
  have hvruntime (i : Fin 64) : ((Cfs.dispatch p s).table i).vruntime = (s.table i).vruntime := by
    obtain rfl | hne := eq_or_ne i low
    · rw [hself]
    · rw [hothers i hne]
  have hgroup : (t₀ low).Awake := (h.awake low).1 (.inr hlow)
  refine ⟨fun i => ?_, fun i => ?_, fun i j hi hj => (hrun i hi).trans (hrun j hj).symm,
    fun i hi => ?_, ?_⟩
  · obtain rfl | hne := eq_or_ne i low
    · rw [hself]
      exact iff_of_true (.inl rfl) hgroup
    · rw [hothers i hne, h.awake]
  · obtain rfl | hne := eq_or_ne i low
    · rw [hself, ← h.priority]
    · rw [hothers i hne, h.priority]
  · obtain rfl | hne := eq_or_ne i low
    · rw [hself] at hi
      cases hi
    · rw [hothers i hne] at hi ⊢
      exact h.timers i hi
  · simp only [hvruntime]
    apply h.balanced.serve (i := low)
    · intro j hj
      have hj' : (s.table j).state = .runnable := ((h.awake j).2 hj).resolve_left (hidle j)
      exact Int32.le_iff_toInt_le.1 (hleast j hj')
    · refine ⟨chargeLeft_nonneg _ _, ?_⟩
      have hticks : ticksLeft ((Cfs.dispatch p s).table low) = sliceTicks t₀ low := by
        apply ticksLeft_timeSlice hgroup
        · rw [hself, ← h.priority, totalWeight_eq hidle, h.groupWeight]
        · rw [hself]
      have hbound := le_sliceBound hgroup
      unfold chargeLeft
      rw [if_pos (by rw [hself]), hticks]
      rw [hself]
      dsimp only
      rw [h.priority]
      exact_mod_cast hbound
    · intro j _ hne
      unfold chargeLeft
      rw [hothers j hne]
      exact if_neg (hidle j)

theorem step_fair {t₀ : Table} (s : State) (op : Op) (h : Fair t₀ s) (hu : Undisturbed s op) :
    Fair t₀ (step s op) := by
  cases op with
  | dispatch p =>
    rw [step, if_pos hu.1]
    exact h.dispatch hu
  | tick r user =>
    cases r with
    | none =>
      have ht : (step s (.tick none user)).table = s.table := wakeup_none h.timers
      refine ⟨?_, ?_, ?_, ?_, ?_⟩
      · rw [ht]
        exact h.awake
      · rw [ht]
        exact h.priority
      · unfold Running
        rw [ht]
        exact h.cpu
      · rw [ht]
        exact h.timers
      · rw [ht]
        exact h.balanced
    | some r =>
      rw [step, if_pos hu.1]
      exact h.tick hu
  | _ => exact hu.elim

/-- Processes that are the only ones awake and start with equal `vruntime`s stay within the
largest charge of a time slice, if one that runs at the start has no more ticks left than a
time slice among them; and every dispatch selects one of least `vruntime`. -/
theorem fair_share {s : State} (hcpu : ∀ i j, Running s i → Running s j → i = j)
    (htimers : ∀ i, (s.table i).state = .sleeping → (s.table i).chan ≠ some .ticks)
    (heq : ∀ i j, (s.table i).Awake → (s.table j).Awake →
      (s.table i).vruntime = (s.table j).vruntime)
    (hleft : ∀ r, Running s r → ticksLeft (s.table r) ≤ sliceTicks s.table r)
    (ops : List Op) (hops : Machine.Along step Undisturbed s ops) :
    (∀ i j, (s.table i).Awake → (s.table j).Awake →
      |((Machine.run step s ops).table i).vruntime.toInt -
        ((Machine.run step s ops).table j).vruntime.toInt| ≤ sliceBound s.table) ∧
    ∀ p, Undisturbed (Machine.run step s ops) (.dispatch p) →
      ∀ j, ((Machine.run step s ops).table j).Awake →
        ((Machine.run step s ops).table (lowest (Machine.run step s ops).table p)).vruntime ≤
          ((Machine.run step s ops).table j).vruntime := by
  have hstart : Fair s.table s := by
    refine ⟨fun _ => .rfl, fun _ => rfl, hcpu, htimers, ?_⟩
    obtain hnone | ⟨k, hk⟩ := Set.eq_empty_or_nonempty {i | (s.table i).Awake}
    · rw [hnone]
      exact ⟨0, fun i hi => hi.elim⟩
    · apply FairShare.Balanced.start
      · intro i hi
        rw [heq i k hi hk]
      · intro i hi
        refine ⟨chargeLeft_nonneg _ i, ?_⟩
        unfold chargeLeft
        split
        · rename_i hr
          have hle := Nat.mul_le_mul_right (deltaVruntime (s.table i).priority) (hleft i hr)
          exact_mod_cast hle.trans (le_sliceBound hi)
        · positivity
  have hend := Machine.invariant step_fair ops s hstart hops
  refine ⟨fun i j hi hj => hend.balanced.spread hi hj, fun p hp j hj => ?_⟩
  exact (lowest_spec hp.1).2 j (hj.resolve_left (hp.2 j))

/-- The state after `initproc`, the only process, was dispatched and has forked. -/
def forked : State := Machine.run step userinit [.dispatch 0, .fork 0 true]

/-- `initproc` and its child, both runnable. -/
def forkedIdle : State := { forked with table := setState forked.table 0 .runnable }

/-- The state after a dispatch and a tick. -/
def forkedTicked : State := Machine.run step forkedIdle [.dispatch 0, .tick (some 0) false]

theorem fair_share_forkedIdle :
    (∀ i j, (forkedIdle.table i).Awake → (forkedIdle.table j).Awake →
      |(forkedTicked.table i).vruntime.toInt - (forkedTicked.table j).vruntime.toInt| ≤
        sliceBound forkedIdle.table) ∧
    ∀ p, Undisturbed forkedTicked (.dispatch p) → ∀ j, (forkedTicked.table j).Awake →
      (forkedTicked.table (lowest forkedTicked.table p)).vruntime ≤
        (forkedTicked.table j).vruntime := by
  unfold forkedTicked
  exact fair_share (by unfold Running; decide +kernel) (by decide +kernel)
    (by decide +kernel) (by unfold Running; decide +kernel) _ (by decide +kernel)

/-- A time slice that a process got while it was alone outlasts a fork: after six ticks the
`vruntime`s of parent and child are 6000 apart, and the largest charge of a slice is 5000. -/
theorem fork_outlasts_slice : ¬ ∀ (s : State), (∃ ops, s = Machine.run step userinit ops) →
    (∀ i j, Running s i → Running s j → i = j) →
    (∀ i, (s.table i).state = .sleeping → (s.table i).chan ≠ some .ticks) →
    (∀ i j, (s.table i).Awake → (s.table j).Awake →
      (s.table i).vruntime = (s.table j).vruntime) →
    ∀ ops, Machine.Along step Undisturbed s ops →
      ∀ i j, (s.table i).Awake → (s.table j).Awake →
        |((Machine.run step s ops).table i).vruntime.toInt -
          ((Machine.run step s ops).table j).vruntime.toInt| ≤ sliceBound s.table := by
  intro h
  have hspread := h forked ⟨_, rfl⟩ (by unfold Running; decide +kernel) (by decide +kernel)
    (by decide +kernel) (List.replicate 6 (.tick (some 0) false)) (by decide +kernel) 0 1
    (by decide +kernel) (by decide +kernel)
  revert hspread
  decide +kernel

end Cfs
