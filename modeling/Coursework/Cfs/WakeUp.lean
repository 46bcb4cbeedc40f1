import Coursework.Cfs.System
import Mathlib.Data.Set.Finite.Lemmas
import Mathlib.Data.Set.Finite.Range

/-! The `vruntime` of a woken process: what `wakeup1` computes in one call, and when that
is the law of the project, over all runs. -/
namespace Cfs

/-- The `vruntime`s of the other processes that are `RUNNING` or `RUNNABLE`. -/
def Wake.others (w : Wake) : Set ℤ :=
  {v | ∃ j, j ≠ w.proc ∧ (w.table j).Awake ∧ v = (w.table j).vruntime.toInt}

/-- The wake-up law: one tick below the least `vruntime` of the others, 0 without others,
and never the one from before. -/
def Wake.Law (w : Wake) : Prop :=
  w.kept = false ∧ (w.others = ∅ → w.vruntime = 0) ∧ ∀ m, IsLeast w.others m →
    w.vruntime.toInt = max (-2147483648) (m - oneTickVruntime (w.table w.proc).priority)

/-- A wake-up by `wakeup1` while some other process, if there is one, is not above 0. -/
def Wake.Low (w : Wake) : Prop :=
  w.kept = false ∧ (w.others.Nonempty → ∃ v ∈ w.others, v ≤ 0)

/-- The processes of a later table were processes before, under the same pids. -/
def Heirs (t t' : Table) : Prop := ∀ j, (t' j).Live → (t j).Live ∧ (t' j).pid = (t j).pid

/-- No two processes share a pid. -/
def Named (t : Table) : Prop := ∀ i j, (t i).Live → (t j).Live → (t i).pid = (t j).pid → i = j

theorem Heirs.refl (t : Table) : Heirs t t := fun _ h => ⟨h, rfl⟩

theorem Heirs.trans {t t' t'' : Table} (h : Heirs t t') (h' : Heirs t' t'') : Heirs t t'' :=
  fun j hj => ⟨(h j (h' j hj).1).1, (h' j hj).2.trans (h j (h' j hj).1).2⟩

theorem Heirs.named {t t' : Table} (h : Heirs t t') (ht : Named t) : Named t' := by
  intro i j hi hj he
  apply ht i j (h i hi).1 (h j hj).1
  rw [← (h i hi).2, ← (h j hj).2, he]

theorem Heirs.update {t : Table} {p : Fin 64} {x : Proc}
    (h : x.Live → (t p).Live ∧ x.pid = (t p).pid) : Heirs t (Function.update t p x) := by
  intro j hj
  obtain rfl | hne := eq_or_ne j p
  · rw [Function.update_self] at hj ⊢
    exact h hj
  · rw [Function.update_of_ne hne] at hj ⊢
    exact ⟨hj, rfl⟩

theorem Proc.Awake.live {p : Proc} (h : p.Awake) : p.Live := by
  obtain h | h := h
  · exact .inr (.inl h)
  · exact .inl h

section Round
variable {t : Table} {p : Fin 64}

theorem awake_ne {j : Fin 64} (hp : (t p).state = .sleeping) (hj : (t j).Awake) : j ≠ p := by
  rintro rfl
  obtain h | h := hj <;> rw [hp] at h <;> cases h

theorem setState_of_ne {j : Fin 64} (h : j ≠ p) (s : ProcState) : setState t p s j = t j :=
  Function.update_of_ne h _ _

theorem selected_iff (ht : Named t) (hp : (t p).state = .sleeping) (j : Fin 64) :
    (otherThan (setState t p .runnable) p j = true ∧ (setState t p .runnable j).Awake) ↔
      j ≠ p ∧ (t j).Awake := by
  have hpid : (setState t p .runnable p).pid = (t p).pid := by simp [setState]
  rw [otherThan, decide_eq_true_eq]
  constructor
  · rintro ⟨hne, hj⟩
    have hjp : j ≠ p := by
      rintro rfl
      exact hne rfl
    rw [setState_of_ne hjp] at hj
    exact ⟨hjp, hj⟩
  · rintro ⟨hjp, hj⟩
    rw [hpid, setState_of_ne hjp]
    exact ⟨fun he => hjp (ht p j (.inr (.inr hp)) hj.live he).symm, hj⟩

end Round

/-- The value of `wakeup1` meets the law if and only if the least other is not above 0. -/
theorem law_iff_low {w : Wake} {r : Int32} (hk : w.kept = false)
    (h0 : w.others = ∅ → w.vruntime = 0)
    (hv : w.others.Nonempty → w.vruntime = wakeVruntime true r (w.table w.proc).priority)
    (hr0 : r.toInt ≤ 0) (hr : ∀ v ∈ w.others, r.toInt ≤ v)
    (hrm : r.toInt = 0 ∨ r.toInt ∈ w.others) : w.Law ↔ w.Low := by
  have htick := oneTickVruntime_lt (w.table w.proc).priority
  have hneg : (-Int32.ofNat (oneTickVruntime (w.table w.proc).priority)).toInt =
      -(oneTickVruntime (w.table w.proc).priority : ℤ) := by
    rw [Int32.toInt_neg, toInt_ofNat_of_lt htick, Int.bmod_eq_of_le] <;> norm_num <;> omega
  have hvalue (hne : w.others.Nonempty) : w.vruntime.toInt =
      max (-2147483648) (r.toInt - oneTickVruntime (w.table w.proc).priority) := by
    rw [hv hne, wakeVruntime, if_pos rfl, toInt_satAdd_min (by rw [hneg]; omega), hneg,
      sub_eq_add_neg]
  constructor
  · rintro ⟨-, -, hlaw⟩
    refine ⟨hk, fun hne => ?_⟩
    have hfin : w.others.Finite := by
      apply Set.Finite.subset (Set.finite_range fun j => (w.table j).vruntime.toInt)
      rintro v ⟨j, -, -, rfl⟩
      exact ⟨j, rfl⟩
    obtain ⟨m, hm, hleast⟩ := Set.exists_min_image w.others id hfin hne
    have heq := (hvalue hne).symm.trans (hlaw m ⟨hm, fun v => hleast v⟩)
    exact ⟨m, hm, by omega⟩
  · rintro ⟨-, hlow⟩
    refine ⟨hk, h0, fun m hm => ?_⟩
    obtain ⟨v, hv, hv0⟩ := hlow ⟨m, hm.1⟩
    have hmv : m ≤ v := hm.2 hv
    have hrm' : r.toInt = m := by
      have hle := hr m hm.1
      obtain h | h := hrm
      · omega
      · exact le_antisymm hle (hm.2 h)
    rw [hvalue ⟨m, hm.1⟩, hrm']

/-- What holds between two rounds of the second pass of `wakeup1`. -/
structure Sweep (t : Table) (w : WakeState) : Prop where
  heirs : Heirs t w.table
  low : w.minVruntime ≤ 0
  attained : w.minVruntime = 0 ∨
    ∃ j, (w.table j).Awake ∧ w.minVruntime = (w.table j).vruntime
  notempty : w.notempty = true → ∃ j, (w.table j).Awake
  law : ∀ x ∈ w.log, x.Law ↔ x.Low

theorem sweep_init (t : Table) : Sweep t ⟨t, minOver t (fun _ => true) 0, false, []⟩ := by
  obtain ⟨hle, -, hatt⟩ := minOver_spec t (fun _ => true) 0
  refine ⟨Heirs.refl t, hle, hatt.imp_right fun ⟨j, hj, he⟩ => ⟨j, hj.2, he⟩, ?_, ?_⟩
  · intro h
    cases h
  · intro x hx
    cases hx

/-- A wake-up keeps the invariant of the sweep, and its record is judged by the law. -/
theorem Sweep.wake {t : Table} {w : WakeState} (hw : Sweep t w) {p : Fin 64}
    (hp : (w.table p).state = .sleeping) {r : Int32} {n : Bool} (hle : r ≤ w.minVruntime)
    (hleast : ∀ j, j ≠ p ∧ (w.table j).Awake → r ≤ (w.table j).vruntime)
    (hatt : r = w.minVruntime ∨ ∃ j, (j ≠ p ∧ (w.table j).Awake) ∧ r = (w.table j).vruntime)
    (hn : n = true ↔ ∃ j, j ≠ p ∧ (w.table j).Awake) {v : Int32}
    (hv : v = wakeVruntime n r (w.table p).priority) :
    Sweep t ⟨setVruntime (setState w.table p .runnable) p v, r, n,
      w.log ++ [⟨w.table, p, v, false⟩]⟩ := by
  have hlast {j : Fin 64} (hj : (w.table j).Awake) :
      setVruntime (setState w.table p .runnable) p v j = w.table j :=
    (Function.update_of_ne (awake_ne hp hj) _ _).trans (setState_of_ne (awake_ne hp hj) _)
  have hattained : r = 0 ∨ ∃ j, (w.table j).Awake ∧ r = (w.table j).vruntime := by
    obtain he | ⟨j, hj, he⟩ := hatt
    · rw [he]
      exact hw.attained
    · exact .inr ⟨j, hj.2, he⟩
  refine ⟨hw.heirs.trans ?_, hle.trans hw.low, ?_, fun _ => ⟨p, ?_⟩, ?_⟩
  · apply (Heirs.update (p := p) ?_).trans
    · apply Heirs.update
      exact fun hl => ⟨hl, rfl⟩
    · exact fun _ => ⟨.inr (.inr hp), rfl⟩
  · apply hattained.imp_right
    rintro ⟨j, hj, he⟩
    exact ⟨j, (congrArg Proc.Awake (hlast hj)).mpr hj,
      he.trans (congrArg Proc.vruntime (hlast hj)).symm⟩
  · right
    simp [setVruntime, setState]
  · intro x hx
    obtain hx | hx := List.mem_append.1 hx
    · exact hw.law x hx
    · obtain rfl := List.mem_singleton.1 hx
      apply law_iff_low rfl
      · intro hempty
        rw [hv]
        apply if_neg
        rw [hn]
        rintro ⟨j, hj⟩
        exact Set.eq_empty_iff_forall_notMem.1 hempty _ ⟨j, hj.1, hj.2, rfl⟩
      · rintro ⟨_, j, hj, hja, -⟩
        rw [← hn.2 ⟨j, hj, hja⟩]
        exact hv
      · exact Int32.le_iff_toInt_le.1 (hle.trans hw.low)
      · rintro _ ⟨j, hj, hja, rfl⟩
        exact Int32.le_iff_toInt_le.1 (hleast j ⟨hj, hja⟩)
      · apply hattained.imp
        · rintro rfl
          rfl
        · rintro ⟨j, hj, he⟩
          exact ⟨j, awake_ne hp hj, hj, by rw [he]⟩

theorem wakeRound_sweep {t : Table} {w : WakeState} (ht : Named t) (hw : Sweep t w)
    (chan : Chan) (p : Fin 64) : Sweep t (wakeRound chan w p) := by
  unfold wakeRound
  split
  case isFalse => exact hw
  case isTrue h =>
    obtain ⟨hp, -⟩ := h
    have hsel := selected_iff (hw.heirs.named ht) hp
    have hsame {j : Fin 64} (hj : j ≠ p) : setState w.table p .runnable j = w.table j :=
      setState_of_ne hj _
    obtain ⟨hle, hleast, hatt⟩ := minOver_spec (setState w.table p .runnable)
      (otherThan (setState w.table p .runnable) p) w.minVruntime
    simp only [hsel] at hleast hatt
    apply hw.wake hp hle
    · intro j hj
      have := hleast j hj
      rwa [hsame hj.1] at this
    · apply hatt.imp_right
      rintro ⟨j, hj, he⟩
      exact ⟨j, hj, by rw [he, hsame hj.1]⟩
    · rw [Bool.or_eq_true, List.any_eq_true]
      constructor
      · rintro (h | ⟨j, -, hj⟩)
        · obtain ⟨j, hj⟩ := hw.notempty h
          exact ⟨j, awake_ne hp hj, hj⟩
        · rw [Bool.and_eq_true, decide_eq_true_eq] at hj
          exact ⟨j, (hsel j).1 hj⟩
      · rintro ⟨j, hj⟩
        refine .inr ⟨j, List.mem_finRange j, ?_⟩
        rw [Bool.and_eq_true, decide_eq_true_eq]
        exact (hsel j).2 hj
    · simp [setState]

theorem wakeup1_sweep {t : Table} (ht : Named t) (chan : Chan) : Sweep t (wakeup1 chan t) := by
  have h : ∀ (l : List (Fin 64)) (w : WakeState), Sweep t w →
      Sweep t (l.foldl (wakeRound chan) w) := by
    intro l
    induction l with
    | nil => exact fun _ hw => hw
    | cons p l ih => exact fun w hw => ih _ (wakeRound_sweep ht hw chan p)
  exact h _ _ (sweep_init t)

/-- What holds in every reachable state. -/
structure Sound (s : State) : Prop where
  named : Named s.table
  pids : ∀ j, (s.table j).Live → (s.table j).pid < s.nextpid
  law : ∀ w ∈ s.log, w.Law ↔ w.Low

theorem userinit_sound : Sound userinit := by
  have hlive (j : Fin 64) (hj : (userinit.table j).Live) : j = 0 := by
    by_contra hne
    have hzero : userinit.table j = Proc.zero := by simp [userinit, hne]
    rw [hzero] at hj
    obtain h | h | h := hj <;> cases h
  refine ⟨fun i j hi hj _ => (hlive i hi).trans (hlive j hj).symm, fun j hj => ?_, ?_⟩
  · rw [hlive j hj]
    decide
  · intro w hw
    cases hw

section Steps
variable {s : State} (h : Sound s)
include h

theorem Sound.heirs {t : Table} (ht : Heirs s.table t) : Sound { s with table := t } := by
  refine ⟨ht.named h.named, fun j hj => ?_, h.law⟩
  change (t j).pid < s.nextpid
  rw [(ht j hj).2]
  exact h.pids j (ht j hj).1

theorem Sound.wakeup (chan : Chan) : Sound (wakeup chan s) := by
  have hw := wakeup1_sweep h.named chan
  obtain ⟨hnamed, hpids, -⟩ := h.heirs hw.heirs
  refine ⟨hnamed, hpids, fun w hmem => ?_⟩
  obtain hold | hnew := List.mem_append.1 hmem
  · exact h.law w hold
  · exact hw.law w hnew

theorem Sound.update {p : Fin 64} {x : Proc} (hx : x.Live → (s.table p).Live)
    (hpid : x.Live → x.pid = (s.table p).pid) :
    Sound { s with table := Function.update s.table p x } := by
  apply h.heirs
  apply Heirs.update
  exact fun hl => ⟨hx hl, hpid hl⟩

theorem Sound.orphan (r j : Fin 64) : Sound (orphan r s j) := by
  unfold Cfs.orphan
  split
  case isFalse => exact h
  case isTrue =>
    have h' : Sound { s with
        table := Function.update s.table j { s.table j with parent := some 0 } } := by
      apply h.update
      · exact id
      · exact fun _ => rfl
    dsimp only
    split
    · exact h'.wakeup _
    · exact h'

theorem Sound.exit (r : Fin 64) : Sound (exit r s) := by
  have horphans : ∀ (l : List (Fin 64)) (s : State), Sound s →
      Sound (l.foldl (Cfs.orphan r) s) := by
    intro l
    induction l with
    | nil => exact fun _ hs => hs
    | cons j l ih => exact fun s hs => ih _ (hs.orphan r j)
  unfold Cfs.exit
  split
  case isTrue => exact h
  case isFalse =>
    apply Sound.update
    · apply horphans
      split
      · exact h
      · exact h.wakeup _
    · rintro (hl | hl | hl) <;> cases hl
    · rintro (hl | hl | hl) <;> cases hl

theorem Sound.wait (r : Fin 64) (hr : Running s r) : Sound (wait r s) := by
  unfold Cfs.wait
  split
  · apply h.update
    · rintro (hl | hl | hl) <;> cases hl
    · rintro (hl | hl | hl) <;> cases hl
  · split
    · exact h
    · apply h.update
      · exact fun _ => .inr (.inl hr)
      · exact fun _ => rfl

theorem Sound.kill (pid : Int32) : Sound (kill pid s) := by
  unfold Cfs.kill
  split
  · exact h
  · rename_i j _
    split
    case isTrue hj =>
      obtain ⟨hnamed, hpids, -⟩ := h.update (p := j)
        (x := { s.table j with killed := true, state := .runnable })
        (fun _ => .inr (.inr hj)) (fun _ => rfl)
      refine ⟨hnamed, hpids, fun w hmem => ?_⟩
      obtain hold | hnew := List.mem_append.1 hmem
      · exact h.law w hold
      · obtain rfl := List.mem_singleton.1 hnew
        constructor <;> rintro ⟨hk, -⟩ <;> cases hk
    case isFalse =>
      apply h.update
      · exact id
      · exact fun _ => rfl

theorem Sound.setnice (pid : Int32) (nice : ℤ) : Sound (setnice pid nice s) := by
  unfold Cfs.setnice
  split
  · exact h
  · split
    · exact h
    · apply h.update
      · exact id
      · exact fun _ => rfl

theorem Sound.dispatch {p : Fin 64} (hp : (s.table p).state = .runnable) :
    Sound (dispatch p s) := by
  apply h.update
  · exact fun _ => .inl (lowest_spec hp).1
  · exact fun _ => rfl

theorem Sound.fork (r : Fin 64) (ok : Bool) (hn : s.nextpid < Int32.maxValue) :
    Sound (fork r ok s) := by
  have hnext : s.nextpid < s.nextpid + 1 := by
    have hrange := toInt_range s.nextpid
    have h1 : (1 : Int32).toInt = 1 := rfl
    have hn' := Int32.lt_iff_toInt_lt.1 hn
    rw [toInt_maxValue] at hn'
    rw [Int32.lt_iff_toInt_lt, toInt_add_of_range] <;> rw [h1] <;> omega
  have hgrow {j : Fin 64} (hj : (s.table j).Live) : (s.table j).pid < s.nextpid + 1 :=
    Int32.lt_trans (h.pids j hj) hnext
  unfold Cfs.fork
  split
  · exact h
  · rename_i j _
    split
    · refine ⟨fun i k hi hk he => ?_, fun i hi => ?_, h.law⟩
      · by_cases hij : i = j <;> by_cases hkj : k = j <;>
          simp only [hij, hkj, Function.update_self, ne_eq, not_false_eq_true,
            Function.update_of_ne] at hi hk he ⊢
        · exact absurd (h.pids k hk) (he ▸ Int32.lt_irrefl)
        · exact absurd (h.pids i hi) (he ▸ Int32.lt_irrefl)
        · exact h.named i k hi hk he
      · by_cases hij : i = j <;>
          simp only [hij, Function.update_self, ne_eq, not_false_eq_true,
            Function.update_of_ne] at hi ⊢
        · exact hnext
        · exact hgrow hi
    · have hheirs : Heirs s.table (Function.update s.table j
          { s.table j with state := .unused, pid := s.nextpid, priority := ⟨0, by decide⟩ }) := by
        apply Heirs.update
        rintro (hl | hl | hl) <;> cases hl
      obtain ⟨hnamed, -, -⟩ := h.heirs hheirs
      refine ⟨hnamed, fun i hi => ?_, h.law⟩
      exact (hheirs i hi).2 ▸ hgrow (hheirs i hi).1

theorem Sound.yieldCheck (r : Fin 64) : Sound (yieldCheck r s) := by
  unfold Cfs.yieldCheck
  split
  case isTrue hr =>
    apply h.update
    · exact fun _ => .inr (.inl hr.1)
    · exact fun _ => rfl
  case isFalse => exact h

theorem Sound.trapEnd (r : Fin 64) (user : Bool) : Sound (trapEnd r user s) := by
  unfold Cfs.trapEnd
  split
  · exact h.exit r
  · exact h.yieldCheck r

end Steps

theorem overflowHandler_heirs (i : Int32) (t : Table) : Heirs t (overflowHandler i t) := by
  intro j hj
  have hpid : (overflowHandler i t j).pid = (t j).pid := by
    unfold overflowHandler
    split_ifs <;> dsimp only <;> split_ifs <;> rfl
  refine ⟨?_, hpid⟩
  unfold Proc.Live at hj ⊢
  rwa [overflowHandler_state] at hj

theorem chargeLoop_heirs {r : Fin 64} {delta : ℕ} {k : ℕ} {t t' : Table}
    (h : chargeLoop r delta k t = some t') : Heirs t t' := by
  induction k generalizing t with
  | zero => cases h
  | succ k ih =>
    rw [chargeLoop] at h
    split at h
    · exact (overflowHandler_heirs _ t).trans (ih h)
    · cases h
      exact Heirs.refl _

theorem Sound.charge {s : State} (h : Sound s) (r : Fin 64) : Sound (charge r s) := by
  unfold Cfs.charge
  dsimp only
  split
  · exact h
  · rename_i t ht
    apply h.heirs
    apply (chargeLoop_heirs ht).trans
    apply Heirs.update
    exact fun hl => ⟨hl, rfl⟩

/-- The pid counter has not run out. -/
def PidsLeft (s : State) (_ : Op) : Prop := s.nextpid < Int32.maxValue

instance (s : State) (op : Op) : Decidable (PidsLeft s op) := inferInstanceAs (Decidable (_ < _))

theorem step_sound (s : State) (op : Op) (h : Sound s) (hn : PidsLeft s op) :
    Sound (step s op) := by
  cases op with
  | fork r ok =>
    rw [step]
    split
    · exact h.fork r ok hn
    · exact h
  | exit r =>
    rw [step]
    split
    · exact h.exit r
    · exact h
  | wait r =>
    rw [step]
    split
    case isTrue hr => exact h.wait r hr
    case isFalse => exact h
  | sleep r chan =>
    rw [step]
    split
    case isTrue hr =>
      apply h.update
      · exact fun _ => .inr (.inl hr)
      · exact fun _ => rfl
    case isFalse => exact h
  | wakeup chan => exact h.wakeup chan
  | kill pid => exact h.kill pid
  | setnice pid nice => exact h.setnice pid nice
  | dispatch p =>
    rw [step]
    split
    case isTrue hp => exact h.dispatch hp
    case isFalse => exact h
  | tick r user =>
    cases r with
    | none => exact h.wakeup _
    | some r =>
      rw [step]
      split
      · exact ((h.charge r).wakeup _).trapEnd r user
      · exact h
  | otherTick r user =>
    rw [step]
    split
    · exact h.trapEnd r user
    · exact h

section Records
variable {p : Fin 64} {s : State}

/-- The process sleeps, or it has the `vruntime` of a recorded wake-up. -/
def Recorded (p : Fin 64) (s : State) : Prop :=
  (s.table p).state = .sleeping ∨
    ∃ w ∈ s.log, w.proc = p ∧ w.vruntime = (s.table p).vruntime

theorem wakeRound_recorded (chan : Chan) {w : WakeState} {x : Proc} (q : Fin 64)
    (h : w.table p = x ∨ ∃ y ∈ w.log, y.proc = p ∧ y.vruntime = (w.table p).vruntime) :
    (wakeRound chan w q).table p = x ∨ ∃ y ∈ (wakeRound chan w q).log,
      y.proc = p ∧ y.vruntime = ((wakeRound chan w q).table p).vruntime := by
  unfold wakeRound
  split
  case isFalse => exact h
  case isTrue =>
    obtain rfl | hne := eq_or_ne p q
    · right
      refine ⟨_, List.mem_append_right _ (List.mem_singleton_self _), rfl, ?_⟩
      simp [setVruntime]
    · dsimp only
      rw [setVruntime, Function.update_of_ne hne, setState, Function.update_of_ne hne]
      exact h.imp_right fun ⟨y, hy, he⟩ => ⟨y, List.mem_append_left _ hy, he⟩

theorem wakeup1_recorded (chan : Chan) (t : Table) :
    (wakeup1 chan t).table p = t p ∨ ∃ y ∈ (wakeup1 chan t).log,
      y.proc = p ∧ y.vruntime = ((wakeup1 chan t).table p).vruntime := by
  have hfold : ∀ (l : List (Fin 64)) (w : WakeState),
      (w.table p = t p ∨ ∃ y ∈ w.log, y.proc = p ∧ y.vruntime = (w.table p).vruntime) →
      (l.foldl (wakeRound chan) w).table p = t p ∨ ∃ y ∈ (l.foldl (wakeRound chan) w).log,
        y.proc = p ∧ y.vruntime = ((l.foldl (wakeRound chan) w).table p).vruntime := by
    intro l
    induction l with
    | nil => exact fun _ hw => hw
    | cons q l ih => exact fun w hw => ih _ (wakeRound_recorded chan q hw)
  unfold wakeup1
  generalize minOver t (fun _ => true) 0 = m
  apply hfold
  exact .inl rfl

theorem Recorded.wakeup (h : Recorded p s) (chan : Chan) : Recorded p (wakeup chan s) := by
  have hcall := wakeup1_recorded (p := p) chan s.table
  unfold Recorded Cfs.wakeup
  generalize wakeup1 chan s.table = w at hcall ⊢
  dsimp only
  obtain hsame | ⟨y, hy, he⟩ := hcall
  · rw [hsame]
    exact h.imp_right fun ⟨y, hy, he⟩ => ⟨y, List.mem_append_left _ hy, he⟩
  · exact .inr ⟨y, List.mem_append_right _ hy, he⟩

theorem Recorded.update (h : Recorded p s) {q : Fin 64} {x : Proc}
    (hv : x.vruntime = (s.table q).vruntime)
    (hx : (s.table q).state = .sleeping → x.state = .sleeping ∨ p ≠ q) :
    Recorded p { s with table := Function.update s.table q x } := by
  unfold Recorded
  dsimp only
  obtain rfl | hne := eq_or_ne p q
  · rw [Function.update_self]
    obtain h | ⟨y, hy, hp, he⟩ := h
    · exact .inl ((hx h).resolve_right fun hne => hne rfl)
    · exact .inr ⟨y, hy, hp, he.trans hv.symm⟩
  · rw [Function.update_of_ne hne]
    exact h

theorem Recorded.exit (h : Recorded p s) {r : Fin 64} (hne : p ≠ r) :
    Recorded p (exit r s) := by
  have horphan (s : State) (j : Fin 64) (h : Recorded p s) : Recorded p (orphan r s j) := by
    unfold orphan
    split
    · dsimp only
      have h' : Recorded p { s with
          table := Function.update s.table j { s.table j with parent := some 0 } } :=
        h.update rfl .inl
      split
      · exact h'.wakeup _
      · exact h'
    · exact h
  have horphans : ∀ (l : List (Fin 64)) (s : State), Recorded p s →
      Recorded p (l.foldl (orphan r) s) := by
    intro l
    induction l with
    | nil => exact fun _ hs => hs
    | cons j l ih => exact fun s hs => ih _ (horphan s j hs)
  have hzombie {s : State} (hs : Recorded p s) :
      Recorded p { s with table := setState s.table r .zombie } := by
    apply hs.update
    · rfl
    · exact fun _ => .inr hne
  unfold Cfs.exit
  split
  · exact h
  · apply hzombie
    apply horphans
    split
    · exact h
    · exact h.wakeup _

theorem Recorded.trapEnd (h : Recorded p s) {r : Fin 64} (hne : p ≠ r) (user : Bool) :
    Recorded p (trapEnd r user s) := by
  unfold Cfs.trapEnd yieldCheck
  split
  · exact h.exit hne
  · split
    · exact h.update rfl fun _ => .inr hne
    · exact h

theorem find_some {t : Table} {f : Proc → Bool} {j : Fin 64} (h : find t f = some j) :
    f (t j) = true := by
  unfold find at h
  exact List.find?_some (p := fun j => f (t j)) h

theorem charge_state (r : Fin 64) (s : State) (p : Fin 64) :
    ((charge r s).table p).state = (s.table p).state := by
  have hloop {delta k : ℕ} {t t' : Table} (h : chargeLoop r delta k t = some t') :
      (t' p).state = (t p).state := by
    induction k generalizing t with
    | zero => cases h
    | succ k ih =>
      rw [chargeLoop] at h
      split at h
      · rw [ih h, overflowHandler_state]
      · cases h
        rfl
  unfold charge
  dsimp only
  split
  · rfl
  · rename_i t ht
    rw [← hloop ht]
    obtain rfl | hne := eq_or_ne p r
    · simp
    · simp [hne]

/-- A process that sleeps before a step and not after it has the `vruntime` of a wake-up
that is on record. -/
theorem step_recorded (s : State) (op : Op) (hp : (s.table p).state = .sleeping) :
    Recorded p (step s op) := by
  have h : Recorded p s := .inl hp
  have hrun {r : Fin 64} (hr : Running s r) : p ≠ r := by
    rintro rfl
    rw [Running, hp] at hr
    cases hr
  cases op with
  | fork r ok =>
    rw [step]
    split
    · unfold fork
      split
      · exact h
      · rename_i j hj
        have hne : p ≠ j := by
          rintro rfl
          have := find_some hj
          rw [hp] at this
          cases this
        left
        split <;> simpa [hne] using hp
    · exact h
  | exit r =>
    rw [step]
    split
    case isTrue hr => exact h.exit (hrun hr)
    case isFalse => exact h
  | wait r =>
    rw [step]
    split
    case isFalse => exact h
    case isTrue hr =>
      unfold wait
      split
      · apply h.update
        · rfl
        · rename_i j hj
          have := find_some hj
          rw [Bool.and_eq_true, beq_iff_eq, beq_iff_eq] at this
          rw [this.2]
          exact fun h => by cases h
      · split
        · exact h
        · exact h.update rfl fun _ => .inl rfl
  | sleep r chan =>
    rw [step]
    split
    · exact h.update rfl fun _ => .inl rfl
    · exact h
  | wakeup chan => exact h.wakeup chan
  | kill pid =>
    rw [step]
    unfold kill
    split
    · exact h
    · rename_i j _
      split
      · obtain rfl | hne := eq_or_ne p j
        · right
          refine ⟨_, List.mem_append_right _ (List.mem_singleton_self _), rfl, ?_⟩
          simp
        · left
          simpa [hne] using hp
      · exact h.update rfl .inl
  | setnice pid nice =>
    rw [step]
    unfold setnice
    split
    · exact h
    · split
      · exact h
      · exact h.update rfl .inl
  | dispatch q =>
    rw [step]
    split
    · rename_i hq
      apply h.update
      · rfl
      · rw [(lowest_spec hq).1]
        exact fun h => by cases h
    · exact h
  | tick r user =>
    cases r with
    | none => exact h.wakeup _
    | some r =>
      rw [step]
      split
      · rename_i hr
        have hcharge : Recorded p (charge r s) := .inl ((charge_state r s p).trans hp)
        exact (hcharge.wakeup _).trapEnd (hrun hr) user
      · exact h
  | otherTick r user =>
    rw [step]
    split
    · rename_i hr
      exact h.trapEnd (hrun hr) user
    · exact h

end Records

/-- In every run, a process gets the `vruntime` of the law at a wake-up if and only if
`wakeup1` wakes it and, unless there is no other process awake, one of them is not above 0;
and every wake-up is on record. -/
theorem wakeup_law (ops : List Op) (h : Machine.Along step PidsLeft userinit ops) :
    (∀ w ∈ (Machine.run step userinit ops).log, w.Law ↔ w.Low) ∧
      ∀ op p, ((Machine.run step userinit ops).table p).state = .sleeping →
        Recorded p (step (Machine.run step userinit ops) op) :=
  ⟨(Machine.invariant step_sound ops userinit userinit_sound h).law,
    fun op _ hp => step_recorded _ op hp⟩

/-- `initproc` sleeps and is woken while its child has run for one tick. -/
def lateWakeup : List Op :=
  [.dispatch 0, .fork 0 true, .sleep 0 (.other 0), .dispatch 1, .tick (some 1) false,
    .wakeup (.other 0)]

/-- `initproc` sleeps and is killed while its child has run for one tick. -/
def lateKill : List Op :=
  [.dispatch 0, .fork 0 true, .sleep 0 (.other 0), .dispatch 1, .tick (some 1) false, .kill 1]

theorem wakeup_law_lateWakeup :
    (∀ w ∈ (Machine.run step userinit lateWakeup).log, w.Law ↔ w.Low) ∧
      ∀ op p, ((Machine.run step userinit lateWakeup).table p).state = .sleeping →
        Recorded p (step (Machine.run step userinit lateWakeup) op) :=
  wakeup_law lateWakeup (by decide +kernel)

/-- The minimum of `wakeup1` starts at 0, and `kill` leaves `vruntime` alone: a process is
woken below the law by `wakeup1` and above it by `kill`. -/
theorem wakeup_off_law : ¬ ∀ ops, Machine.Along step PidsLeft userinit ops →
    ∀ w ∈ (Machine.run step userinit ops).log, w.Law := by
  intro h
  have hrun : ∃ w ∈ (Machine.run step userinit lateWakeup).log, w.proc = 0 ∧
      w.vruntime.toInt = -1000 ∧ (w.table 0).priority = ⟨0, by decide⟩ ∧ (w.table 1).Awake ∧
      (w.table 1).vruntime.toInt = 1000 ∧
      ∀ j, (w.table j).Awake → 1000 ≤ (w.table j).vruntime.toInt := by
    decide +kernel
  obtain ⟨w, hw, hproc, hv, hpri, hawake, h1, hleast⟩ := hrun
  have hm : IsLeast w.others 1000 := by
    refine ⟨⟨1, by rw [hproc]; decide, hawake, h1.symm⟩, ?_⟩
    rintro _ ⟨j, -, hj, rfl⟩
    exact hleast j hj
  have hlaw := (h lateWakeup (by decide +kernel) w hw).2.2 1000 hm
  rw [hproc, hpri, hv] at hlaw
  exact absurd hlaw (by decide)

theorem kill_keeps : ∃ w ∈ (Machine.run step userinit lateKill).log, w.proc = 0 ∧
    w.vruntime = (w.table 0).vruntime ∧ w.vruntime.toInt = 0 ∧ (w.table 1).Awake ∧
    (w.table 1).vruntime.toInt = 1000 := by
  decide +kernel

end Cfs
