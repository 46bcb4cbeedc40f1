import Coursework.Shell.Pipeline

/-! When a pipeline of the minishell deadlocks: the shell waits for each stage alone, so all
that a stage writes has to fit into its pipe. -/
namespace Shell

variable {S : Type*} {P : Pipeline S} {s : Sys S} {q : ℕ}

section Frames
variable (s) (q) (bytes : List UInt8)

@[simp] theorem setSource_i : (s.setSource q bytes).i = s.i := by
  unfold Sys.setSource; split <;> rfl

@[simp] theorem setSource_point : (s.setSource q bytes).point = s.point := by
  unfold Sys.setSource; split <;> rfl

@[simp] theorem setSource_child : (s.setSource q bytes).child = s.child := by
  unfold Sys.setSource; split <;> rfl

@[simp] theorem setSource_reader : (s.setSource q bytes).reader = s.reader := by
  unfold Sys.setSource; split <;> rfl

@[simp] theorem setSource_writer : (s.setSource q bytes).writer = s.writer := by
  unfold Sys.setSource; split <;> rfl

@[simp] theorem setSource_self : s.setSource q (s.source q) = s := by
  unfold Sys.setSource Sys.source
  split <;> simp

@[simp] theorem setSource_source : (s.setSource q bytes).source q = bytes := by
  unfold Sys.setSource Sys.source
  split <;> simp

theorem setSource_sink {j : ℕ} (hj : q ≤ j) : P.sink (s.setSource q bytes) j = P.sink s j := by
  unfold Pipeline.sink Sys.setSource
  by_cases hq : q = 0
  · rw [if_pos hq]
  · have hne : j ≠ q - 1 := by omega
    rw [if_neg hq]
    dsimp only
    rw [Function.update_of_ne hne]

@[simp] theorem setSink_i : (P.setSink s q bytes).i = s.i := by
  unfold Pipeline.setSink; split <;> rfl

@[simp] theorem setSink_point : (P.setSink s q bytes).point = s.point := by
  unfold Pipeline.setSink; split <;> rfl

@[simp] theorem setSink_child : (P.setSink s q bytes).child = s.child := by
  unfold Pipeline.setSink; split <;> rfl

@[simp] theorem setSink_reader : (P.setSink s q bytes).reader = s.reader := by
  unfold Pipeline.setSink; split <;> rfl

@[simp] theorem setSink_writer : (P.setSink s q bytes).writer = s.writer := by
  unfold Pipeline.setSink; split <;> rfl

@[simp] theorem setSink_sink : P.sink (P.setSink s q bytes) q = bytes := by
  unfold Pipeline.setSink Pipeline.sink
  split <;> simp

theorem setSink_sink_of_lt {j : ℕ} (hj : q < j) (hp : j ≤ P.p_cnt) :
    P.sink (P.setSink s q bytes) j = P.sink s j := by
  unfold Pipeline.setSink Pipeline.sink
  have hq : q < P.p_cnt := by omega
  have hne : j ≠ q := by omega
  simp [hq, hne]

theorem setSink_source : (P.setSink s q bytes).source q = s.source q := by
  unfold Sys.source Pipeline.setSink
  by_cases hq : q < P.p_cnt
  · rw [if_pos hq]
    split
    · rfl
    · have hne : q - 1 ≠ q := by omega
      exact Function.update_of_ne hne _ _
  · rw [if_neg hq]

variable (c : Child S)

@[simp] theorem setChild_i : (s.setChild q c).i = s.i := rfl

@[simp] theorem setChild_point : (s.setChild q c).point = s.point := rfl

@[simp] theorem setChild_child : (s.setChild q c).child q = c := Function.update_self _ _ _

@[simp] theorem setChild_source (j : ℕ) : (s.setChild q c).source j = s.source j := rfl

end Frames

/-- What holds in every reachable state: the stages run one after the other, and what the
current one has written and will write is its output. -/
structure Serial (P : Pipeline S) (out : ℕ → List UInt8) (s : Sys S) : Prop where
  le : s.i ≤ P.p_cnt
  past : ∀ j, j < s.i → s.child j = .exited
  future : ∀ j, s.i < j → s.child j = .unborn
  readable : s.point ≠ .pipe → s.point ≠ .done → s.i < P.p_cnt → s.reader none s.i = true
  closed : s.point = .wait → 0 < s.i → s.writer none (s.i - 1) = false
  others : ∀ j k, j ≠ s.i → s.writer (some j) k = false
  own : ∀ st, s.child s.i = .running st → 0 < s.i → s.writer (some s.i) (s.i - 1) = false
  gone : s.child s.i = .exited → ∀ k, s.writer (some s.i) k = false
  fits : ∀ j, j < s.i → (out j).length ≤ P.capacity
  room : s.i < P.p_cnt → (s.pipe s.i).length ≤ P.capacity
  empty : ∀ j, s.i < j → j ≤ P.p_cnt → P.sink s j = []
  unborn : s.point = .pipe ∨ s.point = .fork ↔ s.child s.i = .unborn
  fresh : s.child s.i = .unborn ∨ s.child s.i = .forked →
    s.source s.i = P.input out s.i ∧ P.sink s s.i = []
  running : ∀ st, s.child s.i = .running st →
    ∃ rest, Runs P.next st (s.source s.i) rest ∧ out s.i = P.sink s s.i ++ rest
  exited : s.child s.i = .exited → P.sink s s.i = out s.i
  done : s.point = .done → s.i = P.p_cnt ∧ s.child s.i = .exited

variable {out : ℕ → List UInt8}

theorem start_serial : Serial P out P.start := by
  have hsink (j : ℕ) : P.sink P.start j = [] := by
    unfold Pipeline.sink Pipeline.start
    split <;> rfl
  refine ⟨Nat.zero_le _, fun j hj => absurd hj (Nat.not_lt_zero j), fun _ _ => rfl, ?_, ?_,
    fun _ _ _ => rfl, ?_, ?_, fun j hj => absurd hj (Nat.not_lt_zero j), fun _ => Nat.zero_le _,
    fun j _ _ => hsink j, ⟨fun _ => rfl, fun _ => .inl rfl⟩, fun _ => ⟨rfl, hsink 0⟩, ?_, ?_, ?_⟩
  · intro h
    exact absurd rfl h
  · intro h
    cases h
  · intro st h
    cases h
  · intro h
    cases h
  · intro st h
    cases h
  · intro h
    cases h
  · intro h
    cases h

section Calls
variable (h : Serial P out s)
include h

theorem Serial.shell_pipe (hp : s.point = .pipe) : Serial P out
    { (if s.i < P.p_cnt then s.setEnds none s.i true else s) with point := .fork } := by
  have hc := h.unborn.1 (.inl hp)
  split
  case isTrue hi =>
    exact { h with
      readable := fun _ _ _ => by simp [Sys.setEnds]
      closed := fun hpt => nomatch hpt
      others := fun j k hj => by simpa [Sys.setEnds] using h.others j k hj
      own := fun st hst => nomatch hc.symm.trans hst
      gone := fun hst => nomatch hc.symm.trans hst
      unborn := ⟨fun _ => hc, fun _ => .inr rfl⟩
      done := fun hpt => nomatch hpt }
  case isFalse hi =>
    exact { h with
      readable := fun _ _ hlt => absurd hlt hi
      closed := fun hpt => nomatch hpt
      unborn := ⟨fun _ => hc, fun _ => .inr rfl⟩
      done := fun hpt => nomatch hpt }

theorem Serial.shell_fork (hp : s.point = .fork) : Serial P out
    { (s.inherit s.i).setChild s.i .forked with point := .close } := by
  have hc := h.unborn.1 (.inr hp)
  have hnew : Function.update s.child s.i .forked s.i = .forked := Function.update_self _ _ _
  exact { h with
    past := fun j hj => (Function.update_of_ne (Nat.ne_of_lt hj) _ _).trans (h.past j hj)
    future := fun j hj => (Function.update_of_ne (Nat.ne_of_gt hj) _ _).trans (h.future j hj)
    readable := fun _ _ hi => by
      have := h.readable (by rw [hp]; decide) (by rw [hp]; decide) hi
      simpa [Sys.inherit, Sys.setChild] using this
    closed := fun hpt => nomatch hpt
    others := fun j k hj => by
      have hne : some j ≠ some s.i := fun he => hj (Option.some.inj he)
      have := h.others j k hj
      simpa [Sys.inherit, Sys.setChild, hne] using this
    own := fun st hst => nomatch hnew.symm.trans hst
    gone := fun hst => nomatch hnew.symm.trans hst
    unborn := iff_of_false (by rintro (hp | hp) <;> cases hp) fun hst => nomatch hnew.symm.trans hst
    fresh := fun _ => h.fresh (.inl hc)
    running := fun st hst => nomatch hnew.symm.trans hst
    exited := fun hst => nomatch hnew.symm.trans hst
    done := fun hpt => nomatch hpt }

theorem Serial.shell_close (hp : s.point = .close) : Serial P out
    { (if 0 < s.i then s.setEnds none (s.i - 1) false else s) with point := .wait } := by
  have hborn : s.child s.i ≠ .unborn := fun hc => by
    obtain h' | h' := h.unborn.2 hc <;> rw [hp] at h' <;> cases h'
  have hread (hi : s.i < P.p_cnt) : s.reader none s.i = true :=
    h.readable (by rw [hp]; decide) (by rw [hp]; decide) hi
  split
  case isTrue hi =>
    have hne : s.i ≠ s.i - 1 := by omega
    exact { h with
      readable := fun _ _ hlt => by simpa [Sys.setEnds, hne] using hread hlt
      closed := fun _ _ => by simp [Sys.setEnds]
      others := fun j k hj => by simpa [Sys.setEnds] using h.others j k hj
      own := fun st hst hlt => by simpa [Sys.setEnds] using h.own st hst hlt
      gone := fun hst k => by simpa [Sys.setEnds] using h.gone hst k
      unborn := iff_of_false (by rintro (hp | hp) <;> cases hp) hborn
      done := fun hpt => nomatch hpt }
  case isFalse hi =>
    exact { h with
      readable := fun _ _ hlt => hread hlt
      closed := fun _ hlt => absurd hlt hi
      unborn := iff_of_false (by rintro (hp | hp) <;> cases hp) hborn
      done := fun hpt => nomatch hpt }

/-- The wait of the shell ends, and the next stage finds the whole output of this one. -/
theorem Serial.shell_next (hc : s.child s.i = .exited) (hi : s.i < P.p_cnt) :
    Serial P out { s with i := s.i + 1, point := .pipe } := by
  have hpipe : s.pipe s.i = out s.i := by
    have := h.exited hc
    rwa [Pipeline.sink, if_pos hi] at this
  have hnew : s.child (s.i + 1) = .unborn := h.future _ (Nat.lt_succ_self _)
  have hempty : P.sink s (s.i + 1) = [] := h.empty _ (Nat.lt_succ_self _) hi
  exact { h with
    le := hi
    past := fun j hj => by
      obtain hj | rfl := Nat.lt_succ_iff_lt_or_eq.1 hj
      · exact h.past j hj
      · exact hc
    future := fun j hj => h.future j (Nat.lt_of_succ_lt hj)
    readable := fun hpt => absurd rfl hpt
    closed := fun hpt => nomatch hpt
    others := fun j k hj => by
      obtain rfl | hne := eq_or_ne j s.i
      · exact h.gone hc k
      · exact h.others j k hne
    own := fun st hst => nomatch hnew.symm.trans hst
    gone := fun hst => nomatch hnew.symm.trans hst
    fits := fun j hj => by
      obtain hj | rfl := Nat.lt_succ_iff_lt_or_eq.1 hj
      · exact h.fits j hj
      · rw [← hpipe]
        exact h.room hi
    room := fun hlt => by
      rw [Pipeline.sink, if_pos hlt] at hempty
      change (s.pipe (s.i + 1)).length ≤ _
      rw [hempty]
      exact Nat.zero_le _
    empty := fun j hj => h.empty j (Nat.lt_of_succ_lt hj)
    unborn := ⟨fun _ => hnew, fun _ => .inl rfl⟩
    fresh := fun _ => ⟨hpipe, hempty⟩
    running := fun st hst => nomatch hnew.symm.trans hst
    exited := fun hst => nomatch hnew.symm.trans hst
    done := fun hpt => nomatch hpt }

theorem Serial.shell_done (hc : s.child s.i = .exited) (hi : ¬s.i < P.p_cnt) :
    Serial P out { s with point := .done } :=
  { h with
    readable := fun _ hpt => absurd rfl hpt
    closed := fun hpt => nomatch hpt
    unborn := iff_of_false (by rintro (hp | hp) <;> cases hp) fun hst => nomatch hc.symm.trans hst
    done := fun _ => ⟨Nat.le_antisymm h.le (Nat.le_of_not_lt hi), hc⟩ }

/-- A step of the current stage that leaves everything else as it is. -/
theorem Serial.stage (s' : Sys S) (c : Child S) (hi : s'.i = s.i) (hpt : s'.point = s.point)
    (hborn : s.child s.i ≠ .unborn) (hlive : s.child s.i ≠ .exited)
    (hchild : s'.child = Function.update s.child s.i c) (hc : c ≠ .unborn ∧ c ≠ .forked)
    (hreader : s'.reader none = s.reader none) (hwriter : s'.writer none = s.writer none)
    (hothers : ∀ j, j ≠ s.i → s'.writer (some j) = s.writer (some j))
    (hsink : ∀ j, s.i < j → j ≤ P.p_cnt → P.sink s' j = P.sink s j)
    (hroom : s.i < P.p_cnt → (s'.pipe s.i).length ≤ P.capacity)
    (hown : ∀ st, c = .running st → 0 < s.i → s'.writer (some s.i) (s.i - 1) = false)
    (hgone : c = .exited → ∀ k, s'.writer (some s.i) k = false)
    (hrunning : ∀ st, c = .running st →
      ∃ rest, Runs P.next st (s'.source s.i) rest ∧ out s.i = P.sink s' s.i ++ rest)
    (hexited : c = .exited → P.sink s' s.i = out s.i) : Serial P out s' := by
  have hnew : s'.child s.i = c := by rw [hchild, Function.update_self]
  have hold (j : ℕ) (hj : j ≠ s.i) : s'.child j = s.child j := by
    rw [hchild, Function.update_of_ne hj]
  constructor <;> rw [hi]
  · exact h.le
  · exact fun j hj => (hold j (Nat.ne_of_lt hj)).trans (h.past j hj)
  · exact fun j hj => (hold j (Nat.ne_of_gt hj)).trans (h.future j hj)
  · rw [hpt, hreader]
    exact h.readable
  · rw [hpt, hwriter]
    exact h.closed
  · intro j k hj
    rw [hothers j hj]
    exact h.others j k hj
  · rw [hnew]
    exact hown
  · rw [hnew]
    exact hgone
  · exact h.fits
  · exact hroom
  · intro j hj hp
    rw [hsink j hj hp]
    exact h.empty j hj hp
  · rw [hpt, hnew]
    exact iff_of_false (fun hp => hborn (h.unborn.1 hp)) hc.1
  · rw [hnew]
    rintro (he | he)
    · exact absurd he hc.1
    · exact absurd he hc.2
  · rw [hnew]
    exact hrunning
  · rw [hnew]
    exact hexited
  · rw [hpt]
    exact fun hp => absurd (h.done hp).2 hlive

theorem Serial.current {q : ℕ} (hu : s.child q ≠ .unborn) (he : s.child q ≠ .exited) :
    q = s.i := by
  obtain hlt | heq | hgt := Nat.lt_trichotomy q s.i
  · exact absurd (h.past q hlt) he
  · exact heq
  · exact absurd (h.future q hgt) hu

theorem Serial.hasReader {st : S} (hst : s.child s.i = .running st) (hi : s.i < P.p_cnt) :
    P.hasReader s s.i = true := by
  have hpipe : s.point ≠ .pipe := fun hp => nomatch (h.unborn.1 (.inl hp)).symm.trans hst
  have hdone : s.point ≠ .done := fun hp => nomatch (h.done hp).2.symm.trans hst
  unfold Pipeline.hasReader
  rw [h.readable hpipe hdone hi, Bool.true_or]

theorem Serial.no_writer {st : S} (hst : s.child s.i = .running st) (hw : s.point = .wait)
    (hi : 0 < s.i) : P.hasWriter s (s.i - 1) = false := by
  unfold Pipeline.hasWriter
  rw [h.closed hw hi, Bool.false_or, List.any_eq_false]
  intro j _
  obtain rfl | hne := eq_or_ne j s.i
  · rw [h.own st hst hi]
    exact Bool.false_ne_true
  · rw [h.others j _ hne]
    exact Bool.false_ne_true

theorem Serial.setup (hruns : Runs P.next (P.stages s.i) (P.input out s.i) (out s.i))
    (hc : s.child s.i = .forked) : Serial P out (P.setup s s.i) := by
  obtain ⟨hsource, hsink⟩ := h.fresh (.inr hc)
  apply h.stage (P.setup s s.i) (.running (P.stages s.i)) rfl rfl _ _ rfl
    ⟨nofun, nofun⟩ _ _ _ _ h.room
  · intro st _ hi
    have hprev : s.i - 1 + 1 = s.i := by omega
    simp [Pipeline.setup, hi, hprev]
  · exact fun he => nomatch he
  · intro st hst
    cases hst
    refine ⟨out s.i, hsource.symm ▸ hruns, ?_⟩
    change out s.i = P.sink s s.i ++ out s.i
    rw [hsink, List.nil_append]
  · exact fun he => nomatch he
  · rw [hc]
    exact nofun
  · rw [hc]
    exact nofun
  · simp [Pipeline.setup]
  · simp [Pipeline.setup]
  · intro j hj
    have hne : some j ≠ some s.i := fun he => hj (Option.some.inj he)
    simp [Pipeline.setup, hne]
  · exact fun j _ _ => rfl

theorem Serial.exitChild {st : S} (hc : s.child s.i = .running st)
    (hout : P.sink s s.i = out s.i) : Serial P out (s.exitChild s.i) := by
  apply h.stage (s.exitChild s.i) .exited rfl rfl _ _ rfl ⟨nofun, nofun⟩ _ _ _ _ h.room
  · exact nofun
  · intro _ k
    simp [Sys.exitChild]
  · exact nofun
  · exact fun _ => hout
  · rw [hc]
    exact nofun
  · rw [hc]
    exact nofun
  · simp [Sys.exitChild]
  · simp [Sys.exitChild]
  · intro j hj
    have hne : some j ≠ some s.i := fun he => hj (Option.some.inj he)
    simp [Sys.exitChild, hne]
  · exact fun j _ _ => rfl

/-- A stage takes a byte of its input, or sees its end. -/
theorem Serial.input {st st' : S} (hc : s.child s.i = .running st) {bytes rest : List UInt8}
    (hruns : Runs P.next st' bytes rest) (hout : out s.i = P.sink s s.i ++ rest) :
    Serial P out ((s.setSource s.i bytes).setChild s.i (.running st')) := by
  have hsink (j : ℕ) (hj : s.i ≤ j) :
      P.sink ((s.setSource s.i bytes).setChild s.i (.running st')) j = P.sink s j :=
    setSource_sink s s.i bytes hj
  apply h.stage ((s.setSource s.i bytes).setChild s.i (.running st')) (.running st')
    (setSource_i s s.i bytes) (setSource_point s s.i bytes) _ _ _ ⟨nofun, nofun⟩ _ _ _
    (fun j hj _ => hsink j (Nat.le_of_lt hj))
  · intro hi
    have := hsink s.i (Nat.le_refl _)
    rw [Pipeline.sink, Pipeline.sink, if_pos hi, if_pos hi] at this
    rw [this]
    exact h.room hi
  · intro _ _ hi
    simpa [Sys.setChild] using h.own st hc hi
  · exact nofun
  · intro _ he
    cases he
    refine ⟨rest, ?_, by rw [hsink s.i (Nat.le_refl _), hout]⟩
    have hsource : ((s.setSource s.i bytes).setChild s.i (.running st')).source s.i = bytes :=
      setSource_source s s.i bytes
    rwa [hsource]
  · exact nofun
  · rw [hc]
    exact nofun
  · rw [hc]
    exact nofun
  · simp [Sys.setChild]
  · simp [Sys.setChild]
  · simp [Sys.setChild]
  · intro j _
    simp [Sys.setChild]

/-- A stage writes a byte for which there is room. -/
theorem Serial.output {st st' : S} (hc : s.child s.i = .running st) {b : UInt8}
    {rest : List UInt8} (hruns : Runs P.next st' (s.source s.i) rest)
    (hout : out s.i = P.sink s s.i ++ b :: rest)
    (hroom : s.i < P.p_cnt → (s.pipe s.i).length < P.capacity) : Serial P out
      ((P.setSink s s.i (P.sink s s.i ++ [b])).setChild s.i (.running st')) := by
  have hsink : P.sink ((P.setSink s s.i (P.sink s s.i ++ [b])).setChild s.i (.running st')) s.i =
      P.sink s s.i ++ [b] := setSink_sink s s.i _
  apply h.stage ((P.setSink s s.i (P.sink s s.i ++ [b])).setChild s.i (.running st'))
    (.running st') (setSink_i s s.i _) (setSink_point s s.i _) _ _ _ ⟨nofun, nofun⟩ _ _ _
    (fun j hj hp => setSink_sink_of_lt s s.i _ hj hp)
  · intro hi
    have hold : P.sink s s.i = s.pipe s.i := if_pos hi
    have hnew : ((P.setSink s s.i (P.sink s s.i ++ [b])).setChild s.i (.running st')).pipe s.i =
        P.sink s s.i ++ [b] := (if_pos hi).symm.trans hsink
    rw [hnew, hold, List.length_append, List.length_singleton]
    exact hroom hi
  · intro _ _ hi
    simpa [Sys.setChild] using h.own st hc hi
  · exact nofun
  · intro _ he
    cases he
    refine ⟨rest, ?_, by rw [hsink, hout, List.append_assoc]; rfl⟩
    have hsource : ((P.setSink s s.i (P.sink s s.i ++ [b])).setChild s.i
        (.running st')).source s.i = s.source s.i := setSink_source s s.i _
    rwa [hsource]
  · exact nofun
  · rw [hc]
    exact nofun
  · rw [hc]
    exact nofun
  · simp [Sys.setChild]
  · simp [Sys.setChild]
  · simp [Sys.setChild]
  · intro j _
    simp [Sys.setChild]

end Calls

/-- Every stage of the pipeline runs to its end on what the stage before it wrote. -/
def Pipeline.Finite (P : Pipeline S) (out : ℕ → List UInt8) : Prop :=
  ∀ q, q ≤ P.p_cnt → Runs P.next (P.stages q) (P.input out q) (out q)

theorem Serial.move (h : Serial P out s) (hruns : P.Finite out) {p : Option ℕ} {s' : Sys S}
    (hm : P.move s p = some s') : Serial P out s' := by
  cases p with
  | none =>
    unfold Pipeline.move Pipeline.moveShell at hm
    dsimp only at hm
    split at hm
    · rename_i hp
      cases hm
      exact h.shell_pipe hp
    · rename_i hp
      cases hm
      exact h.shell_fork hp
    · rename_i hp
      cases hm
      exact h.shell_close hp
    · split at hm
      case isTrue he =>
        have hc : s.child s.i = .exited := by
          unfold Child.isExited at he
          split at he
          · assumption
          · cases he
        split at hm
        · cases hm
          exact h.shell_next hc ‹_›
        · cases hm
          exact h.shell_done hc ‹_›
      case isFalse => cases hm
    · cases hm
  | some q =>
    unfold Pipeline.move at hm
    dsimp only at hm
    cases hc : s.child q with
    | unborn =>
      rw [hc] at hm
      cases hm
    | exited =>
      rw [hc] at hm
      cases hm
    | forked =>
      obtain rfl : q = s.i := h.current (by rw [hc]; exact nofun) (by rw [hc]; exact nofun)
      rw [hc] at hm
      cases hm
      exact h.setup (hruns s.i h.le) hc
    | running st =>
      obtain rfl : q = s.i := h.current (by rw [hc]; exact nofun) (by rw [hc]; exact nofun)
      rw [hc] at hm
      dsimp only at hm
      obtain ⟨rest, hrest, hout⟩ := h.running st hc
      generalize hsource : s.source s.i = bytes at hrest
      cases hrest with
      | exit hn =>
        rw [hn] at hm
        cases hm
        exact h.exitChild hc (by rw [hout, List.append_nil])
      | read hn hk =>
        rw [hn, Pipeline.moveStage, hsource] at hm
        cases hm
        exact h.input hc hk hout
      | eof hn hk =>
        rw [hn, Pipeline.moveStage, hsource] at hm
        dsimp only at hm
        split at hm
        · cases hm
        · cases hm
          have hsame : s.setSource s.i [] = s := hsource ▸ setSource_self s s.i
          have := h.input hc hk hout
          rwa [hsame] at this
      | write hn hk =>
        rw [hn, Pipeline.moveStage] at hm
        split at hm
        case isTrue hpipe => exact absurd (h.hasReader hc hpipe.1) hpipe.2
        case isFalse =>
          split at hm
          case isTrue => cases hm
          case isFalse hfull =>
            cases hm
            subst hsource
            exact h.output hc hk hout fun hi => Nat.lt_of_not_le fun hle => hfull ⟨hi, hle⟩

theorem reachable_serial (hruns : P.Finite out) (hs : P.Reachable s) : Serial P out s := by
  induction hs with
  | refl => exact start_serial
  | tail _ hstep ih =>
    obtain ⟨p, hp⟩ := hstep
    exact ih.move hruns hp

/-- In a deadlock the shell waits for a stage that writes to its full pipe. -/
theorem Serial.full (h : Serial P out s) (hd : P.Deadlocked s) :
    s.i < P.p_cnt ∧ P.capacity < (out s.i).length := by
  obtain ⟨⟨p, hp⟩, hblocked⟩ := hd
  have hpoint : s.point = .wait ∧ s.child s.i ≠ .exited := by
    have hshell : s.point ≠ .done := by
      intro hdone
      cases p with
      | none => exact hp hdone
      | some q =>
        have hborn : s.child q ≠ .unborn ∧ s.child q ≠ .exited := by
          obtain hc | ⟨st, hc⟩ := hp <;> rw [hc] <;> exact ⟨nofun, nofun⟩
        obtain rfl := h.current hborn.1 hborn.2
        exact hborn.2 (h.done hdone).2
    have hmove := hblocked none hshell
    unfold Pipeline.move Pipeline.moveShell at hmove
    dsimp only at hmove
    split at hmove
    · cases hmove
    · cases hmove
    · cases hmove
    · rename_i hwait
      refine ⟨hwait, fun hc => ?_⟩
      rw [hc, Child.isExited, if_pos rfl] at hmove
      split at hmove <;> cases hmove
    · rename_i hdone
      exact absurd hdone hshell
  obtain ⟨hwait, hlive⟩ := hpoint
  cases hc : s.child s.i with
  | unborn =>
    obtain h' | h' := h.unborn.2 hc <;> rw [hwait] at h' <;> cases h'
  | exited => exact absurd hc hlive
  | forked =>
    have hmove := hblocked (some s.i) (.inl hc)
    unfold Pipeline.move at hmove
    dsimp only at hmove
    rw [hc] at hmove
    cases hmove
  | running st =>
    have hmove := hblocked (some s.i) (.inr ⟨st, hc⟩)
    unfold Pipeline.move at hmove
    dsimp only at hmove
    rw [hc] at hmove
    dsimp only at hmove
    obtain ⟨rest, hrest, hout⟩ := h.running st hc
    generalize hsource : s.source s.i = bytes at hrest
    cases hrest with
    | exit hn =>
      rw [hn] at hmove
      cases hmove
    | read hn hk =>
      rw [hn, Pipeline.moveStage, hsource] at hmove
      cases hmove
    | eof hn hk =>
      rw [hn, Pipeline.moveStage, hsource] at hmove
      dsimp only at hmove
      rw [if_neg] at hmove
      · cases hmove
      · rintro ⟨hi, hw⟩
        rw [h.no_writer hc hwait hi] at hw
        cases hw
    | write hn hk =>
      rw [hn, Pipeline.moveStage, if_neg fun hpipe => hpipe.2 (h.hasReader hc hpipe.1)] at hmove
      split at hmove
      case isTrue hfull =>
        refine ⟨hfull.1, ?_⟩
        rw [hout, show P.sink s s.i = s.pipe s.i from if_pos hfull.1, List.length_append,
          List.length_cons]
        omega
      case isFalse => cases hmove

/-- A stage that is about to write to its full pipe while the shell waits is a deadlock. -/
theorem Serial.deadlocked (h : Serial P out s) (hwait : s.point = .wait) {st st' : S}
    (hc : s.child s.i = .running st) {b : UInt8} (hn : P.next st = .write b st')
    (hi : s.i < P.p_cnt) (hfull : P.capacity ≤ (s.pipe s.i).length) : P.Deadlocked s := by
  refine ⟨⟨none, by rw [Sys.Unfinished, hwait]; decide⟩, fun p hp => ?_⟩
  cases p with
  | none =>
    unfold Pipeline.move Pipeline.moveShell
    dsimp only
    rw [hwait, hc]
    rfl
  | some q =>
    have hborn : s.child q ≠ .unborn ∧ s.child q ≠ .exited := by
      obtain hc | ⟨st, hc⟩ := hp <;> rw [hc] <;> exact ⟨nofun, nofun⟩
    obtain rfl := h.current hborn.1 hborn.2
    unfold Pipeline.move
    dsimp only
    rw [hc]
    dsimp only
    rw [hn, Pipeline.moveStage, if_neg fun hpipe => hpipe.2 (h.hasReader hc hpipe.1),
      if_pos ⟨hi, hfull⟩]

theorem Pipeline.Reachable.step (hr : P.Reachable s) {p : Option ℕ} {s' : Sys S}
    (hm : P.move s p = some s') : P.Reachable s' := hr.tail ⟨p, hm⟩

theorem move_running {st : S} (hc : s.child q = .running st) :
    P.move s (some q) = P.moveStage s q (P.next st) := by
  unfold Pipeline.move
  dsimp only
  rw [hc]

/-- The stage for which the shell waits exits, or there is a deadlock. -/
theorem stage_ends (hruns : P.Finite out) {i : ℕ} {st : S} {bytes rest : List UInt8}
    (hrest : Runs P.next st bytes rest) (hr : P.Reachable s) (hi : s.i = i)
    (hwait : s.point = .wait) (hc : s.child i = .running st) (hsource : s.source i = bytes) :
    ∃ s', P.Reachable s' ∧ (P.Deadlocked s' ∨
      s'.i = i ∧ s'.point = .wait ∧ s'.child i = .exited) := by
  induction hrest generalizing s with
  | exit hn =>
    have hmove := move_running (P := P) hc
    rw [hn] at hmove
    refine ⟨s.exitChild i, hr.step hmove, .inr ⟨hi, hwait, ?_⟩⟩
    simp [Sys.exitChild]
  | read hn _ ih =>
    have hmove := move_running (P := P) hc
    rw [hn, Pipeline.moveStage, hsource] at hmove
    apply ih (hr.step hmove)
    · simpa using hi
    · simpa using hwait
    · simp
    · simp
  | eof hn _ ih =>
    have hmove := move_running (P := P) hc
    rw [hn, Pipeline.moveStage, hsource] at hmove
    dsimp only at hmove
    rw [if_neg] at hmove
    · apply ih (hr.step hmove)
      · simpa using hi
      · simpa using hwait
      · simp
      · simpa using hsource
    · subst hi
      rintro ⟨hlt, hw⟩
      rw [(reachable_serial hruns hr).no_writer hc hwait hlt] at hw
      cases hw
  | write hn _ ih =>
    have h := reachable_serial hruns hr
    subst hi
    by_cases hfull : s.i < P.p_cnt ∧ P.capacity ≤ (s.pipe s.i).length
    · exact ⟨s, hr, .inl (h.deadlocked hwait hc hn hfull.1 hfull.2)⟩
    · have hmove := move_running (P := P) hc
      rw [hn, Pipeline.moveStage, if_neg fun hpipe => hpipe.2 (h.hasReader hc hpipe.1),
        if_neg hfull] at hmove
      apply ih (hr.step hmove)
      · simp
      · simpa using hwait
      · simp
      · rw [setChild_source, setSink_source, hsource]

/-- In a round, the shell forks a stage and waits for it. -/
theorem round_forks (hr : P.Reachable s) (hp : s.point = .pipe) :
    ∃ s', P.Reachable s' ∧ s'.i = s.i ∧ s'.point = .wait ∧ s'.child s.i = .forked := by
  obtain ⟨s₁, hs₁⟩ : ∃ s₁, s₁ = { (if s.i < P.p_cnt then s.setEnds none s.i true else s) with
      point := Point.fork } := ⟨_, rfl⟩
  have hi₁ : s₁.i = s.i := by
    rw [hs₁]
    dsimp only
    split <;> rfl
  have hr₁ : P.Reachable s₁ := by
    apply hr.step (p := none)
    unfold Pipeline.move Pipeline.moveShell
    dsimp only
    rw [hp, hs₁]
  obtain ⟨s₂, hs₂⟩ : ∃ s₂, s₂ = { (s₁.inherit s₁.i).setChild s₁.i .forked with
      point := Point.close } := ⟨_, rfl⟩
  have hi₂ : s₂.i = s.i := by
    rw [hs₂]
    exact hi₁
  have hc₂ : s₂.child s.i = .forked := by
    rw [hs₂, ← hi₁]
    exact Function.update_self _ _ _
  have hr₂ : P.Reachable s₂ := by
    apply hr₁.step (p := none)
    unfold Pipeline.move Pipeline.moveShell
    dsimp only
    rw [show s₁.point = .fork by rw [hs₁], hs₂]
  refine ⟨{ (if 0 < s₂.i then s₂.setEnds none (s₂.i - 1) false else s₂) with point := .wait },
    hr₂.step (p := none) ?_, ?_, rfl, ?_⟩
  · unfold Pipeline.move Pipeline.moveShell
    dsimp only
    rw [show s₂.point = .close by rw [hs₂]]
  · dsimp only
    split <;> exact hi₂
  · dsimp only
    split <;> exact hc₂

theorem move_wait (hwait : s.point = .wait) (hc : s.child s.i = .exited) : P.move s none =
    if s.i < P.p_cnt then some { s with i := s.i + 1, point := .pipe }
    else some { s with point := .done } := by
  unfold Pipeline.move Pipeline.moveShell
  dsimp only
  rw [hwait]
  dsimp only
  rw [hc]
  exact if_pos rfl

theorem round_ends (hruns : P.Finite out) (hr : P.Reachable s) (hp : s.point = .pipe) :
    ∃ s', P.Reachable s' ∧ (P.Deadlocked s' ∨
      s'.i = s.i ∧ s'.point = .wait ∧ s'.child s.i = .exited) := by
  obtain ⟨s', hr', hi, hwait, hc⟩ := round_forks hr hp
  rw [← hi] at hc ⊢
  have h := reachable_serial hruns hr'
  have hsetup : P.move s' (some s'.i) = some (P.setup s' s'.i) := by
    unfold Pipeline.move
    dsimp only
    rw [hc]
  apply stage_ends hruns (hruns s'.i h.le) (hr'.step hsetup) rfl hwait
  · exact Function.update_self _ _ _
  · exact (h.fresh (.inr hc)).1

theorem shell_ends (hruns : P.Finite out) (n : ℕ) (hr : P.Reachable s) (hp : s.point = .pipe)
    (hn : s.i + n = P.p_cnt) : ∃ s', P.Reachable s' ∧ (P.Deadlocked s' ∨ s'.point = .done) := by
  induction n generalizing s with
  | zero =>
    obtain ⟨s', hr', hd | ⟨hi, hwait, hc⟩⟩ := round_ends hruns hr hp
    · exact ⟨s', hr', .inl hd⟩
    · refine ⟨{ s' with point := .done }, hr'.step (p := none) ?_, .inr rfl⟩
      have hlast : ¬s'.i < P.p_cnt := by omega
      rw [move_wait hwait (hi ▸ hc), if_neg hlast]
  | succ n ih =>
    obtain ⟨s', hr', hd | ⟨hi, hwait, hc⟩⟩ := round_ends hruns hr hp
    · exact ⟨s', hr', .inl hd⟩
    · have hlt : s'.i < P.p_cnt := by omega
      apply ih (s := { s' with i := s'.i + 1, point := .pipe }) (hr'.step (p := none) ?_) rfl
      · dsimp only
        omega
      · rw [move_wait hwait (hi ▸ hc), if_pos hlt]

/-- A pipeline of programs that end can deadlock if and only if some stage before the last one
writes more than a pipe holds. -/
theorem pipeline_deadlock_free (P : Pipeline S) (out : ℕ → List UInt8) (hruns : P.Finite out) :
    (∀ s, P.Reachable s → ¬P.Deadlocked s) ↔
      ∀ q, q < P.p_cnt → (out q).length ≤ P.capacity := by
  constructor
  · intro hfree q hq
    obtain ⟨s, hr, hd | hdone⟩ :=
      shell_ends hruns P.p_cnt (s := P.start) .refl rfl (Nat.zero_add _)
    · exact absurd hd (hfree s hr)
    · have h := reachable_serial hruns hr
      exact h.fits q (by rw [(h.done hdone).1]; exact hq)
  · intro hfits s hr hd
    obtain ⟨hi, hfull⟩ := (reachable_serial hruns hr).full hd
    exact absurd (hfits s.i hi) (Nat.not_le_of_lt hfull)

/-- The states of `cat`: it reads a byte, writes a byte, or stops at the end of its input. -/
inductive Cat where
  | read
  | write (b : UInt8)
  | stop

def Cat.next : Cat → Action Cat
  | read => .read fun
    | some b => write b
    | none => stop
  | write b => .write b read
  | stop => .exit

theorem cat_runs (bytes : List UInt8) : Runs Cat.next .read bytes bytes := by
  induction bytes with
  | nil => exact .eof rfl (.exit rfl)
  | cons b bytes ih => exact .read rfl (.write rfl ih)

/-- `cat | cat` on a file of some length, with pipes of 65536 bytes. -/
def catCat (n : ℕ) : Pipeline Cat := ⟨Cat.next, fun _ => .read, 1, 65536, List.replicate n 0⟩

theorem catCat_finite (n : ℕ) : (catCat n).Finite fun _ => List.replicate n 0 := by
  intro q _
  unfold Pipeline.input
  split
  · exact cat_runs _
  · exact cat_runs _

theorem pipeline_deadlock_free_catCat :
    (∀ s, (catCat 3).Reachable s → ¬(catCat 3).Deadlocked s) ↔
      ∀ q, q < (catCat 3).p_cnt →
        (List.replicate 3 (0 : UInt8)).length ≤ (catCat 3).capacity :=
  pipeline_deadlock_free (catCat 3) (fun _ => List.replicate 3 0) (catCat_finite 3)

/-- `cat | cat` deadlocks on a file that is one byte longer than a pipe. -/
theorem catCat_deadlocks : ¬ ∀ (P : Pipeline Cat) (out : ℕ → List UInt8), P.Finite out →
    ∀ s, P.Reachable s → ¬P.Deadlocked s := by
  intro h
  have hfinite := catCat_finite 65537
  obtain ⟨s, hr, hd | hdone⟩ :=
    shell_ends hfinite (catCat 65537).p_cnt (s := (catCat 65537).start) .refl rfl rfl
  · exact h _ _ hfinite s hr hd
  · have hs := reachable_serial hfinite hr
    have hlen := hs.fits 0 (by rw [(hs.done hdone).1]; exact Nat.one_pos)
    rw [List.length_replicate] at hlen
    exact absurd hlen (by decide)

end Shell
