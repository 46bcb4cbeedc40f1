import Coursework.Shell.Scan

/-! The lines on which the minishell stays inside its arrays and uses no null pointer and no
variable that is not set. -/
namespace Shell

/-- The string in a buffer that `fgets` has filled. -/
def cString (line : List UInt8) : List UInt8 := line.takeWhile (· ≠ 0)

/-- `eval` has no fault, whatever the system answers. -/
def Safe (line : List UInt8) : Prop := ∀ answers, eval answers (cString line) = .ok ()

/-- Stages start with an ordinary word, and a redirection is not the last token. -/
def WellPlaced (ts : List Word) : Prop :=
  (∃ w, ts.head? = some w ∧ isOrdinary w = true) ∧
    (∀ k : ℕ, ts[k]? = some pipe → ∃ w, ts[k + 1]? = some w ∧ isOrdinary w = true) ∧
      ts.getLast? ≠ some less ∧ ts.getLast? ≠ some greater ∧ ts.getLast? ≠ some append

/-- A line of 1 to 127 tokens that is a builtin command or has its operators well placed. -/
def LineOk (ts : List Word) : Prop :=
  ts ≠ [] ∧ ts.length ≤ 127 ∧
    (ts.head? = some exitWord ∨ ts.head? = some cdWord ∨ WellPlaced ts)

section Lists
variable {α : Type}

theorem exists_last_split {p : α → Prop} {l : List α} (h : ∃ x ∈ l, p x) :
    ∃ a x b, l = a ++ x :: b ∧ p x ∧ ∀ y ∈ b, ¬p y := by
  induction l with
  | nil => simp at h
  | cons c l ih =>
    by_cases hl : ∃ x ∈ l, p x
    · obtain ⟨a, x, b, rfl, hx, hb⟩ := ih hl
      exact ⟨c :: a, x, b, rfl, hx, hb⟩
    · obtain ⟨x, hx, hp⟩ := h
      obtain rfl | hx := List.mem_cons.1 hx
      · exact ⟨[], x, l, rfl, hp, fun y hy hpy => hl ⟨y, hy, hpy⟩⟩
      · exact absurd ⟨x, hx, hp⟩ hl

theorem split_of_lt_count [BEq α] [LawfulBEq α] {x : α} {l : List α} {k : ℕ}
    (h : k < l.count x) : ∃ a b, l = a ++ x :: b ∧ a.count x = k := by
  induction l generalizing k with
  | nil => simp at h
  | cons c l ih =>
    by_cases hc : c = x
    · subst hc
      cases k with
      | zero => exact ⟨[], l, rfl, rfl⟩
      | succ k =>
        rw [List.count_cons_self] at h
        obtain ⟨a, b, rfl, hcount⟩ := ih (Nat.lt_of_succ_lt_succ h)
        exact ⟨c :: a, b, rfl, by rw [List.count_cons_self, hcount]⟩
    · rw [List.count_cons_of_ne hc] at h
      obtain ⟨a, b, rfl, hcount⟩ := ih h
      exact ⟨c :: a, b, rfl, by rw [List.count_cons_of_ne hc, hcount]⟩

end Lists

section Steps
variable {α β : Type}

theorem bind_eq_ok {x : Except Fault α} {f : α → Except Fault β} {v : β}
    (h : (x >>= f) = .ok v) : ∃ u, x = .ok u ∧ f u = .ok v := by
  cases x with
  | ok u => exact ⟨u, rfl, h⟩
  | error e => cases h

theorem fetch_eq_ok {x : Option α} {v : α} (h : fetch x = .ok v) : x = some v := by
  cases x with
  | none => cases h
  | some u => rw [Except.ok.inj h]

theorem load_eq_ok {a : Entries α} {i : ℕ} {v : α} (h : load a i = .ok v) : a i = some v := by
  unfold load at h
  split at h
  · exact fetch_eq_ok h
  · cases h

theorem deref_eq_ok {p : Ptr} {w : Word} (h : deref p = .ok w) : p = some w := by
  cases p with
  | none => cases h
  | some v => rw [Except.ok.inj h]

end Steps

section Stages
variable {s s' : Scan} {answers : Answers}

theorem Scan.stages_eq_ok {n : ℕ} :
    s.stages answers n = .ok () ↔ ∀ i < n, s.stage answers i = .ok () := by
  induction n with
  | zero => simp [Scan.stages]
  | succ n ih =>
    rw [Scan.stages]
    constructor
    · intro h i hi
      obtain ⟨⟨⟩, hfirst, hlast⟩ := bind_eq_ok h
      obtain hlt | rfl := Nat.lt_succ_iff_lt_or_eq.1 hi
      · exact ih.1 hfirst i hlt
      · exact hlast
    · intro h
      rw [ih.2 fun i hi => h i (Nat.lt_succ_of_lt hi), ok_bind]
      exact h n (Nat.lt_succ_self n)

/-- The paths and the start of a stage are set and no null pointers. -/
structure StageOk (s : Scan) (i : ℕ) : Prop where
  input : i = 0 → s.inputRedirection = 1 → ∃ file, s.inputPath = some (some file)
  output : i = s.p_cnt → s.outputRedirection = 1 ∨ s.outputRedirection = 2 →
    ∃ file, s.outputPath = some (some file)
  start : ∃ j w, load s.pipeIndex i = .ok j ∧ load s.argv j = .ok (some w)

/-- The system with which every call succeeds. -/
def allSucceed : Answers where
  forks := fun _ => true
  canRead := fun _ => true
  canWrite := fun _ => true

theorem Scan.stage_ok {i : ℕ} (h : StageOk s i) : s.stage answers i = .ok () := by
  have hinput : ∃ b, s.openInput answers i = .ok b := by
    unfold Scan.openInput
    by_cases hc : i = 0 ∧ s.inputRedirection = 1
    · obtain ⟨file, hfile⟩ := h.input hc.1 hc.2
      rw [if_pos hc, hfile]
      exact ⟨_, rfl⟩
    · rw [if_neg hc]
      exact ⟨_, rfl⟩
  have houtput : ∃ b, s.openOutput answers i = .ok b := by
    unfold Scan.openOutput
    by_cases hc : i = s.p_cnt ∧ 0 < s.outputRedirection
    · rw [if_pos hc]
      by_cases hr : s.outputRedirection = 1 ∨ s.outputRedirection = 2
      · obtain ⟨file, hfile⟩ := h.output hc.1 hr
        rw [if_pos hr, hfile]
        exact ⟨_, rfl⟩
      · rw [if_neg hr]
        exact ⟨_, rfl⟩
    · rw [if_neg hc]
      exact ⟨_, rfl⟩
  obtain ⟨b, hb⟩ := hinput
  obtain ⟨b', hb'⟩ := houtput
  obtain ⟨j, w, hj, hw⟩ := h.start
  have hexec : myExecv s.argv j = .ok () := by
    rw [myExecv, hw, ok_bind]
    rfl
  rw [Scan.stage, hb, ok_bind, hb', ok_bind, hj, ok_bind, hexec]
  cases answers.forks i <;> cases b <;> cases b' <;> rfl

theorem Scan.openInput_allSucceed {i : ℕ} {b : Bool} (h : s.openInput allSucceed i = .ok b) :
    b = true ∧ (i = 0 → s.inputRedirection = 1 → ∃ file, s.inputPath = some (some file)) := by
  unfold Scan.openInput at h
  by_cases hc : i = 0 ∧ s.inputRedirection = 1
  · rw [if_pos hc] at h
    obtain ⟨path, hpath, h⟩ := bind_eq_ok h
    obtain ⟨file, hfile, h⟩ := bind_eq_ok h
    refine ⟨(Except.ok.inj h).symm, fun _ _ => ⟨file, ?_⟩⟩
    rw [fetch_eq_ok hpath, deref_eq_ok hfile]
  · rw [if_neg hc] at h
    exact ⟨(Except.ok.inj h).symm, fun h0 h1 => absurd ⟨h0, h1⟩ hc⟩

theorem Scan.openOutput_allSucceed {i : ℕ} {b : Bool} (hr : s.outputRedirection ≤ 2)
    (h : s.openOutput allSucceed i = .ok b) : b = true ∧ (i = s.p_cnt →
      s.outputRedirection = 1 ∨ s.outputRedirection = 2 →
        ∃ file, s.outputPath = some (some file)) := by
  unfold Scan.openOutput at h
  by_cases hc : i = s.p_cnt ∧ 0 < s.outputRedirection
  · have hone : s.outputRedirection = 1 ∨ s.outputRedirection = 2 := by omega
    rw [if_pos hc, if_pos hone] at h
    obtain ⟨path, hpath, h⟩ := bind_eq_ok h
    obtain ⟨file, hfile, h⟩ := bind_eq_ok h
    refine ⟨(Except.ok.inj h).symm, fun _ _ => ⟨file, ?_⟩⟩
    rw [fetch_eq_ok hpath, deref_eq_ok hfile]
  · rw [if_neg hc] at h
    refine ⟨(Except.ok.inj h).symm, fun h0 h1 => absurd ⟨h0, ?_⟩ hc⟩
    omega

theorem Scan.stageOk_of_stage {i : ℕ} (hr : s.outputRedirection ≤ 2)
    (h : s.stage allSucceed i = .ok ()) : StageOk s i := by
  have hforks : allSucceed.forks i = true := rfl
  rw [Scan.stage, if_pos hforks] at h
  obtain ⟨b, hb, h⟩ := bind_eq_ok h
  obtain ⟨rfl, hinput⟩ := Scan.openInput_allSucceed hb
  rw [if_pos rfl] at h
  obtain ⟨b', hb', h⟩ := bind_eq_ok h
  obtain ⟨rfl, houtput⟩ := Scan.openOutput_allSucceed hr hb'
  rw [if_pos rfl] at h
  obtain ⟨j, hj, h⟩ := bind_eq_ok h
  obtain ⟨p, hp, h⟩ := bind_eq_ok h
  obtain ⟨w, hw, -⟩ := bind_eq_ok h
  exact ⟨hinput, houtput, j, w, hj, deref_eq_ok hw ▸ hp⟩

end Stages

section Tokens
variable {argv : Entries Ptr} {ts : List Word} {s : Scan}

theorem Scanned.output_cases (h : Scanned (Scan.start argv) 0 ts s) :
    (s.outputRedirection = 0 ∧ greater ∉ ts ∧ append ∉ ts) ∨
      ∃ a op b, ts = a ++ op :: b ∧ (op = greater ∨ op = append) ∧ s.outputPath = some b.head? ∧
        (s.outputRedirection = 1 ∨ s.outputRedirection = 2) := by
  by_cases hex : ∃ w ∈ ts, w = greater ∨ w = append
  · right
    obtain ⟨a, op, b, hts, hop, hlast⟩ := exists_last_split hex
    obtain ⟨hpath, hred⟩ := h.output a op b hts hop (fun hb => hlast _ hb (.inl rfl))
      fun hb => hlast _ hb (.inr rfl)
    refine ⟨a, op, b, hts, hop, hpath, ?_⟩
    rw [hred]
    split
    · exact .inl rfl
    · exact .inr rfl
  · left
    have hgreater : greater ∉ ts := fun hw => hex ⟨_, hw, .inl rfl⟩
    have happend : append ∉ ts := fun hw => hex ⟨_, hw, .inr rfl⟩
    exact ⟨(h.outputKept hgreater happend).2, hgreater, happend⟩

theorem Scanned.input_eq_one (h : Scanned (Scan.start argv) 0 ts s) :
    s.inputRedirection = 1 ↔ less ∈ ts := by
  rw [h.inputRedirection]
  by_cases hless : less ∈ ts
  · rw [if_pos hless]
    exact iff_of_true rfl hless
  · rw [if_neg hless]
    exact iff_of_false Nat.zero_ne_one hless

theorem filter_eq_some {p : Option Word} {w : Word} :
    p.filter isOrdinary = some w ↔ p = some w ∧ isOrdinary w = true := by
  rw [Option.filter_eq_some_iff]

theorem Scanned.load_argv (h : Scanned (Scan.start argv) 0 ts s) (hlen : ts.length < MAXARGS)
    {j : ℕ} (hj : j ≤ ts.length) : load s.argv j = .ok (ts[j]?.filter isOrdinary) := by
  have harg := h.argv j hj
  rw [Nat.zero_add] at harg
  exact load_ok (Nat.lt_of_le_of_lt hj hlen) harg

theorem Scanned.stageOk (h : Scanned (Scan.start argv) 0 ts s) (hlen : ts.length < MAXARGS)
    (hplaced : WellPlaced ts) {i : ℕ} (hi : i ≤ s.p_cnt) : StageOk s i := by
  obtain ⟨⟨first, hfirst, hordinary⟩, hpipes, hless, hgreater, happend⟩ := hplaced
  have hcount : s.p_cnt = 0 + ts.count pipe := h.p_cnt
  refine ⟨?_, ?_, ?_⟩
  · intro _ hred
    obtain ⟨a, op, b, hts, rfl, hlast⟩ :=
      exists_last_split ⟨less, h.input_eq_one.1 hred, (rfl : less = less)⟩
    rw [h.input a b hts fun hb => hlast _ hb rfl]
    cases b with
    | nil =>
      rw [hts, List.getLast?_concat] at hless
      exact absurd rfl hless
    | cons file b => exact ⟨file, rfl⟩
  · intro _ hred
    obtain ⟨hzero, -, -⟩ | ⟨a, op, b, hts, hop, hpath, -⟩ := h.output_cases
    · omega
    · rw [hpath]
      cases b with
      | nil =>
        rw [hts, List.getLast?_concat] at hgreater happend
        obtain rfl | rfl := hop
        · exact absurd rfl hgreater
        · exact absurd rfl happend
      | cons file b => exact ⟨file, rfl⟩
  · cases i with
    | zero =>
      have hindex := h.first rfl
      rw [hfirst, Option.any_some, if_pos hordinary] at hindex
      refine ⟨0, first, load_ok (by decide) hindex, ?_⟩
      rw [h.load_argv hlen (Nat.zero_le _), ← List.head?_eq_getElem?, hfirst]
      exact congrArg Except.ok (filter_eq_some.2 ⟨rfl, hordinary⟩)
    | succ k =>
      obtain ⟨a, b, hts, hk⟩ := split_of_lt_count (by omega : k < ts.count pipe)
      have hahead : ts.head? ≠ some pipe := by
        rw [hfirst]
        rintro he
        rw [Option.some_inj.1 he] at hordinary
        exact absurd hordinary (by decide)
      have hstarts := h.starts (.inr hahead) a b hts
      have hindex : (Scan.start argv).p_cnt + a.count pipe + 1 = k + 1 := by
        rw [hk]
        exact congrArg (· + 1) (Nat.zero_add k)
      rw [hindex, Nat.zero_add] at hstarts
      have hlength : a.length + 1 ≤ ts.length := by
        rw [hts, List.length_append, List.length_cons]
        omega
      have hk' : k + 1 < MAXARGS := by
        have hle := List.count_le_length (a := pipe) (l := ts)
        omega
      obtain ⟨w, hw, hword⟩ := hpipes a.length (by simp [hts])
      refine ⟨a.length + 1, w, load_ok hk' hstarts, ?_⟩
      rw [h.load_argv hlen hlength, hw]
      exact congrArg Except.ok (filter_eq_some.2 ⟨rfl, hword⟩)

theorem Scanned.wellPlaced (h : Scanned (Scan.start argv) 0 ts s) (hlen : ts.length < MAXARGS)
    (hstages : ∀ i ≤ s.p_cnt, StageOk s i) : WellPlaced ts := by
  have hcount : s.p_cnt = 0 + ts.count pipe := h.p_cnt
  have hfirst : ∃ w, ts.head? = some w ∧ isOrdinary w = true := by
    obtain ⟨j, w, hj, -⟩ := (hstages 0 (Nat.zero_le _)).start
    have hindex := h.first rfl
    rw [load_eq_ok hj] at hindex
    cases hts : ts.head? with
    | none =>
      rw [hts] at hindex
      cases hindex
    | some v =>
      refine ⟨v, rfl, ?_⟩
      by_contra hv
      rw [hts, Option.any_some, if_neg hv] at hindex
      cases hindex
  have hahead : ts.head? ≠ some pipe := by
    obtain ⟨w, hw, hordinary⟩ := hfirst
    rw [hw]
    rintro he
    rw [Option.some_inj.1 he] at hordinary
    exact absurd hordinary (by decide)
  have hlast : ∀ op, op = greater ∨ op = append → ts.getLast? ≠ some op := by
    intro op hop hend
    obtain ⟨a, hts⟩ := List.getLast?_eq_some_iff.1 hend
    obtain ⟨hpath, hred⟩ := h.output a op [] hts hop (by simp) (by simp)
    have hone : s.outputRedirection = 1 ∨ s.outputRedirection = 2 := by
      rw [hred]
      split
      · exact .inl rfl
      · exact .inr rfl
    obtain ⟨file, hfile⟩ := (hstages s.p_cnt (Nat.le_refl _)).output rfl hone
    rw [hpath] at hfile
    cases hfile
  refine ⟨hfirst, fun k hk => ?_, fun hend => ?_, hlast _ (.inl rfl), hlast _ (.inr rfl)⟩
  · obtain ⟨hlt, hget⟩ := List.getElem?_eq_some_iff.1 hk
    have hts : ts = ts.take k ++ pipe :: ts.drop (k + 1) := by
      rw [← hget, ← List.drop_eq_getElem_cons hlt, List.take_append_drop]
    have hstarts := h.starts (.inr hahead) _ _ hts
    have hle : 0 + (ts.take k).count pipe + 1 ≤ s.p_cnt := by
      have hall := congrArg (List.count pipe) hts
      rw [List.count_append, List.count_cons_self] at hall
      omega
    obtain ⟨j, w, hj, hw⟩ := (hstages _ hle).start
    have hj' : j = k + 1 := by
      have hindex := (load_eq_ok hj).symm.trans hstarts
      rw [List.length_take, Nat.min_eq_left (Nat.le_of_lt hlt), Nat.zero_add] at hindex
      exact Option.some_inj.1 hindex
    rw [hj', h.load_argv hlen hlt] at hw
    obtain ⟨hnext, hword⟩ := filter_eq_some.1 (Except.ok.inj hw)
    exact ⟨w, hnext, hword⟩
  · obtain ⟨a, hts⟩ := List.getLast?_eq_some_iff.1 hend
    have hmem : less ∈ ts := by simp [hts]
    obtain ⟨file, hfile⟩ :=
      (hstages 0 (Nat.zero_le _)).input rfl (h.input_eq_one.2 hmem)
    rw [h.input a [] hts (by simp)] at hfile
    cases hfile

end Tokens

section Lines
variable {line : List UInt8} {answers : Answers}

theorem eval_nil (h : tokensOf (cString line) = []) :
    eval answers (cString line) = .error .nullPointer := by
  obtain ⟨argv, htokenize, hnull⟩ := tokenize_nil h
  rw [eval, htokenize, ok_bind]
  simp only [builtinCommand, load_ok (by decide : 0 < MAXARGS) hnull]
  rfl

theorem eval_long (h : MAXARGS ≤ (tokensOf (cString line)).length) :
    eval answers (cString line) = .error .outOfBounds := by
  have hne : tokensOf (cString line) ≠ [] := by
    rintro hnil
    rw [hnil] at h
    exact absurd h (by decide)
  rw [eval, tokenize_eq hne, if_neg (Nat.not_lt_of_le h), error_bind]

/-- The builtin commands have an argument when they use it. -/
theorem builtinCommand_eq {ts : List Word} {w : Word} (hw : ts.head? = some w)
    (hlen : ts.length < MAXARGS) :
    builtinCommand (entries ts) ts.length = .ok (decide (w = exitWord ∨ w = cdWord)) := by
  have hfirst : load (entries ts) 0 = .ok (some w) := by
    refine load_ok (by decide) ?_
    rw [← hw, List.head?_eq_getElem?]
    rfl
  have hsecond : ∀ n, ts.length = n + 2 → ∃ v, load (entries ts) 1 = .ok (some v) := by
    intro n hn
    have hlt : 1 < ts.length := by omega
    refine ⟨ts[1], load_ok (by decide) ?_⟩
    rw [entries, if_pos (Nat.le_of_lt hlt), List.getElem?_eq_getElem hlt]
  have hpos : 0 < ts.length := by
    cases ts with
    | nil => cases hw
    | cons v ts => exact Nat.succ_pos _
  rw [builtinCommand, hfirst, ok_bind, deref, ok_bind]
  by_cases hexit : w = exitWord
  · rw [if_pos hexit]
    by_cases hone : ts.length = 1
    · rw [if_pos hone]
      simp [hexit]
      rfl
    · obtain ⟨v, hv⟩ := hsecond (ts.length - 2) (by omega)
      rw [if_neg hone, hv]
      simp [hexit]
      rfl
  · rw [if_neg hexit]
    by_cases hcd : w = cdWord
    · rw [if_pos hcd]
      by_cases htwo : ts.length = 2
      · obtain ⟨v, hv⟩ := hsecond 0 htwo
        rw [if_neg (not_not.2 htwo), hv]
        simp [hcd]
        rfl
      · rw [if_pos htwo]
        simp [hcd]
        rfl
    · rw [if_neg hcd]
      simp [hexit, hcd]
      rfl

/-- A line is safe if it has 1 to 127 tokens and its operators are well placed. -/
theorem safe_iff (line : List UInt8) : Safe line ↔ LineOk (tokensOf (cString line)) := by
  by_cases hne : tokensOf (cString line) = []
  · refine iff_of_false (fun h => ?_) fun h => h.1 hne
    have hfault := h allSucceed
    rw [eval_nil hne] at hfault
    cases hfault
  by_cases hlen : (tokensOf (cString line)).length < MAXARGS
  · obtain ⟨w, hw⟩ : ∃ w, (tokensOf (cString line)).head? = some w :=
      ⟨_, List.head?_eq_some_head hne⟩
    obtain ⟨s, hparse, hscan⟩ := parse_spec hne hlen
    rw [parse, tokenize_eq hne, if_pos hlen, ok_bind] at hparse
    have heval : ∀ answers, eval answers (cString line) =
        if w = exitWord ∨ w = cdWord then .ok () else s.stages answers (s.p_cnt + 1) := by
      intro answers
      rw [eval, tokenize_eq hne, if_pos hlen, ok_bind]
      simp only [builtinCommand_eq hw hlen, ok_bind, decide_eq_true_eq, hparse]
      rfl
    have hok : LineOk (tokensOf (cString line)) ↔
        (w = exitWord ∨ w = cdWord) ∨ WellPlaced (tokensOf (cString line)) := by
      unfold LineOk
      rw [hw, Option.some_inj, Option.some_inj, or_assoc]
      exact ⟨fun h => h.2.2, fun h => ⟨hne, Nat.le_of_lt_succ hlen, h⟩⟩
    rw [hok]
    by_cases hbuiltin : w = exitWord ∨ w = cdWord
    · refine iff_of_true (fun answers => ?_) (.inl hbuiltin)
      rw [heval, if_pos hbuiltin]
    · rw [or_iff_right hbuiltin]
      constructor
      · intro h
        have hrun := h allSucceed
        rw [heval, if_neg hbuiltin, Scan.stages_eq_ok] at hrun
        have hred : s.outputRedirection ≤ 2 := by
          obtain ⟨hzero, -, -⟩ | ⟨-, -, -, -, -, -, hone⟩ := hscan.output_cases <;> omega
        exact hscan.wellPlaced hlen fun i hi =>
          Scan.stageOk_of_stage hred (hrun i (Nat.lt_succ_of_le hi))
      · intro h answers
        rw [heval, if_neg hbuiltin, Scan.stages_eq_ok]
        exact fun i hi => Scan.stage_ok (hscan.stageOk hlen h (Nat.le_of_lt_succ hi))
  · refine iff_of_false (fun h => ?_) fun h => hlen (Nat.lt_succ_of_le h.2.1)
    have hfault := h allSucceed
    rw [eval_long (Nat.le_of_not_lt hlen)] at hfault
    cases hfault

/-- An empty line: `builtin_command` compares a null pointer. -/
theorem not_safe_newline : ¬Safe [10] := by
  intro h
  have hfault : eval allSucceed (cString [10]) = .error .nullPointer := eval_nil rfl
  rw [h allSucceed] at hfault
  cases hfault

end Lines

end Shell
