import Coursework.Shell.Command

/-! What the tokenizing and the scan of a command line leave in the variables of `eval`. -/
namespace Shell
open Tokens

section Faults
variable {α β : Type}

theorem ok_bind (x : α) (f : α → Except Fault β) : (Except.ok x >>= f) = f x := rfl

theorem error_bind (e : Fault) (f : α → Except Fault β) :
    (Except.error e >>= f) = Except.error e := rfl

theorem load_ok {a : Entries α} {i : ℕ} {v : α} (hi : i < MAXARGS) (h : a i = some v) :
    load a i = .ok v := by
  rw [load, if_pos hi, h, fetch]

theorem store_ok {i : ℕ} (hi : i < MAXARGS) (a : Entries α) (v : α) :
    store a i v = .ok (Function.update a i (some v)) := if_pos hi

end Faults

section Tokenizing

/-- The tokens of a command line. -/
def tokensOf (rawCmd : List UInt8) : List Word := fields isBlank rawCmd

/-- `strtok` cuts off the first token. -/
theorem strtok_spec (save : List UInt8) : (strtok save = (none, []) ∧ tokensOf save = []) ∨
    ∃ w rest, strtok save = (some w, rest) ∧ tokensOf save = w :: tokensOf rest := by
  induction save with
  | nil => exact .inl ⟨rfl, rfl⟩
  | cons c s ih =>
    by_cases hc : isBlank c
    · have hskip : strtok (c :: s) = strtok s := by
        simp [strtok, hc]
      rw [hskip, tokensOf, fields_cons hc]
      exact ih
    · right
      have hdrop : (c :: s).dropWhile isBlank = c :: s := by
        simp [hc]
      obtain ⟨w, hw, he | ⟨d, rest, hd, he⟩⟩ := split_run isBlank (c :: s)
      · have hne : w ≠ [] := he ▸ List.cons_ne_nil c s
        refine ⟨w, [], ?_, ?_⟩
        · rw [strtok, hdrop]
          simp only [he, run_self hw]
          simp
        · rw [tokensOf, he, fields_word hw hne]
          rfl
      · have hne : w ≠ [] := by
          rintro rfl
          rw [List.nil_append, List.cons.injEq] at he
          exact hc (he.1 ▸ hd)
        have hrun : run isBlank (c :: s) = w := by
          rw [he, run_append hw, run_cons, if_pos hd, List.append_nil]
        refine ⟨w, rest, ?_, ?_⟩
        · rw [strtok, hdrop]
          simp only [hrun]
          rw [he]
          simp
        · rw [tokensOf, he, fields_append hw hne hd]
          rfl

/-- `argv` while it is being filled, and with the null after the last token. -/
def filled (ts : List Word) : Entries Ptr := fun j => ts[j]?.map some

def entries (ts : List Word) : Entries Ptr := fun j => if j ≤ ts.length then some ts[j]? else none

theorem filled_null (ts : List Word) :
    Function.update (filled ts) ts.length (some none) = entries ts := by
  funext j
  unfold entries filled
  obtain hlt | rfl | hgt := Nat.lt_trichotomy j ts.length
  · simp [Nat.ne_of_lt hlt, Nat.le_of_lt hlt, hlt]
  · simp
  · have hnot : ¬j ≤ ts.length := Nat.not_le_of_lt hgt
    simp [Nat.ne_of_gt hgt, hnot, Nat.le_of_lt hgt]

theorem filled_concat (ts : List Word) (w : Word) :
    Function.update (filled ts) ts.length (some (some w)) = filled (ts ++ [w]) := by
  funext j
  unfold filled
  obtain hlt | rfl | hgt := Nat.lt_trichotomy j ts.length
  · simp [Nat.ne_of_lt hlt, List.getElem?_append_left hlt]
  · simp
  · have hlen : (ts ++ [w]).length ≤ j := by
      rw [List.length_append, List.length_singleton]
      exact hgt
    simp only [Function.update_of_ne (Nat.ne_of_gt hgt), List.getElem?_eq_none (Nat.le_of_lt hgt),
      List.getElem?_eq_none hlen]

theorem collect_eq {ts more : List Word} {save : List UInt8} (h : tokensOf save = more) :
    collect (filled ts) ts.length save =
      if (ts ++ more).length < MAXARGS then .ok (entries (ts ++ more), (ts ++ more).length)
      else .error .outOfBounds := by
  induction more generalizing ts save with
  | nil =>
    obtain ⟨hs, -⟩ | ⟨w, rest, -, he⟩ := strtok_spec save
    · rw [collect, hs, List.append_nil]
      simp only [filled_null]
    · rw [h] at he
      cases he
  | cons w more ih =>
    obtain ⟨-, he⟩ | ⟨v, rest, hs, he⟩ := strtok_spec save
    · rw [h] at he
      cases he
    · rw [h, List.cons.injEq] at he
      obtain ⟨rfl, hrest⟩ := he
      rw [collect, hs]
      by_cases hlt : ts.length < MAXARGS
      · have hstep := @ih (ts ++ [w]) _ hrest.symm
        rw [List.append_assoc, List.singleton_append, List.length_append,
          List.length_singleton] at hstep
        rw [if_pos hlt]
        simp only [filled_concat, hstep]
      · have hlong : ¬(ts ++ w :: more).length < MAXARGS := by
          rw [List.length_append]
          omega
        rw [if_neg hlt, if_neg hlong]

theorem tokenize_nil {rawCmd : List UInt8} (h : tokensOf rawCmd = []) :
    ∃ argv, tokenize rawCmd = .ok (argv, 1) ∧ argv 0 = some none := by
  obtain ⟨hs, -⟩ | ⟨w, rest, -, he⟩ := strtok_spec rawCmd
  · refine ⟨Function.update (Function.update (fun _ => none) 0 (some none)) 1 (some none), ?_, rfl⟩
    rw [tokenize, hs]
    rfl
  · rw [h] at he
    cases he

/-- Up to 127 tokens fit into `argv`, with the null after them. -/
theorem tokenize_eq {rawCmd : List UInt8} (h : tokensOf rawCmd ≠ []) : tokenize rawCmd =
    if (tokensOf rawCmd).length < MAXARGS then
      .ok (entries (tokensOf rawCmd), (tokensOf rawCmd).length)
    else .error .outOfBounds := by
  obtain ⟨-, he⟩ | ⟨w, rest, hs, he⟩ := strtok_spec rawCmd
  · exact absurd he h
  · have hfirst : store (fun _ => none) 0 (some w) = .ok (filled [w]) := by
      rw [store_ok (by decide)]
      exact congrArg _ (filled_concat [] w)
    have hcollect := @collect_eq [w] _ rest rfl
    rw [List.singleton_append, ← he] at hcollect
    rw [List.length_singleton] at hcollect
    rw [tokenize, hs]
    simp only [hfirst, ok_bind, reduceCtorEq, if_false, hcollect]
    by_cases hlt : (tokensOf rawCmd).length < MAXARGS
    · have hlast : Function.update (entries (tokensOf rawCmd)) (tokensOf rawCmd).length
          (some none) = entries (tokensOf rawCmd) := by
        rw [Function.update_eq_self_iff]
        simp [entries]
      simp only [if_pos hlt, ok_bind, store_ok hlt, hlast]
      rfl
    · simp only [if_neg hlt, error_bind]

end Tokenizing

section Steps

def operators : List Word := [pipe, less, greater, append, ampersand]

/-- An ordinary word is no operator. -/
def isOrdinary (w : Word) : Bool := w ∉ operators

/-- The variables after the token `w` at `i`, which has `next` after it. -/
def Scan.after (s : Scan) (i : ℕ) (w : Word) (next : Ptr) : Scan where
  argv := if isOrdinary w then s.argv else Function.update s.argv i (some none)
  pipeIndex :=
    if w = pipe then Function.update s.pipeIndex (s.p_cnt + 1) (some (i + 1))
    else if isOrdinary w then Function.update s.pipeIndex i (some i) else s.pipeIndex
  p_cnt := if w = pipe then s.p_cnt + 1 else s.p_cnt
  inputPath := if w = less then some next else s.inputPath
  outputPath := if w = greater ∨ w = append then some next else s.outputPath
  inputRedirection := if w = less then 1 else s.inputRedirection
  outputRedirection :=
    if w = greater then 1 else if w = append then 2 else s.outputRedirection
  background := if w = ampersand then true else s.background

variable {s s' : Scan} {i : ℕ} {w : Word} {next : Ptr} {rest : List Word}

theorem mem_operators : w ∈ operators ↔
    w = pipe ∨ w = less ∨ w = greater ∨ w = append ∨ w = ampersand := by
  simp [operators]

theorem isOrdinary_iff : isOrdinary w = true ↔ w ∉ operators := by
  simp [isOrdinary]

theorem Scan.step_eq (hi : i + 1 < MAXARGS) (hp : s.p_cnt + 1 < MAXARGS)
    (hnext : s.argv (i + 1) = some next) : s.step i w = .ok (s.after i w next) := by
  have hstore : ∀ v, store s.argv i v = .ok (Function.update s.argv i (some v)) :=
    store_ok (Nat.lt_of_succ_lt hi) s.argv
  have hload : load (Function.update s.argv i (some none)) (i + 1) = .ok next := by
    refine load_ok hi ?_
    rw [Function.update_of_ne (Nat.succ_ne_self i), hnext]
  by_cases hw : isOrdinary w = true
  · have hnot := isOrdinary_iff.1 hw
    rw [mem_operators, not_or, not_or, not_or, not_or] at hnot
    obtain ⟨h1, h2, h3, h4, h5⟩ := hnot
    rw [Scan.step, if_neg h1, if_neg h2, if_neg h3, if_neg h4, if_neg h5,
      store_ok (Nat.lt_of_succ_lt hi)]
    simp [Scan.after, hw, h1, h2, h3, h4, h5]
  · have hop := mem_operators.1 (not_not.1 (mt isOrdinary_iff.2 hw))
    obtain rfl | rfl | rfl | rfl | rfl := hop
    · rw [Scan.step, if_pos rfl, hstore, ok_bind, store_ok hp]
      rfl
    · rw [Scan.step, if_neg (by decide), if_pos rfl, hstore, ok_bind, hload]
      rfl
    · rw [Scan.step, if_neg (by decide), if_neg (by decide), if_pos rfl, hstore, ok_bind, hload]
      rfl
    · rw [Scan.step, if_neg (by decide), if_neg (by decide), if_neg (by decide), if_pos rfl,
        hstore, ok_bind, hload]
      rfl
    · rw [Scan.step, if_neg (by decide), if_neg (by decide), if_neg (by decide),
        if_neg (by decide), if_pos rfl, hstore, ok_bind]
      rfl

theorem Scan.after_argv (s : Scan) (i : ℕ) (w : Word) (next : Ptr) {j : ℕ} (hj : j ≠ i) :
    (s.after i w next).argv j = s.argv j := by
  by_cases hw : isOrdinary w = true
  · simp [Scan.after, hw]
  · simp [Scan.after, hw, Function.update_of_ne hj]

theorem Scan.after_argv_self (hs : s.argv i = some (some w)) (next : Ptr) :
    (s.after i w next).argv i = some ((some w).filter isOrdinary) := by
  by_cases hw : isOrdinary w = true
  · simp [Scan.after, hw, hs, Option.filter]
  · simp [Scan.after, hw, Option.filter]

theorem Scan.after_pipeIndex (s : Scan) (w : Word) (next : Ptr) {k : ℕ} (hk : k ≤ s.p_cnt)
    (hki : k < i) : (s.after i w next).pipeIndex k = s.pipeIndex k := by
  have h1 : k ≠ i := Nat.ne_of_lt hki
  have h2 : k ≠ s.p_cnt + 1 := by omega
  by_cases hp : w = pipe
  · simp [Scan.after, hp, Function.update_of_ne h2]
  · by_cases hw : isOrdinary w = true
    · simp [Scan.after, hp, hw, Function.update_of_ne h1]
    · simp [Scan.after, hp, hw]

/-- The variables after the scan of the tokens `rest` from `i` on. -/
structure Scanned (s : Scan) (i : ℕ) (rest : List Word) (s' : Scan) : Prop where
  argv : ∀ m ≤ rest.length, s'.argv (i + m) = some (rest[m]?.filter isOrdinary)
  before : ∀ j < i, s'.argv j = s.argv j
  p_cnt : s'.p_cnt = s.p_cnt + rest.count pipe
  kept : ∀ k ≤ s.p_cnt, k < i → s'.pipeIndex k = s.pipeIndex k
  first : i = 0 → s'.pipeIndex 0 = if rest.head?.any isOrdinary then some 0 else s.pipeIndex 0
  starts : s.p_cnt < i ∨ rest.head? ≠ some pipe → ∀ a b, rest = a ++ pipe :: b →
    s'.pipeIndex (s.p_cnt + a.count pipe + 1) = some (i + a.length + 1)
  input : ∀ a b, rest = a ++ less :: b → less ∉ b → s'.inputPath = some b.head?
  inputKept : less ∉ rest → s'.inputPath = s.inputPath
  inputRedirection : s'.inputRedirection = if less ∈ rest then 1 else s.inputRedirection
  output : ∀ a op b, rest = a ++ op :: b → op = greater ∨ op = append → greater ∉ b →
    append ∉ b →
      s'.outputPath = some b.head? ∧ s'.outputRedirection = if op = greater then 1 else 2
  outputKept : greater ∉ rest → append ∉ rest →
    s'.outputPath = s.outputPath ∧ s'.outputRedirection = s.outputRedirection
  background : s'.background = if ampersand ∈ rest then true else s.background

theorem Scanned.nil (h : s.argv i = some none) : Scanned s i [] s where
  argv := by
    intro m hm
    obtain rfl := Nat.le_zero.1 hm
    exact h
  before _ _ := rfl
  p_cnt := rfl
  kept _ _ _ := rfl
  first _ := rfl
  starts _ a b h := by simp at h
  input a b h := by simp at h
  inputKept _ := rfl
  inputRedirection := by simp
  output a op b h := by simp at h
  outputKept _ _ := ⟨rfl, rfl⟩
  background := by simp

/-- One token and the tokens after it. -/
theorem Scanned.cons (hs : s.argv i = some (some w)) (hp : s.p_cnt ≤ i)
    (h : Scanned (s.after i w rest.head?) (i + 1) rest s') : Scanned s i (w :: rest) s' where
  argv := by
    intro m hm
    cases m with
    | zero => rw [Nat.add_zero, h.before i (Nat.lt_succ_self i), Scan.after_argv_self hs]; rfl
    | succ m =>
      have htail := h.argv m (Nat.le_of_succ_le_succ hm)
      rw [Nat.add_right_comm] at htail
      exact htail
  before := by
    intro j hj
    rw [h.before j (Nat.lt_succ_of_lt hj), Scan.after_argv s i w _ (Nat.ne_of_lt hj)]
  p_cnt := by
    rw [h.p_cnt]
    by_cases hw : w = pipe
    · simp [Scan.after, hw]
      omega
    · simp [Scan.after, hw]
  kept := by
    intro k hk hki
    have hle : k ≤ (s.after i w rest.head?).p_cnt := by
      simp only [Scan.after]
      split <;> omega
    rw [h.kept k hle (Nat.lt_succ_of_lt hki), Scan.after_pipeIndex s w _ hk hki]
  first := by
    rintro rfl
    rw [h.kept 0 (Nat.zero_le _) Nat.zero_lt_one]
    by_cases hw : w = pipe
    · have hnot : isOrdinary pipe = false := by decide
      simp [Scan.after, hw, hnot]
    · by_cases hword : isOrdinary w = true
      · simp [Scan.after, hw, hword]
      · simp [Scan.after, hw, hword]
  starts := by
    intro hahead a b he
    cases a with
    | nil =>
      rw [List.nil_append, List.cons.injEq] at he
      obtain ⟨rfl, rfl⟩ := he
      have hlt : s.p_cnt < i := hahead.resolve_right fun hne => hne rfl
      rw [List.count_nil, List.length_nil, Nat.add_zero, Nat.add_zero,
        h.kept _ (by simp [Scan.after]) (by omega)]
      simp [Scan.after]
    | cons v a =>
      rw [List.cons_append, List.cons.injEq] at he
      obtain ⟨rfl, he⟩ := he
      by_cases hw : w = pipe
      · have hlt : s.p_cnt < i := hahead.resolve_right fun hne => hne (by rw [hw]; rfl)
        have hp' : (s.after i w rest.head?).p_cnt = s.p_cnt + 1 := by simp [Scan.after, hw]
        have htail := h.starts (.inl (by omega)) a b he
        rw [hp'] at htail
        rw [hw, List.count_cons_self, List.length_cons, ← Nat.add_assoc,
          Nat.add_right_comm s.p_cnt, ← Nat.add_assoc, Nat.add_right_comm i]
        exact htail
      · have hp' : (s.after i w rest.head?).p_cnt = s.p_cnt := by simp [Scan.after, hw]
        have htail := h.starts (.inl (by omega)) a b he
        rw [hp'] at htail
        rw [List.count_cons_of_ne hw, List.length_cons, ← Nat.add_assoc, Nat.add_right_comm i]
        exact htail
  input := by
    intro a b he hb
    cases a with
    | nil =>
      rw [List.nil_append, List.cons.injEq] at he
      obtain ⟨rfl, rfl⟩ := he
      rw [h.inputKept hb]
      simp [Scan.after]
    | cons v a =>
      rw [List.cons_append, List.cons.injEq] at he
      exact h.input a b he.2 hb
  inputKept := by
    intro hnot
    rw [List.mem_cons, not_or] at hnot
    rw [h.inputKept hnot.2]
    simp [Scan.after, Ne.symm hnot.1]
  inputRedirection := by
    rw [h.inputRedirection]
    by_cases hw : w = less
    · simp [Scan.after, hw]
    · simp [Scan.after, hw, Ne.symm hw]
  output := by
    intro a op b he hop hb1 hb2
    cases a with
    | nil =>
      rw [List.nil_append, List.cons.injEq] at he
      obtain ⟨rfl, rfl⟩ := he
      obtain ⟨hpath, hred⟩ := h.outputKept hb1 hb2
      rw [hpath, hred]
      obtain rfl | rfl := hop
      · simp [Scan.after]
      · have hne : append ≠ greater := by decide
        simp [Scan.after, hne]
    | cons v a =>
      rw [List.cons_append, List.cons.injEq] at he
      exact h.output a op b he.2 hop hb1 hb2
  outputKept := by
    intro hnot hnot'
    rw [List.mem_cons, not_or] at hnot hnot'
    obtain ⟨hpath, hred⟩ := h.outputKept hnot.2 hnot'.2
    rw [hpath, hred]
    simp [Scan.after, Ne.symm hnot.1, Ne.symm hnot'.1]
  background := by
    rw [h.background]
    by_cases hw : w = ampersand
    · simp [Scan.after, hw]
    · simp [Scan.after, hw, Ne.symm hw]

/-- The loop goes through all tokens without a fault. -/
theorem Scan.loop_spec (hp : s.p_cnt ≤ i) (hlen : i + rest.length < MAXARGS)
    (hargv : ∀ m ≤ rest.length, s.argv (i + m) = some rest[m]?) :
    ∃ s', s.loop i = .ok s' ∧ Scanned s i rest s' := by
  induction rest generalizing s i with
  | nil =>
    have hi := hargv 0 (Nat.le_refl 0)
    rw [List.getElem?_nil, Nat.add_zero] at hi
    refine ⟨s, ?_, Scanned.nil hi⟩
    rw [Scan.loop, if_pos (Nat.lt_of_le_of_lt (Nat.le_add_right i _) hlen)]
    simp only [hi]
  | cons w rest ih =>
    rw [List.length_cons] at hlen
    have hi : s.argv i = some (some w) := hargv 0 (Nat.zero_le _)
    have hnext : s.argv (i + 1) = some rest.head? := by
      rw [hargv 1 (by simp), List.head?_eq_getElem?]
      rfl
    have htail : ∀ m ≤ rest.length,
        (s.after i w rest.head?).argv (i + 1 + m) = some rest[m]? := by
      intro m hm
      rw [Scan.after_argv s i w _ (by omega), Nat.add_assoc, Nat.add_comm 1,
        hargv (m + 1) (Nat.succ_le_succ hm)]
      rfl
    have hp' : (s.after i w rest.head?).p_cnt ≤ i + 1 := by
      simp only [Scan.after]
      split <;> omega
    obtain ⟨s', hloop, hscan⟩ := ih hp' (by omega) htail
    refine ⟨s', ?_, Scanned.cons hi hp hscan⟩
    rw [Scan.loop, if_pos (by omega)]
    simp only [hi]
    rw [Scan.step_eq (by omega) (by omega) hnext]
    exact hloop

theorem parse_spec {rawCmd : List UInt8} (hne : tokensOf rawCmd ≠ [])
    (hlen : (tokensOf rawCmd).length < MAXARGS) :
    ∃ s, parse rawCmd = .ok s ∧
      Scanned (Scan.start (entries (tokensOf rawCmd))) 0 (tokensOf rawCmd) s := by
  have hargv : ∀ m ≤ (tokensOf rawCmd).length,
      (Scan.start (entries (tokensOf rawCmd))).argv (0 + m) = some (tokensOf rawCmd)[m]? := by
    intro m hm
    rw [Nat.zero_add]
    exact if_pos hm
  obtain ⟨s, hloop, hscan⟩ := Scan.loop_spec (Nat.zero_le 0) (by omega) hargv
  refine ⟨s, ?_, hscan⟩
  rw [parse, tokenize_eq hne, if_pos hlen, ok_bind]
  exact hloop

end Steps

end Shell
