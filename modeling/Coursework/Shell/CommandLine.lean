import Coursework.Shell.Scan

/-! Well-formed command lines of the minishell: the scan finds their stages and redirections. -/
namespace Shell
open Tokens

/-- How the output of the last stage is opened. -/
inductive Mode where
  | truncate
  | append

def Mode.operator : Mode → Word
  | .truncate => greater
  | .append => Shell.append

/-- The value of `output_redirection`. -/
def Mode.number : Mode → ℕ
  | .truncate => 1
  | .append => 2

/-- A pipeline of stages, with an input of the first and an output of the last one. -/
structure CommandLine where
  stages : List (List Word)
  input : Option Word
  output : Option (Mode × Word)
  /-- Of two redirections of a single stage, that of the output stands first. -/
  outputFirst : Bool
  background : Bool
  stages_ne_nil : stages ≠ []
  words_ne_nil : ∀ ws ∈ stages, ws ≠ []
  ordinary : ∀ ws ∈ stages, ∀ w ∈ ws, isOrdinary w = true
  input_ordinary : ∀ file, input = some file → isOrdinary file = true
  output_ordinary : ∀ mode file, output = some (mode, file) → isOrdinary file = true

namespace CommandLine
variable (c : CommandLine)

def inputPart : List Word :=
  match c.input with
  | some file => [less, file]
  | none => []

def outputPart : List Word :=
  match c.output with
  | some (mode, file) => [mode.operator, file]
  | none => []

/-- What stands after the words of stage `k`. -/
def redirections (k : ℕ) : List Word :=
  let input := if k = 0 then c.inputPart else []
  let output := if k + 1 = c.stages.length then c.outputPart else []
  if c.outputFirst then output ++ input else input ++ output

def lastPart : List Word := if c.background then [ampersand] else []

/-- The tokens of the line. -/
def tokens : List Word :=
  [pipe].intercalate (c.stages.mapIdx fun k ws => ws ++ c.redirections k) ++ c.lastPart

end CommandLine

/-- The strings from `argv[j]` up to the next null. -/
def IsArgs (argv : Entries Ptr) : ℕ → List Word → Prop
  | j, [] => argv j = some none
  | j, w :: ws => argv j = some (some w) ∧ IsArgs argv (j + 1) ws

section Parts
variable {c : CommandLine}

/-- No ordinary word stands at the beginning. -/
def Stops (ts : List Word) : Prop := ts.head?.filter isOrdinary = none

theorem stops_nil : Stops [] := rfl

theorem stops_cons {w : Word} (hw : isOrdinary w = false) (ts : List Word) : Stops (w :: ts) := by
  simp [Stops, Option.filter, hw]

theorem stops_append {ts more : List Word} (h : Stops ts) (hmore : Stops more) :
    Stops (ts ++ more) := by
  cases ts with
  | nil => exact hmore
  | cons w ts => exact h

theorem Mode.operator_spec (mode : Mode) :
    (mode.operator = greater ∨ mode.operator = Shell.append) ∧
    isOrdinary mode.operator = false ∧ mode.operator ≠ pipe ∧ mode.operator ≠ less ∧
    mode.operator ≠ ampersand ∧ (if mode.operator = greater then 1 else 2) = mode.number := by
  cases mode <;> decide

theorem stops_inputPart (c : CommandLine) : Stops c.inputPart := by
  unfold CommandLine.inputPart
  cases c.input with
  | none => exact stops_nil
  | some file => exact stops_cons (by decide) _

theorem stops_outputPart (c : CommandLine) : Stops c.outputPart := by
  unfold CommandLine.outputPart
  cases c.output with
  | none => exact stops_nil
  | some r => exact stops_cons r.1.operator_spec.2.1 _

theorem stops_redirections (c : CommandLine) (k : ℕ) : Stops (c.redirections k) := by
  unfold CommandLine.redirections
  have hinput : Stops (if k = 0 then c.inputPart else []) := by
    split
    · exact stops_inputPart c
    · exact stops_nil
  have houtput : Stops (if k + 1 = c.stages.length then c.outputPart else []) := by
    split
    · exact stops_outputPart c
    · exact stops_nil
  dsimp only
  split
  · exact stops_append houtput hinput
  · exact stops_append hinput houtput

theorem stops_lastPart (c : CommandLine) : Stops c.lastPart := by
  unfold CommandLine.lastPart
  split
  · exact stops_cons (by decide) _
  · exact stops_nil

theorem stops_flatMap (ls : List (List Word)) : Stops (ls.flatMap (pipe :: ·)) := by
  cases ls with
  | nil => exact stops_nil
  | cons l ls => exact stops_cons (by decide) _

theorem mem_redirections {k : ℕ} {w : Word} (hw : w ∈ c.redirections k) :
    (k = 0 ∧ w ∈ c.inputPart) ∨ (k + 1 = c.stages.length ∧ w ∈ c.outputPart) := by
  unfold CommandLine.redirections at hw
  have hmem : w ∈ (if k = 0 then c.inputPart else []) ∨
      w ∈ (if k + 1 = c.stages.length then c.outputPart else []) := by
    dsimp only at hw
    split at hw
    · exact (List.mem_append.1 hw).symm
    · exact List.mem_append.1 hw
  obtain h | h := hmem
  · split at h
    · exact .inl ⟨by assumption, h⟩
    · cases h
  · split at h
    · exact .inr ⟨by assumption, h⟩
    · cases h

theorem inputPart_cases {w : Word} (hw : w ∈ c.inputPart) (hop : isOrdinary w = false) :
    w = less ∧ c.input.isSome = true := by
  unfold CommandLine.inputPart at hw
  cases hinput : c.input with
  | none =>
    rw [hinput] at hw
    cases hw
  | some file =>
    rw [hinput] at hw
    obtain rfl | rfl : w = less ∨ w = file := by simpa using hw
    · exact ⟨rfl, rfl⟩
    · rw [c.input_ordinary _ hinput] at hop
      cases hop

theorem outputPart_cases {w : Word} (hw : w ∈ c.outputPart) (hop : isOrdinary w = false) :
    ∃ mode file, c.output = some (mode, file) ∧ w = mode.operator := by
  unfold CommandLine.outputPart at hw
  cases houtput : c.output with
  | none =>
    rw [houtput] at hw
    cases hw
  | some r =>
    obtain ⟨mode, file⟩ := r
    rw [houtput] at hw
    obtain rfl | rfl : w = mode.operator ∨ w = file := by simpa using hw
    · exact ⟨mode, file, rfl, rfl⟩
    · rw [c.output_ordinary mode _ houtput] at hop
      cases hop

theorem not_ordinary_cases {k : ℕ} {ws : List Word} (hws : ws ∈ c.stages) {w : Word}
    (hw : w ∈ ws ++ c.redirections k) (hop : isOrdinary w = false) :
    (k = 0 ∧ w = less ∧ c.input.isSome = true) ∨
      (k + 1 = c.stages.length ∧ ∃ mode file,
        c.output = some (mode, file) ∧ w = mode.operator) := by
  obtain hw | hw := List.mem_append.1 hw
  · rw [c.ordinary ws hws w hw] at hop
    cases hop
  · obtain ⟨hk, hw⟩ | ⟨hk, hw⟩ := mem_redirections hw
    · exact .inl ⟨hk, inputPart_cases hw hop⟩
    · exact .inr ⟨hk, outputPart_cases hw hop⟩

theorem pipe_notMem {k : ℕ} {ws : List Word} (hws : ws ∈ c.stages) :
    pipe ∉ ws ++ c.redirections k := by
  intro hp
  obtain ⟨-, he, -⟩ | ⟨-, mode, file, -, he⟩ := not_ordinary_cases hws hp (by decide)
  · exact absurd he (by decide)
  · exact mode.operator_spec.2.2.1 he.symm

/-- The stages after the first, with their redirections. -/
def laterSegments (c : CommandLine) (rest : List (List Word)) : List (List Word) :=
  rest.mapIdx fun k ws => ws ++ c.redirections (k + 1)

theorem mem_laterSegments {first seg : List Word} {rest : List (List Word)}
    (hstages : c.stages = first :: rest) {n : ℕ} (h : seg ∈ (laterSegments c rest).drop n) :
    ∃ j ws, n < j ∧ c.stages[j]? = some ws ∧ seg = ws ++ c.redirections j := by
  obtain ⟨i, hi, he⟩ := List.mem_iff_getElem.1 h
  rw [List.getElem_drop] at he
  unfold laterSegments at he
  rw [List.getElem_mapIdx] at he
  refine ⟨n + i + 1, _, by omega, ?_, he.symm⟩
  rw [hstages, List.getElem?_cons_succ, List.getElem?_eq_getElem]

theorem tokens_eq {first : List Word} {rest : List (List Word)}
    (hstages : c.stages = first :: rest) : c.tokens = [pipe].intercalate
      ((first ++ c.redirections 0) :: laterSegments c rest) ++ c.lastPart := by
  rw [CommandLine.tokens, hstages, List.mapIdx_cons, laterSegments]

/-- What stands around the words of a stage. -/
theorem tokens_stage {k : ℕ} {ws : List Word} (h : c.stages[k]? = some ws) :
    ∃ before after, c.tokens = before ++ (ws ++ (c.redirections k ++ after)) ∧ Stops after ∧
      (k = 0 → before = []) ∧
      (∀ j, k = j + 1 → ∃ a, before = a ++ [pipe] ∧ a.count pipe = j) ∧
      (k + 1 = c.stages.length → after = c.lastPart) ∧
      ∀ w ∈ after, w = pipe ∨ w ∈ c.lastPart ∨ ∃ j ws', k < j ∧ c.stages[j]? = some ws' ∧
        w ∈ ws' ++ c.redirections j := by
  obtain ⟨first, rest, hstages⟩ := List.exists_cons_of_ne_nil c.stages_ne_nil
  have hmem : ∀ n, ∀ w ∈ ((laterSegments c rest).drop n).flatMap (pipe :: ·) ++ c.lastPart,
      w = pipe ∨ w ∈ c.lastPart ∨ ∃ j ws', n < j ∧ c.stages[j]? = some ws' ∧
        w ∈ ws' ++ c.redirections j := by
    intro n w hw
    obtain hw | hw := List.mem_append.1 hw
    · obtain ⟨seg, hseg, hw⟩ := List.mem_flatMap.1 hw
      obtain ⟨j, ws', hj, hws', rfl⟩ := mem_laterSegments hstages hseg
      obtain rfl | hw := List.mem_cons.1 hw
      · exact .inl rfl
      · exact .inr (.inr ⟨j, ws', hj, hws', hw⟩)
    · exact .inr (.inl hw)
  have hstops : ∀ n, Stops (((laterSegments c rest).drop n).flatMap (pipe :: ·) ++ c.lastPart) :=
    fun n => stops_append (stops_flatMap _) (stops_lastPart c)
  have hlast : ∀ n, n + 1 = c.stages.length →
      ((laterSegments c rest).drop n).flatMap (pipe :: ·) ++ c.lastPart = c.lastPart := by
    intro n hn
    rw [hstages, List.length_cons] at hn
    rw [List.drop_of_length_le (by simp [laterSegments]; omega)]
    rfl
  cases k with
  | zero =>
    rw [hstages, List.getElem?_cons_zero, Option.some_inj] at h
    subst h
    refine ⟨[], _, ?_, hstops 0, fun _ => rfl, fun j hj => absurd hj (by omega), hlast 0, hmem 0⟩
    rw [tokens_eq hstages, intercalate_cons, List.drop_zero]
    simp only [List.nil_append, List.append_assoc]
  | succ k =>
    rw [hstages, List.getElem?_cons_succ] at h
    have hseg : (laterSegments c rest)[k]? = some (ws ++ c.redirections (k + 1)) := by
      rw [laterSegments, List.getElem?_mapIdx, h]
      rfl
    refine ⟨(first ++ c.redirections 0 ++ ((laterSegments c rest).take k).flatMap (pipe :: ·)) ++
      [pipe], _, ?_, hstops (k + 1), fun h0 => absurd h0 (Nat.succ_ne_zero k), ?_, hlast (k + 1),
      hmem (k + 1)⟩
    · rw [tokens_eq hstages, intercalate_split _ hseg]
      simp only [List.append_assoc, List.cons_append, List.nil_append]
    · intro j hj
      obtain rfl : k = j := by omega
      refine ⟨_, rfl, ?_⟩
      have hfirst : first ∈ c.stages := by simp [hstages]
      have hnone : ∀ l ∈ (laterSegments c rest).take k, pipe ∉ l := by
        intro l hl
        obtain ⟨j, ws', -, hws', rfl⟩ := mem_laterSegments hstages (n := 0)
          (List.mem_of_mem_take hl)
        exact pipe_notMem (List.mem_of_getElem? hws')
      have hk : k < (laterSegments c rest).length := (List.getElem?_eq_some_iff.1 hseg).1
      rw [List.count_append, List.count_eq_zero.2 (pipe_notMem hfirst), count_flatMap_cons hnone,
        List.length_take]
      omega

end Parts

section Results
variable {c : CommandLine} {s s' : Scan} {ts : List Word}

/-- The words of a stage are followed by a null. -/
theorem Scanned.isArgs (h : Scanned s 0 ts s') {before ws after : List Word}
    (hts : ts = before ++ (ws ++ after)) (hws : ∀ w ∈ ws, isOrdinary w = true)
    (hafter : Stops after) : IsArgs s'.argv before.length ws := by
  induction ws generalizing before with
  | nil =>
    have harg := h.argv before.length (by simp [hts])
    rw [Nat.zero_add, hts, List.getElem?_append_right (Nat.le_refl _), Nat.sub_self,
      List.nil_append, ← List.head?_eq_getElem?] at harg
    rw [IsArgs, harg]
    exact congrArg some hafter
  | cons w ws ih =>
    have harg := h.argv before.length (by simp [hts])
    rw [Nat.zero_add, hts, List.getElem?_append_right (Nat.le_refl _), Nat.sub_self,
      List.cons_append, List.getElem?_cons_zero] at harg
    have hw : (some w).filter isOrdinary = some w := by
      simp [Option.filter, hws w List.mem_cons_self]
    have hts' : ts = (before ++ [w]) ++ (ws ++ after) := by simp [hts]
    have hrest := ih hts' fun v hv => hws v (List.mem_cons_of_mem _ hv)
    rw [List.length_append, List.length_singleton] at hrest
    exact ⟨harg.trans (congrArg some hw), hrest⟩

theorem tokens_head? {first : List Word} {rest : List (List Word)}
    (hstages : c.stages = first :: rest) :
    ∃ w, isOrdinary w = true ∧ c.tokens.head? = some w := by
  have hmem : first ∈ c.stages := by simp [hstages]
  obtain ⟨w, ws, rfl⟩ := List.exists_cons_of_ne_nil (c.words_ne_nil first hmem)
  refine ⟨w, c.ordinary _ hmem w List.mem_cons_self, ?_⟩
  rw [tokens_eq hstages]
  simp [intercalate_cons]

theorem lastPart_cases {w : Word} (hw : w ∈ c.lastPart) : c.background = true ∧ w = ampersand := by
  unfold CommandLine.lastPart at hw
  split at hw
  · exact ⟨by assumption, List.mem_singleton.1 hw⟩
  · cases hw

/-- The operators of a line. -/
theorem operator_cases {w : Word} (hw : w ∈ c.tokens) (hop : isOrdinary w = false) :
    w = pipe ∨ (w = ampersand ∧ c.background = true) ∨ (w = less ∧ c.input.isSome = true) ∨
      ∃ mode file, c.output = some (mode, file) ∧ w = mode.operator := by
  obtain ⟨first, rest, hstages⟩ := List.exists_cons_of_ne_nil c.stages_ne_nil
  have hfirst : c.stages[0]? = some first := by rw [hstages, List.getElem?_cons_zero]
  obtain ⟨before, after, htokens, -, hbefore, -, -, hafter⟩ := tokens_stage hfirst
  rw [htokens, hbefore rfl, List.nil_append, ← List.append_assoc] at hw
  have hseg : ∀ {k : ℕ} {ws : List Word}, c.stages[k]? = some ws → w ∈ ws ++ c.redirections k →
      (w = less ∧ c.input.isSome = true) ∨
        ∃ mode file, c.output = some (mode, file) ∧ w = mode.operator := by
    intro k ws hws hw
    obtain ⟨-, h⟩ | ⟨-, h⟩ := not_ordinary_cases (List.mem_of_getElem? hws) hw hop
    · exact .inl h
    · exact .inr h
  obtain hw | hw := List.mem_append.1 hw
  · exact .inr (.inr (hseg hfirst hw))
  · obtain rfl | hw | ⟨j, ws, -, hws, hw⟩ := hafter w hw
    · exact .inl rfl
    · exact .inr (.inl (lastPart_cases hw).symm)
    · exact .inr (.inr (hseg hws hw))

theorem count_pipe_tokens : c.tokens.count pipe + 1 = c.stages.length := by
  obtain ⟨first, rest, hstages⟩ := List.exists_cons_of_ne_nil c.stages_ne_nil
  have hfirst : first ∈ c.stages := by simp [hstages]
  have hnone : ∀ l ∈ laterSegments c rest, pipe ∉ l := by
    intro l hl
    obtain ⟨j, ws', -, hws', rfl⟩ := mem_laterSegments hstages (n := 0) hl
    exact pipe_notMem (List.mem_of_getElem? hws')
  have hlast : pipe ∉ c.lastPart := fun h => absurd (lastPart_cases h).2 (by decide)
  rw [tokens_eq hstages, intercalate_cons, List.count_append, List.count_append,
    List.count_eq_zero.2 (pipe_notMem hfirst), count_flatMap_cons hnone,
    List.count_eq_zero.2 hlast, hstages, List.length_cons]
  simp [laterSegments]

/-- The input of the line, with no other one after it. -/
theorem tokens_input {file : Word} (h : c.input = some file) :
    ∃ a b, c.tokens = a ++ less :: b ∧ less ∉ b ∧ b.head? = some file := by
  obtain ⟨first, rest, hstages⟩ := List.exists_cons_of_ne_nil c.stages_ne_nil
  have hfirst : c.stages[0]? = some first := by rw [hstages, List.getElem?_cons_zero]
  obtain ⟨before, after, htokens, -, -, -, -, hafter⟩ := tokens_stage hfirst
  have hless : less ∉ after := by
    intro hw
    obtain he | hw | ⟨j, ws, hj, hws, hw⟩ := hafter less hw
    · exact absurd he (by decide)
    · exact absurd (lastPart_cases hw).2 (by decide)
    · obtain ⟨rfl, -⟩ | ⟨-, mode, out, -, he⟩ :=
        not_ordinary_cases (List.mem_of_getElem? hws) hw (by decide)
      · exact absurd hj (Nat.lt_irrefl _)
      · exact mode.operator_spec.2.2.2.1 he.symm
  have hfile : less ≠ file := by
    rintro rfl
    exact absurd (c.input_ordinary _ h) (by decide)
  have hout : less ∉ (if 0 + 1 = c.stages.length then c.outputPart else []) := by
    intro hw
    split at hw
    · obtain ⟨mode, out, -, he⟩ := outputPart_cases hw (by decide)
      exact mode.operator_spec.2.2.2.1 he.symm
    · cases hw
  have hinput : c.inputPart = [less, file] := by rw [CommandLine.inputPart, h]
  rw [CommandLine.redirections, if_pos rfl, hinput] at htokens
  generalize (if 0 + 1 = c.stages.length then c.outputPart else []) = out at htokens hout
  by_cases horder : c.outputFirst = true
  · refine ⟨before ++ (first ++ out), file :: after, ?_, ?_, rfl⟩
    · simp [htokens, horder]
    · simp [hfile, hless]
  · refine ⟨before ++ first, file :: (out ++ after), ?_, ?_, rfl⟩
    · simp [htokens, horder]
    · simp [hfile, hless, hout]

/-- The output of the line, with no other one after it. -/
theorem tokens_output {mode : Mode} {file : Word} (h : c.output = some (mode, file)) :
    ∃ a b, c.tokens = a ++ mode.operator :: b ∧ greater ∉ b ∧ append ∉ b ∧
      b.head? = some file := by
  have hpos : 0 < c.stages.length := List.length_pos_iff.2 c.stages_ne_nil
  have hlt : c.stages.length - 1 < c.stages.length := by omega
  have hlen : c.stages.length - 1 + 1 = c.stages.length := by omega
  obtain ⟨before, after, htokens, -, -, -, hafter, -⟩ :=
    tokens_stage (List.getElem?_eq_getElem hlt)
  have hnot : ∀ op, isOrdinary op = false → op ≠ less → op ≠ ampersand → op ≠ file ∧
      op ∉ c.lastPart ∧ op ∉ (if c.stages.length - 1 = 0 then c.inputPart else []) := by
    intro op hop hless hamp
    refine ⟨?_, fun hw => hamp (lastPart_cases hw).2, fun hw => ?_⟩
    · rintro rfl
      rw [c.output_ordinary mode _ h] at hop
      cases hop
    · split at hw
      · exact hless (inputPart_cases hw hop).1
      · cases hw
  have hgreater := hnot greater (by decide) (by decide) (by decide)
  have happend := hnot append (by decide) (by decide) (by decide)
  have houtput : c.outputPart = [mode.operator, file] := by rw [CommandLine.outputPart, h]
  rw [hafter hlen, CommandLine.redirections, if_pos hlen, houtput] at htokens
  generalize (if c.stages.length - 1 = 0 then c.inputPart else []) = input
    at htokens hgreater happend
  by_cases horder : c.outputFirst = true
  · refine ⟨before ++ c.stages[c.stages.length - 1], file :: (input ++ c.lastPart), ?_, ?_, ?_, rfl⟩
    · simp [htokens, horder]
    · simp [hgreater]
    · simp [happend]
  · refine ⟨before ++ (c.stages[c.stages.length - 1] ++ input), file :: c.lastPart, ?_, ?_, ?_, rfl⟩
    · simp [htokens, horder]
    · simp [hgreater]
    · simp [happend]

/-- The variables of `eval` hold the stages, the redirections and the `&` of a line. -/
structure Describes (c : CommandLine) (s : Scan) : Prop where
  p_cnt : s.p_cnt = c.stages.length - 1
  stage : ∀ k ws, c.stages[k]? = some ws →
    ∃ j, s.pipeIndex k = some j ∧ j + ws.length < MAXARGS ∧ IsArgs s.argv j ws
  input : ∀ file, c.input = some file → s.inputRedirection = 1 ∧ s.inputPath = some (some file)
  noInput : c.input = none → s.inputRedirection = 0
  output : ∀ mode file, c.output = some (mode, file) →
    s.outputRedirection = mode.number ∧ s.outputPath = some (some file)
  noOutput : c.output = none → s.outputRedirection = 0
  background : s.background = c.background

theorem Scanned.describes {start : Scan} (hstart : start = Scan.start start.argv)
    (h : Scanned start 0 c.tokens s) (hlen : c.tokens.length < MAXARGS) : Describes c s where
  p_cnt := by
    have hcount := count_pipe_tokens (c := c)
    rw [h.p_cnt, hstart]
    change 0 + _ = _
    omega
  stage := by
    intro k ws hws
    obtain ⟨before, after, htokens, hafter, hbefore, hlater, -, -⟩ := tokens_stage hws
    have hmem := List.mem_of_getElem? hws
    have hstop := stops_append (stops_redirections c k) hafter
    have hbound : before.length + ws.length < MAXARGS := by
      rw [htokens, List.length_append, List.length_append] at hlen
      omega
    refine ⟨before.length, ?_, hbound, h.isArgs htokens (c.ordinary ws hmem) hstop⟩
    obtain ⟨first, rest, hstages⟩ := List.exists_cons_of_ne_nil c.stages_ne_nil
    obtain ⟨w, hw, hhead⟩ := tokens_head? hstages
    cases k with
    | zero =>
      rw [h.first rfl, hhead, hbefore rfl]
      simp [hw]
    | succ k =>
      obtain ⟨a, rfl, hcount⟩ := hlater k rfl
      have hne : c.tokens.head? ≠ some pipe := by
        rw [hhead]
        rintro he
        rw [Option.some_inj.1 he] at hw
        exact absurd hw (by decide)
      have hstarts := h.starts (.inr hne) a _ (htokens.trans (List.append_assoc _ _ _))
      rw [hcount, hstart] at hstarts
      rw [List.length_append, List.length_singleton]
      have hzero : (Scan.start start.argv).p_cnt + k + 1 = k + 1 := congrArg _ (Nat.zero_add k)
      rw [hzero, Nat.zero_add] at hstarts
      exact hstarts
  input := by
    intro file hfile
    obtain ⟨a, b, htokens, hless, hhead⟩ := tokens_input hfile
    have hmem : less ∈ c.tokens := by simp [htokens]
    rw [h.inputRedirection, if_pos hmem, h.input a b htokens hless, hhead]
    exact ⟨rfl, rfl⟩
  noInput := by
    intro hnone
    have hnot : less ∉ c.tokens := by
      intro hw
      obtain he | ⟨he, -⟩ | ⟨-, hsome⟩ | ⟨mode, file, -, he⟩ := operator_cases hw (by decide)
      · exact absurd he (by decide)
      · exact absurd he (by decide)
      · rw [hnone] at hsome
        cases hsome
      · exact mode.operator_spec.2.2.2.1 he.symm
    rw [h.inputRedirection, if_neg hnot, hstart]
    rfl
  output := by
    intro mode file hfile
    obtain ⟨a, b, htokens, hgreater, happend, hhead⟩ := tokens_output hfile
    obtain ⟨hop, -, -, -, -, hnumber⟩ := mode.operator_spec
    obtain ⟨hpath, hredirection⟩ := h.output a _ b htokens hop hgreater happend
    rw [hpath, hredirection, hnumber, hhead]
    exact ⟨rfl, rfl⟩
  noOutput := by
    intro hnone
    have hnot : ∀ op, op = greater ∨ op = append → op ∉ c.tokens := by
      intro op hop hw
      have hoperator : isOrdinary op = false := by
        obtain rfl | rfl := hop <;> decide
      obtain rfl | ⟨rfl, -⟩ | ⟨rfl, -⟩ | ⟨mode, file, hsome, -⟩ := operator_cases hw hoperator
      · exact absurd hop (by decide)
      · exact absurd hop (by decide)
      · exact absurd hop (by decide)
      · rw [hnone] at hsome
        cases hsome
    rw [(h.outputKept (hnot _ (.inl rfl)) (hnot _ (.inr rfl))).2, hstart]
    rfl
  background := by
    have hiff : ampersand ∈ c.tokens ↔ c.background = true := by
      constructor
      · intro hw
        obtain he | ⟨-, hb⟩ | ⟨he, -⟩ | ⟨mode, file, -, he⟩ := operator_cases hw (by decide)
        · exact absurd he (by decide)
        · exact hb
        · exact absurd he (by decide)
        · exact absurd he.symm mode.operator_spec.2.2.2.2.1
      · intro hb
        rw [CommandLine.tokens, CommandLine.lastPart, if_pos hb]
        simp
    rw [h.background, hstart]
    by_cases hb : c.background = true
    · rw [if_pos (hiff.2 hb), hb]
    · rw [if_neg (mt hiff.1 hb), Bool.eq_false_iff.2 hb]
      rfl

/-- The scan of a well-formed line of up to 127 tokens finds what the line says. -/
theorem parse_describes (c : CommandLine) {rawCmd : List UInt8} (h : tokensOf rawCmd = c.tokens)
    (hlen : c.tokens.length ≤ 127) : ∃ s, parse rawCmd = .ok s ∧ Describes c s := by
  have hlen' : c.tokens.length < MAXARGS := Nat.lt_succ_of_le hlen
  obtain ⟨first, rest, hstages⟩ := List.exists_cons_of_ne_nil c.stages_ne_nil
  have hne : c.tokens ≠ [] := by
    obtain ⟨w, -, hhead⟩ := tokens_head? hstages
    rintro hnil
    rw [hnil] at hhead
    cases hhead
  obtain ⟨s, hparse, hscan⟩ := parse_spec (h ▸ hne) (h ▸ hlen')
  rw [h] at hscan
  exact ⟨s, hparse, hscan.describes rfl hlen'⟩

/-- The line `a < b | c >> d &`. -/
def readAndAppend : CommandLine where
  stages := [[[97]], [[99]]]
  input := some [98]
  output := some (.append, [100])
  outputFirst := false
  background := true
  stages_ne_nil := by decide
  words_ne_nil := by decide
  ordinary := by decide
  input_ordinary := by
    rintro _ ⟨⟩
    decide
  output_ordinary := by
    rintro _ _ ⟨⟩
    decide

theorem parse_readAndAppend : ∃ s, parse [97, 32, 60, 32, 98, 32, 124, 32, 99, 32, 62, 62, 32, 100,
    32, 38, 10] = .ok s ∧ Describes readAndAppend s :=
  parse_describes readAndAppend (by decide) (by decide)

end Results

end Shell
