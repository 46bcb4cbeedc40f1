import Coursework.Lib.Circular
import Coursework.Lib.Machine
import Mathlib.Data.Fintype.Basic

/-! The console: keystrokes edit a line in a circular buffer with three indices, and processes read
what has been committed. A reader runs from where it has got the lock of the console to where it
gives it up, as it returns or goes to sleep. -/
namespace Terminal
open Circular

def inputBuf : ℕ := 128

/-- The values of a `uint`. -/
def words : ℕ := 4294967296

/-- `C('D')`, `C('H')`, `C('P')`, `C('U')`, and the other characters that are not plain. -/
def ctrlD : ℕ := 4
def ctrlH : ℕ := 8
def ctrlP : ℕ := 16
def ctrlU : ℕ := 21
def newline : ℕ := 10
def carriageReturn : ℕ := 13
def delete : ℕ := 127

/-- `input`, with the read, the write and the edit index. -/
structure Input where
  buf : ℕ → ℕ
  r : ℕ
  w : ℕ
  e : ℕ

def pred (x : ℕ) : ℕ := (x + (words - 1)) % words

def sub (x y : ℕ) : ℕ := (x + (words - y)) % words

/-- The loop of `C('U')`. It has come to `input.w` after `input.e - input.w` rounds. -/
def killLine : ℕ → Input → Input
  | 0, s => s
  | n + 1, s =>
    if s.e ≠ s.w ∧ s.buf (pred s.e % inputBuf) ≠ newline then killLine n { s with e := pred s.e }
    else s

/-- The end of `default`, and whether the readers are woken up. -/
def commit (c : ℕ) (s : Input) : Input × Bool :=
  if c = newline ∨ c = ctrlD ∨ s.e = (s.r + inputBuf) % words then ({ s with w := s.e }, true)
  else (s, false)

/-- `consoleintr` for one character. -/
def consoleintr (c : ℕ) (s : Input) : Input × Bool :=
  if c = ctrlP then (s, false)
  else if c = ctrlU then (killLine (sub s.e s.w) s, false)
  else if c = ctrlH ∨ c = delete then
    (if s.e ≠ s.w then { s with e := pred s.e } else s, false)
  else if c ≠ 0 ∧ sub s.e s.r < inputBuf then
    let c := if c = carriageReturn then newline else c
    commit c { s with
      buf := Function.update s.buf (s.e % inputBuf) c
      e := (s.e + 1) % words }
  else (s, false)

/-- How a process leaves `consoleread`. -/
inductive ReadEnd where
  | returns
  | sleeps
  | fails
  deriving DecidableEq

/-- `consoleread` with `n` bytes of `target` left to read: the bytes that it copies. -/
def consoleread (killed : Bool) (target : ℕ) : ℕ → Input → List ℕ × ReadEnd × Input
  | 0, s => ([], .returns, s)
  | n + 1, s =>
    if s.r = s.w then ([], if killed then .fails else .sleeps, s)
    else
      let c := s.buf (s.r % inputBuf)
      let s' := { s with r := (s.r + 1) % words }
      if c = ctrlD then ([], .returns, if n + 1 < target then { s' with r := pred s'.r } else s')
      else if c = newline then ([c], .returns, s')
      else
        let out := consoleread killed target n s'
        (c :: out.1, out.2)

/-- A process that reads, with the bytes that it has got so far. -/
structure Reader where
  target : ℕ
  left : ℕ
  got : List ℕ
  reading : Bool
  asleep : Bool
  killed : Bool

/-- The two functions that share the buffer. -/
structure Discipline (α : Type) where
  key : ℕ → α → α × Bool
  read : Bool → ℕ → ℕ → α → List ℕ × ReadEnd × α

/-- The buffer and its readers, with the sizes and the results of the reads that have returned. -/
structure Sys (α : Type) where
  input : α
  reader : Fin 64 → Reader
  results : List (ℕ × Option (List ℕ))

def Sys.setReader {α : Type} (s : Sys α) (i : Fin 64) (p : Reader) : Sys α :=
  { s with reader := Function.update s.reader i p }

inductive Op where
  | key (c : ℕ)
  | read (i : Fin 64) (n : ℕ)
  | run (i : Fin 64)
  | kill (i : Fin 64)

/-- Process `i` reads until it gives up the lock. -/
def turn {α : Type} (D : Discipline α) (i : Fin 64) (s : Sys α) : Sys α :=
  let p := s.reader i
  let out := D.read p.killed p.target p.left s.input
  let s' := { s with input := out.2.2 }
  if out.2.1 = .sleeps then
    s'.setReader i { p with
      left := p.left - out.1.length, got := p.got ++ out.1, asleep := true }
  else
    { s'.setReader i { p with reading := false } with
      results := s.results ++
        [(p.target, if out.2.1 = .fails then none else some (p.got ++ out.1))] }

def step {α : Type} (D : Discipline α) (s : Sys α) : Op → Sys α
  | .key c =>
    let out := D.key c s.input
    { s with
      input := out.1
      reader := fun i =>
        if out.2 then { s.reader i with asleep := false } else s.reader i }
  | .read i n =>
    if (s.reader i).reading = true then s
    else s.setReader i { s.reader i with target := n, left := n, got := [], reading := true }
  | .run i =>
    if (s.reader i).reading = true ∧ (s.reader i).asleep = false then turn D i s else s
  | .kill i => s.setReader i { s.reader i with killed := true, asleep := false }

def start {α : Type} (input : α) : Sys α :=
  ⟨input, fun _ => ⟨0, 0, [], false, false, false⟩, []⟩

/-- The console as the code has it. -/
def console : Discipline Input := ⟨consoleintr, consoleread⟩

def emptyInput : Input := ⟨fun _ => 0, 0, 0, 0⟩

/-- What was committed and not yet read, and the line that is being edited. -/
structure Lines where
  ready : List ℕ
  line : List ℕ

/-- A plain character goes to the end of the line. The line is committed by a newline, an end of
file, or when there is no room for more. -/
def Lines.key (c : ℕ) (t : Lines) : Lines × Bool :=
  if c = ctrlP then (t, false)
  else if c = ctrlU then ({ t with line := [] }, false)
  else if c = ctrlH ∨ c = delete then ({ t with line := t.line.dropLast }, false)
  else if c ≠ 0 ∧ t.ready.length + t.line.length < inputBuf then
    let c := if c = carriageReturn then newline else c
    let line := t.line ++ [c]
    if c = newline ∨ c = ctrlD ∨ t.ready.length + line.length = inputBuf then
      (⟨t.ready ++ line, []⟩, true)
    else ({ t with line := line }, false)
  else (t, false)

/-- A read takes what is ready, but not past a newline or an end of file. An end of file is taken
by a read that has got nothing before it. -/
def takeLine (killed : Bool) (target : ℕ) : ℕ → List ℕ → List ℕ × ReadEnd × List ℕ
  | 0, q => ([], .returns, q)
  | _ + 1, [] => ([], if killed then .fails else .sleeps, [])
  | n + 1, c :: q =>
    if c = ctrlD then ([], .returns, if n + 1 < target then c :: q else q)
    else if c = newline then ([c], .returns, q)
    else
      let out := takeLine killed target n q
      (c :: out.1, out.2)

def Lines.read (killed : Bool) (target n : ℕ) (t : Lines) : List ℕ × ReadEnd × Lines :=
  let out := takeLine killed target n t.ready
  (out.1, out.2.1, ⟨out.2.2, t.line⟩)

/-- What the console is for. -/
def lines : Discipline Lines := ⟨Lines.key, Lines.read⟩

/-- The buffer holds what is ready and then the line. -/
structure Refines (s : Input) (t : Lines) : Prop where
  holds : Counters.Holds inputBuf words ⟨s.buf, s.r, s.e⟩ (t.ready ++ t.line)
  w : s.w = (s.r + t.ready.length) % words
  plain : newline ∉ t.line

theorem inputBuf_dvd : inputBuf ∣ words := by decide

theorem inputBuf_lt : inputBuf < words := by decide

section Indices
variable {s : Input} {t : Lines} {q l : List ℕ} {c : ℕ}

theorem Refines.room (h : Refines s t) :
    sub s.e s.r < inputBuf ↔ t.ready.length + t.line.length < inputBuf := by
  have hsub := h.holds.sub_eq inputBuf_lt
  rw [List.length_append] at hsub
  unfold sub
  rw [hsub]

theorem Refines.editing (h : Refines s t) :
    Counters.Holds inputBuf words ⟨s.buf, s.w, s.e⟩ t.line := by
  have hr := h.holds.right inputBuf_dvd
  rwa [← h.w] at hr

theorem Refines.edited_iff (h : Refines s t) : s.e ≠ s.w ↔ t.line ≠ [] :=
  not_congr (eq_comm.trans (h.editing.empty_iff inputBuf_lt))

theorem Refines.length_line (h : Refines s t) : sub s.e s.w = t.line.length :=
  h.editing.sub_eq inputBuf_lt

theorem Refines.empty_iff (h : Refines s t) : s.r = s.w ↔ t.ready = [] := by
  have hl := h.holds.left.empty_iff inputBuf_lt
  rwa [← h.w] at hl

theorem Refines.back (h : Refines s ⟨q, l ++ [c]⟩) :
    s.buf (pred s.e % inputBuf) = c ∧ Refines { s with e := pred s.e } ⟨q, l⟩ := by
  have hholds := h.holds
  change Counters.Holds _ _ _ (q ++ (l ++ [c])) at hholds
  rw [← List.append_assoc] at hholds
  exact ⟨hholds.last inputBuf_dvd, hholds.unpush, h.w,
    fun hm => h.plain (List.mem_append_left _ hm)⟩

theorem Refines.killLine (h : Refines s ⟨q, l⟩) : Refines (killLine l.length s) ⟨q, []⟩ := by
  induction l using List.reverseRecOn generalizing s with
  | nil => exact h
  | append_singleton l c ih =>
    obtain ⟨hc, hback⟩ := h.back
    have hne : s.e ≠ s.w := h.edited_iff.2 (List.append_ne_nil_of_right_ne_nil _ (by simp))
    have hplain : c ≠ newline := by
      rintro rfl
      exact h.plain (List.mem_append_right _ (List.mem_singleton_self _))
    rw [List.length_append, List.length_singleton, Terminal.killLine,
      if_pos ⟨hne, by rwa [hc]⟩]
    exact ih hback

theorem Refines.push (h : Refines s ⟨q, l⟩) (hroom : q.length + l.length < inputBuf) (c : ℕ) :
    Counters.Holds inputBuf words
      ⟨Function.update s.buf (s.e % inputBuf) c, s.r, (s.e + 1) % words⟩ (q ++ (l ++ [c])) := by
  have hpush := h.holds.push inputBuf_dvd (by rwa [List.length_append]) c
  rwa [List.append_assoc] at hpush

theorem Refines.pop (h : Refines s ⟨c :: q, l⟩) :
    s.buf (s.r % inputBuf) = c ∧ Refines { s with r := (s.r + 1) % words } ⟨q, l⟩ := by
  have hholds := h.holds
  change Counters.Holds _ _ _ (c :: (q ++ l)) at hholds
  refine ⟨hholds.front, hholds.pop inputBuf_dvd, ?_, h.plain⟩
  change s.w = ((s.r + 1) % words + q.length) % words
  rw [h.w, Nat.mod_add_mod, List.length_cons, Nat.add_assoc, Nat.add_comm 1]

theorem pred_succ {x : ℕ} (hx : x < words) : pred ((x + 1) % words) = x := by
  unfold pred words at *
  omega

end Indices

section Calls
variable {s : Input} {t : Lines}

theorem Refines.commit {q l : List ℕ} {c : ℕ}
    (h : Counters.Holds inputBuf words ⟨s.buf, s.r, s.e⟩ (q ++ (l ++ [c])))
    (hw : s.w = (s.r + q.length) % words) (hplain : newline ∉ l) :
    let out := if c = newline ∨ c = ctrlD ∨ q.length + (l ++ [c]).length = inputBuf then
      ((⟨q ++ (l ++ [c]), []⟩ : Lines), true) else (⟨q, l ++ [c]⟩, false)
    Refines (commit c s).1 out.1 ∧ (commit c s).2 = out.2 := by
  have hfull := h.stored_eq_iff inputBuf_lt le_rfl
  rw [List.length_append] at hfull
  have hcond : (c = newline ∨ c = ctrlD ∨ s.e = (s.r + inputBuf) % words) ↔
      (c = newline ∨ c = ctrlD ∨ q.length + (l ++ [c]).length = inputBuf) :=
    or_congr_right (or_congr_right hfull)
  unfold Terminal.commit
  by_cases hc : c = newline ∨ c = ctrlD ∨ q.length + (l ++ [c]).length = inputBuf
  · rw [if_pos (hcond.2 hc), if_pos hc]
    refine ⟨⟨?_, h.stored, List.not_mem_nil⟩, rfl⟩
    change Counters.Holds _ _ _ ((q ++ (l ++ [c])) ++ [])
    rwa [List.append_nil]
  · rw [if_neg (fun hs => hc (hcond.1 hs)), if_neg hc]
    refine ⟨⟨h, hw, fun hm => ?_⟩, rfl⟩
    rcases List.mem_append.1 hm with hm | hm
    · exact hplain hm
    · exact hc (.inl (List.mem_singleton.1 hm).symm)

/-- A keystroke edits the line and wakes the readers when it commits the line. -/
theorem Refines.key (h : Refines s t) (c : ℕ) :
    Refines (consoleintr c s).1 (t.key c).1 ∧ (consoleintr c s).2 = (t.key c).2 := by
  obtain ⟨q, l⟩ := t
  unfold consoleintr Lines.key
  by_cases hP : c = ctrlP
  · rw [if_pos hP, if_pos hP]
    exact ⟨h, rfl⟩
  rw [if_neg hP, if_neg hP]
  by_cases hU : c = ctrlU
  · rw [if_pos hU, if_pos hU, h.length_line]
    exact ⟨h.killLine, rfl⟩
  rw [if_neg hU, if_neg hU]
  by_cases hH : c = ctrlH ∨ c = delete
  · rw [if_pos hH, if_pos hH]
    refine ⟨?_, rfl⟩
    rcases List.eq_nil_or_concat l with rfl | ⟨l, x, rfl⟩
    · rw [if_neg (fun he => h.edited_iff.1 he rfl)]
      exact h
    · rw [List.concat_eq_append] at h ⊢
      rw [if_pos (h.edited_iff.2 (List.append_ne_nil_of_right_ne_nil _ (by simp))),
        List.dropLast_concat]
      exact h.back.2
  rw [if_neg hH, if_neg hH]
  by_cases hc : c ≠ 0 ∧ q.length + l.length < inputBuf
  · rw [if_pos ⟨hc.1, h.room.2 hc.2⟩, if_pos hc]
    exact Refines.commit (h.push hc.2 _) h.w h.plain
  · rw [if_neg (fun hs => hc ⟨hs.1, h.room.1 hs.2⟩), if_neg hc]
    exact ⟨h, rfl⟩

theorem Refines.read (h : Refines s t) (killed : Bool) (target n : ℕ) :
    (consoleread killed target n s).1 = (t.read killed target n).1 ∧
      (consoleread killed target n s).2.1 = (t.read killed target n).2.1 ∧
      Refines (consoleread killed target n s).2.2 (t.read killed target n).2.2 := by
  obtain ⟨q, l⟩ := t
  unfold Lines.read
  induction n generalizing s q with
  | zero => exact ⟨rfl, rfl, h⟩
  | succ n ih =>
    unfold consoleread
    cases q with
    | nil =>
      rw [if_pos (h.empty_iff.2 rfl)]
      exact ⟨rfl, rfl, h⟩
    | cons c q =>
      obtain ⟨hc, hpop⟩ := h.pop
      rw [if_neg (fun he => List.cons_ne_nil _ _ (h.empty_iff.1 he))]
      dsimp only [takeLine]
      rw [hc]
      by_cases hD : c = ctrlD
      · rw [if_pos hD, if_pos hD]
        refine ⟨rfl, rfl, ?_⟩
        by_cases hn : n + 1 < target
        · rw [if_pos hn, if_pos hn, pred_succ h.holds.taken]
          exact h
        · rw [if_neg hn, if_neg hn]
          exact hpop
      rw [if_neg hD, if_neg hD]
      by_cases hN : c = newline
      · rw [if_pos hN, if_pos hN]
        exact ⟨rfl, rfl, hpop⟩
      · rw [if_neg hN, if_neg hN]
        obtain ⟨h₁, h₂, h₃⟩ := ih q hpop
        exact ⟨congrArg (c :: ·) h₁, h₂, h₃⟩

end Calls

/-- The console and the lines have the same readers and the same results. -/
structure Matches (s : Sys Input) (t : Sys Lines) : Prop where
  input : Refines s.input t.input
  reader : s.reader = t.reader
  results : s.results = t.results

theorem Matches.step {s : Sys Input} {t : Sys Lines} (h : Matches s t) (op : Op) :
    Matches (step console s op) (step lines t op) := by
  cases op with
  | key c =>
    obtain ⟨hinput, hwoken⟩ := h.input.key c
    refine ⟨hinput, ?_, h.results⟩
    change (fun i => if (consoleintr c s.input).2 = true then _ else _) =
      fun i => if (t.input.key c).2 = true then _ else _
    rw [hwoken, h.reader]
  | read i n =>
    change Matches (if _ then _ else _) (if _ then _ else _)
    rw [h.reader]
    split
    · exact h
    · exact ⟨h.input, congrArg (Function.update · i _) h.reader, h.results⟩
  | run i =>
    change Matches (if _ then _ else _) (if _ then _ else _)
    rw [h.reader]
    split
    · obtain ⟨h₁, h₂, h₃⟩ := h.input.read (t.reader i).killed (t.reader i).target (t.reader i).left
      unfold turn
      rw [h.reader]
      dsimp only [console, lines]
      rw [h₁, h₂]
      split
      · exact ⟨h₃, rfl, h.results⟩
      · exact ⟨h₃, rfl, congrArg (· ++ _) h.results⟩
    · exact h
  | kill i =>
    refine ⟨h.input, ?_, h.results⟩
    change Function.update _ _ _ = Function.update _ _ _
    rw [h.reader]

/-- The circular buffer with its three indices, which wrap, implements the lines: whatever is typed
and whoever reads, every reader gets what it would get from the lines. -/
theorem console_matches (ops : List Op) :
    Matches (Machine.run (step console) (start emptyInput) ops)
      (Machine.run (step lines) (start ⟨[], []⟩) ops) :=
  Machine.simulation (P := fun _ _ => True) (fun _ _ op h _ => h.step op) ops _ _
    ⟨⟨Counters.holds_nil _ (by decide), rfl, List.not_mem_nil⟩, rfl, rfl⟩
    (Machine.along_of_forall (fun _ _ _ => trivial) _)

section Reads
variable {q : List ℕ}

/-- What a read copies is part of one line. -/
theorem takeLine_bytes (killed : Bool) (target n : ℕ) (q : List ℕ) :
    (takeLine killed target n q).1.length ≤ n ∧ ctrlD ∉ (takeLine killed target n q).1 ∧
      newline ∉ (takeLine killed target n q).1.dropLast ∧
      ((takeLine killed target n q).2.1 ≠ .returns → newline ∉ (takeLine killed target n q).1) := by
  induction n generalizing q with
  | zero => exact ⟨le_rfl, List.not_mem_nil, List.not_mem_nil, fun _ => List.not_mem_nil⟩
  | succ n ih =>
    cases q with
    | nil => exact ⟨Nat.zero_le _, List.not_mem_nil, List.not_mem_nil, fun _ => List.not_mem_nil⟩
    | cons c q =>
      dsimp only [takeLine]
      by_cases hD : c = ctrlD
      · rw [if_pos hD]
        exact ⟨Nat.zero_le _, List.not_mem_nil, List.not_mem_nil, fun _ => List.not_mem_nil⟩
      rw [if_neg hD]
      by_cases hN : c = newline
      · rw [if_pos hN]
        refine ⟨Nat.succ_pos _, fun hm => ?_, List.not_mem_nil, fun hr => absurd rfl hr⟩
        exact hD (List.mem_singleton.1 hm).symm
      · rw [if_neg hN]
        obtain ⟨hlen, hnoD, hdrop, hnone⟩ := ih q
        refine ⟨Nat.succ_le_succ hlen, fun hm => ?_, fun hm => ?_, fun hr hm => ?_⟩
        · rcases List.mem_cons.1 hm with hm | hm
          · exact hD hm.symm
          · exact hnoD hm
        · by_cases hnil : (takeLine killed target n q).1 = []
          · rw [hnil] at hm
            exact List.not_mem_nil hm
          · rw [List.dropLast_cons_of_ne_nil hnil] at hm
            rcases List.mem_cons.1 hm with hm | hm
            · exact hN hm.symm
            · exact hdrop hm
        · rcases List.mem_cons.1 hm with hm | hm
          · exact hN hm.symm
          · exact hnone hr hm

/-- A read that does not return has taken everything that was ready. -/
theorem takeLine_rest (killed : Bool) (target n : ℕ)
    (h : (takeLine killed target n q).2.1 ≠ .returns ∨ q = []) :
    (takeLine killed target n q).2.2 = [] := by
  induction n generalizing q with
  | zero =>
    rcases h with h | h
    · exact absurd rfl h
    · exact h
  | succ n ih =>
    cases q with
    | nil => rfl
    | cons c q =>
      dsimp only [takeLine] at h ⊢
      by_cases hD : c = ctrlD
      · rw [if_pos hD] at h
        rcases h with h | h
        · exact absurd rfl h
        · cases h
      rw [if_neg hD] at h ⊢
      by_cases hN : c = newline
      · rw [if_pos hN] at h
        rcases h with h | h
        · exact absurd rfl h
        · cases h
      · rw [if_neg hN] at h ⊢
        refine ih (h.imp id fun hc => ?_)
        cases hc

theorem key_ready {t : Lines} {c : ℕ} (h : (t.key c).2 = false) : (t.key c).1.ready = t.ready := by
  unfold Lines.key at h ⊢
  dsimp only at h ⊢
  split_ifs at h ⊢ <;> rfl

end Reads

/-- The bytes that a read of `target` bytes has got so far: no line has ended in them. -/
structure Reader.Within (p : Reader) : Prop where
  size : p.got.length + p.left ≤ p.target
  noEnd : ctrlD ∉ p.got
  noLine : newline ∉ p.got

/-- The bytes are at most one line. -/
def OneLine (target : ℕ) (bytes : List ℕ) : Prop :=
  bytes.length ≤ target ∧ ctrlD ∉ bytes ∧ newline ∉ bytes.dropLast

structure Sound (t : Sys Lines) : Prop where
  asleep : ∀ i, (t.reader i).asleep = true → t.input.ready = []
  within : ∀ i, (t.reader i).reading = true → (t.reader i).Within
  results : ∀ x ∈ t.results, ∀ bytes, x.2 = some bytes → OneLine x.1 bytes

section Readers
variable {t : Sys Lines} {i : Fin 64} {p : Reader}

theorem Reader.Within.oneLine {killed : Bool} {q : List ℕ} (h : p.Within) :
    OneLine p.target (p.got ++ (takeLine killed p.target p.left q).1) := by
  obtain ⟨hlen, hnoD, hdrop, -⟩ := takeLine_bytes killed p.target p.left q
  have hsize := h.size
  refine ⟨by rw [List.length_append]; omega, fun hm => ?_, fun hm => ?_⟩
  · exact (List.mem_append.1 hm).elim h.noEnd hnoD
  · by_cases hnil : (takeLine killed p.target p.left q).1 = []
    · rw [hnil, List.append_nil] at hm
      exact h.noLine (List.mem_of_mem_dropLast hm)
    · rw [List.dropLast_append_of_ne_nil hnil] at hm
      exact (List.mem_append.1 hm).elim h.noLine hdrop

theorem Sound.put (h : Sound t) (hasleep : p.asleep = true → t.input.ready = [])
    (hwithin : p.reading = true → p.Within) : Sound (t.setReader i p) := by
  have hcases : ∀ j, (t.setReader i p).reader j = p ∨ (t.setReader i p).reader j = t.reader j := by
    intro j
    by_cases hj : j = i
    · subst hj
      exact .inl (Function.update_self ..)
    · exact .inr (Function.update_of_ne hj ..)
  refine ⟨fun j hj => ?_, fun j hj => ?_, h.results⟩
  · rcases hcases j with hp | hp <;> rw [hp] at hj
    · exact hasleep hj
    · exact h.asleep j hj
  · rcases hcases j with hp | hp <;> rw [hp] at hj ⊢
    · exact hwithin hj
    · exact h.within j hj

theorem Sound.key (h : Sound t) (c : ℕ) : Sound (step lines t (.key c)) := by
  unfold step
  dsimp only [lines]
  cases hwoken : (t.input.key c).2 with
  | true =>
    refine ⟨fun i hi => absurd hi Bool.false_ne_true, fun i hi => ?_, h.results⟩
    exact ⟨(h.within i hi).size, (h.within i hi).noEnd, (h.within i hi).noLine⟩
  | false =>
    refine ⟨fun i hi => ?_, fun i hi => h.within i hi, h.results⟩
    exact (key_ready hwoken).trans (h.asleep i hi)

theorem Sound.turn (h : Sound t) (hreading : (t.reader i).reading = true) :
    Sound (turn lines i t) := by
  have hw := h.within i hreading
  have hrest := @takeLine_rest t.input.ready (t.reader i).killed (t.reader i).target
    (t.reader i).left
  -- the others sleep only when nothing is ready, and then nothing is ready after the turn
  have hothers : ∀ r : List (ℕ × Option (List ℕ)),
      (∀ x ∈ r, ∀ bytes, x.2 = some bytes → OneLine x.1 bytes) →
      Sound ⟨(t.input.read (t.reader i).killed (t.reader i).target (t.reader i).left).2.2,
        t.reader, r⟩ :=
    fun r hr => ⟨fun j hj => hrest (.inr (h.asleep j hj)), h.within, hr⟩
  obtain ⟨hlen, hnoD, -, hnone⟩ := takeLine_bytes (t.reader i).killed (t.reader i).target
    (t.reader i).left t.input.ready
  unfold Terminal.turn
  dsimp only [lines]
  split
  next hsleeps =>
    change (takeLine _ _ _ _).2.1 = _ at hsleeps
    have hne : (takeLine (t.reader i).killed (t.reader i).target (t.reader i).left
        t.input.ready).2.1 ≠ .returns := by
      rw [hsleeps]
      exact ReadEnd.noConfusion
    refine (hothers t.results h.results).put (fun _ => hrest (.inl hne)) fun _ => ⟨?_, ?_, ?_⟩
    · have hsize := hw.size
      change ((t.reader i).got ++ (takeLine _ _ _ _).1).length +
        ((t.reader i).left - (takeLine _ _ _ _).1.length) ≤ (t.reader i).target
      rw [List.length_append]
      omega
    · exact fun hm => (List.mem_append.1 hm).elim hw.noEnd hnoD
    · exact fun hm => (List.mem_append.1 hm).elim hw.noLine (hnone hne)
  next =>
    change Sound (Sys.setReader ⟨_, t.reader, t.results ++ [_]⟩ i
      { t.reader i with reading := false })
    refine Sound.put (hothers _ fun x hx bytes hbytes => ?_) (fun ha => ?_) fun hr => ?_
    · rcases List.mem_append.1 hx with hx | hx
      · exact h.results x hx bytes hbytes
      · rw [List.mem_singleton.1 hx] at hbytes ⊢
        change (if _ then none else _) = some bytes at hbytes
        split at hbytes
        · cases hbytes
        · rw [← Option.some.inj hbytes]
          exact hw.oneLine
    · exact hrest (.inr (h.asleep i ha))
    · exact absurd hr Bool.false_ne_true

theorem Sound.step (h : Sound t) (op : Op) : Sound (step lines t op) := by
  cases op with
  | key c => exact h.key c
  | read i n =>
    change Sound (if _ then _ else _)
    split
    · exact h
    · exact h.put (h.asleep i) fun _ => ⟨(Nat.zero_add n).le, List.not_mem_nil, List.not_mem_nil⟩
  | run i =>
    change Sound (if _ then _ else _)
    split
    next hi => exact h.turn hi.1
    next => exact h
  | kill i =>
    exact h.put (fun ha => absurd ha Bool.false_ne_true) fun hr =>
      ⟨(h.within i hr).size, (h.within i hr).noEnd, (h.within i hr).noLine⟩

end Readers

theorem sound_run (ops : List Op) : Sound (Machine.run (step lines) (start ⟨[], []⟩) ops) :=
  Machine.invariant (P := fun _ _ => True) (fun _ op h _ => h.step op) ops _
    ⟨fun _ _ => rfl, fun _ hr => absurd hr Bool.false_ne_true,
      fun _ hx => absurd hx List.not_mem_nil⟩
    (Machine.along_of_forall (fun _ _ _ => trivial) _)

/-- Each read returns at most one line. -/
theorem reads_one_line (ops : List Op) :
    ∀ x ∈ (Machine.run (step console) (start emptyInput) ops).results,
      ∀ bytes, x.2 = some bytes → OneLine x.1 bytes := by
  rw [(console_matches ops).results]
  exact (sound_run ops).results

theorem reads_one_line_typed : OneLine 5 [97, newline] :=
  reads_one_line [.read ⟨0, Nat.zero_lt_succ 63⟩ 5, .run ⟨0, Nat.zero_lt_succ 63⟩, .key 97,
    .key carriageReturn, .run ⟨0, Nat.zero_lt_succ 63⟩] (5, some [97, newline]) (by decide) _ rfl

/-- No wakeup of a reader is lost: a process sleeps only while nothing is committed. -/
theorem asleep_nothing_committed (ops : List Op) (i : Fin 64)
    (hi : ((Machine.run (step console) (start emptyInput) ops).reader i).asleep = true) :
    (Machine.run (step console) (start emptyInput) ops).input.r =
      (Machine.run (step console) (start emptyInput) ops).input.w := by
  have h := console_matches ops
  rw [h.reader] at hi
  exact h.input.empty_iff.2 ((sound_run ops).asleep i hi)

theorem asleep_nothing_committed_edited :
    (Machine.run (step console) (start emptyInput)
      [.read ⟨0, Nat.zero_lt_succ 63⟩ 5, .run ⟨0, Nat.zero_lt_succ 63⟩, .key 97]).input.r = 0 ∧
    (Machine.run (step console) (start emptyInput)
      [.read ⟨0, Nat.zero_lt_succ 63⟩ 5, .run ⟨0, Nat.zero_lt_succ 63⟩, .key 97]).input.w = 0 :=
  have h := asleep_nothing_committed _ ⟨0, Nat.zero_lt_succ 63⟩
    (by decide : ((Machine.run (step console) (start emptyInput) [.read ⟨0, Nat.zero_lt_succ 63⟩ 5,
      .run ⟨0, Nat.zero_lt_succ 63⟩, .key 97]).reader ⟨0, Nat.zero_lt_succ 63⟩).asleep = true)
  ⟨rfl, h.symm.trans rfl⟩

end Terminal
