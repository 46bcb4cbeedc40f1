import Coursework.Lib.Tokens
import Mathlib.Logic.Function.Basic

/-! A command line of the minishell: `eval` cuts it into tokens, scans them for operators and
starts the stages. An access that C leaves undefined is a fault. -/
namespace Shell
open Tokens

def MAXARGS : ℕ := 128

abbrev Word := List UInt8

/-- A pointer to a string, or `NULL`. -/
abbrev Ptr := Option Word

inductive Fault where
  | outOfBounds
  | nullPointer
  | unset
  deriving DecidableEq

/-- The entries of an array of `MAXARGS` that have been set. -/
abbrev Entries (α : Type) := ℕ → Option α

section Access
variable {α : Type}

/-- The value of a variable, which must have been set. -/
def fetch : Option α → Except Fault α
  | some v => .ok v
  | none => .error .unset

def load (a : Entries α) (i : ℕ) : Except Fault α :=
  if i < MAXARGS then fetch (a i) else .error .outOfBounds

def store (a : Entries α) (i : ℕ) (v : α) : Except Fault (Entries α) :=
  if i < MAXARGS then .ok (Function.update a i (some v)) else .error .outOfBounds

/-- What `strcmp`, `open` and `execv` do with a pointer first. -/
def deref : Ptr → Except Fault Word
  | some w => .ok w
  | none => .error .nullPointer

end Access

section Tokenizing

/-- The bytes of `" \t\n"`. -/
def isBlank (c : UInt8) : Bool := c = 32 ∨ c = 9 ∨ c = 10

/-- A call of `strtok`, with the place from which it goes on. -/
def strtok (save : List UInt8) : Ptr × List UInt8 :=
  match save.dropWhile isBlank with
  | [] => (none, [])
  | c :: s => (some (run isBlank (c :: s)), (c :: s).drop ((run isBlank (c :: s)).length + 1))

/-- The loop that fills `argv`. -/
def collect (argv : Entries Ptr) (argc : ℕ) (save : List UInt8) :
    Except Fault (Entries Ptr × ℕ) :=
  if argc < MAXARGS then
    match strtok save with
    | (none, _) => .ok (Function.update argv argc (some none), argc)
    | (some w, save) => collect (Function.update argv argc (some (some w))) (argc + 1) save
  else .error .outOfBounds
termination_by MAXARGS - argc

/-- `argv` and `argc` of a command line. -/
def tokenize (rawCmd : List UInt8) : Except Fault (Entries Ptr × ℕ) := do
  let (w, save) := strtok rawCmd
  let argv ← store (fun _ => none) 0 w
  let (argv, argc) ← if w = none then .ok (argv, 1) else collect argv 1 save
  let argv ← store argv argc none
  return (argv, argc)

end Tokenizing

section Scanning

/-- The operators `|`, `<`, `>`, `>>` and `&`. -/
def pipe : Word := [124]
def less : Word := [60]
def greater : Word := [62]
def append : Word := [62, 62]
def ampersand : Word := [38]

/-- The variables of `eval` after the tokenizing. -/
structure Scan where
  argv : Entries Ptr
  pipeIndex : Entries ℕ
  p_cnt : ℕ
  inputPath : Option Ptr
  outputPath : Option Ptr
  inputRedirection : ℕ
  outputRedirection : ℕ
  background : Bool

def Scan.start (argv : Entries Ptr) : Scan where
  argv := argv
  pipeIndex := fun _ => none
  p_cnt := 0
  inputPath := none
  outputPath := none
  inputRedirection := 0
  outputRedirection := 0
  background := false

/-- What the loop does with the token at `i`. -/
def Scan.step (s : Scan) (i : ℕ) (w : Word) : Except Fault Scan :=
  if w = pipe then do
    let argv ← store s.argv i none
    let pipeIndex ← store s.pipeIndex (s.p_cnt + 1) (i + 1)
    return { s with argv := argv, pipeIndex := pipeIndex, p_cnt := s.p_cnt + 1 }
  else if w = less then do
    let argv ← store s.argv i none
    let path ← load argv (i + 1)
    return { s with argv := argv, inputPath := some path, inputRedirection := 1 }
  else if w = greater then do
    let argv ← store s.argv i none
    let path ← load argv (i + 1)
    return { s with argv := argv, outputPath := some path, outputRedirection := 1 }
  else if w = append then do
    let argv ← store s.argv i none
    let path ← load argv (i + 1)
    return { s with argv := argv, outputPath := some path, outputRedirection := 2 }
  else if w = ampersand then do
    let argv ← store s.argv i none
    return { s with argv := argv, background := true }
  else do
    let pipeIndex ← store s.pipeIndex i i
    return { s with pipeIndex := pipeIndex }

/-- The loop over the tokens, up to the first null. -/
def Scan.loop (s : Scan) (i : ℕ) : Except Fault Scan :=
  if i < MAXARGS then
    match s.argv i with
    | none => .error .unset
    | some none => .ok s
    | some (some w) => (s.step i w).bind fun s => s.loop (i + 1)
  else .error .outOfBounds
termination_by MAXARGS - i

/-- The tokenizing and the scan of a command line, without the builtin commands. -/
def parse (rawCmd : List UInt8) : Except Fault Scan := do
  let (argv, _) ← tokenize rawCmd
  (Scan.start argv).loop 0

end Scanning

section Running

/-- What the system answers: which `fork` calls and which `open` calls succeed. -/
structure Answers where
  forks : ℕ → Bool
  canRead : Word → Bool
  canWrite : Word → Bool

/-- A child opens the input of the first stage; it tells if the child goes on. -/
def Scan.openInput (a : Answers) (s : Scan) (i : ℕ) : Except Fault Bool :=
  if i = 0 ∧ s.inputRedirection = 1 then do
    let path ← fetch s.inputPath
    let file ← deref path
    return a.canRead file
  else .ok true

/-- A child opens the output of the last stage. -/
def Scan.openOutput (a : Answers) (s : Scan) (i : ℕ) : Except Fault Bool :=
  if i = s.p_cnt ∧ 0 < s.outputRedirection then
    if s.outputRedirection = 1 ∨ s.outputRedirection = 2 then do
      let path ← fetch s.outputPath
      let file ← deref path
      return a.canWrite file
    else .ok false
  else .ok true

/-- `my_execv` compares its first argument with the names of the commands first. -/
def myExecv (argv : Entries Ptr) (i : ℕ) : Except Fault Unit := do
  let file ← load argv i
  let _ ← deref file
  return ()

/-- The child of stage `i`. -/
def Scan.stage (a : Answers) (s : Scan) (i : ℕ) : Except Fault Unit :=
  if a.forks i then do
    let input ← s.openInput a i
    if input then
      let output ← s.openOutput a i
      if output then
        let start ← load s.pipeIndex i
        myExecv s.argv start
  else .ok ()

/-- The first `n` stages. -/
def Scan.stages (a : Answers) (s : Scan) : ℕ → Except Fault Unit
  | 0 => .ok ()
  | n + 1 => do
    s.stages a n
    s.stage a n

/-- The words `exit` and `cd`. -/
def exitWord : Word := [101, 120, 105, 116]
def cdWord : Word := [99, 100]

/-- `builtin_command` tells if the command was a builtin one; `exit` ends the shell. -/
def builtinCommand (argv : Entries Ptr) (argc : ℕ) : Except Fault Bool := do
  let file ← load argv 0
  let w ← deref file
  if w = exitWord then
    if argc = 1 then return true
    let arg ← load argv 1
    let _ ← deref arg
    return true
  else if w = cdWord then
    if argc ≠ 2 then return true
    let arg ← load argv 1
    let _ ← deref arg
    return true
  else return false

/-- A command line; the arrays are local, so that clearing them at the end has no effect. -/
def eval (a : Answers) (rawCmd : List UInt8) : Except Fault Unit := do
  let (argv, argc) ← tokenize rawCmd
  let builtin ← builtinCommand argv argc
  if builtin then return ()
  let s ← (Scan.start argv).loop 0
  s.stages a (s.p_cnt + 1)

end Running

end Shell
