import Mathlib.Data.Nat.Notation
import Mathlib.Logic.Function.Basic
import Mathlib.Logic.Relation

/-! The pipelines of the minishell: `eval` makes a pipe, forks a stage, closes its copies of
the previous pipe, and waits for the stage before it goes on to the next one. -/
namespace Shell

/-- What a program does next; `read` gets `none` at the end of its input. -/
inductive Action (S : Type*) where
  | exit
  | read (k : Option UInt8 → S)
  | write (b : UInt8) (next : S)

/-- A foreground pipeline with the stages 0 to `p_cnt`, which are states of programs. The
first stage reads `stdin`, and every pipe holds `capacity` bytes. -/
structure Pipeline (S : Type*) where
  next : S → Action S
  stages : ℕ → S
  p_cnt : ℕ
  capacity : ℕ
  stdin : List UInt8

/-- A child of the shell; `forked` is the time before its `dup2` and `close` calls. -/
inductive Child (S : Type*) where
  | unborn
  | forked
  | running (st : S)
  | exited

def Child.isExited {S : Type*} : Child S → Bool
  | .exited => true
  | _ => false

/-- The next call of `eval` in a round of its loop. -/
inductive Point where
  | pipe
  | fork
  | close
  | wait
  | done
  deriving DecidableEq

/-- The system: the round of `eval`, the children, who has which ends of which pipe open
(`none` is the shell), and the bytes in the pipes, in the input and in the output. -/
structure Sys (S : Type*) where
  i : ℕ
  point : Point
  child : ℕ → Child S
  reader : Option ℕ → ℕ → Bool
  writer : Option ℕ → ℕ → Bool
  pipe : ℕ → List UInt8
  stdin : List UInt8
  stdout : List UInt8

variable {S : Type*}

namespace Sys

def setChild (s : Sys S) (q : ℕ) (c : Child S) : Sys S :=
  { s with child := Function.update s.child q c }

/-- The process has both ends of the pipe open, or neither. -/
def setEnds (s : Sys S) (p : Option ℕ) (j : ℕ) (b : Bool) : Sys S :=
  { s with
    reader := Function.update s.reader p (Function.update (s.reader p) j b)
    writer := Function.update s.writer p (Function.update (s.writer p) j b) }

/-- A child gets copies of the ends that the shell has open. -/
def inherit (s : Sys S) (q : ℕ) : Sys S :=
  { s with
    reader := Function.update s.reader (some q) (s.reader none)
    writer := Function.update s.writer (some q) (s.writer none) }

/-- A child that has exited has no ends open. -/
def exitChild (s : Sys S) (q : ℕ) : Sys S :=
  { s with
    child := Function.update s.child q .exited
    reader := Function.update s.reader (some q) fun _ => false
    writer := Function.update s.writer (some q) fun _ => false }

/-- Where a stage reads from. -/
def source (s : Sys S) (q : ℕ) : List UInt8 := if q = 0 then s.stdin else s.pipe (q - 1)

def setSource (s : Sys S) (q : ℕ) (bytes : List UInt8) : Sys S :=
  if q = 0 then { s with stdin := bytes }
  else { s with pipe := Function.update s.pipe (q - 1) bytes }

end Sys

namespace Pipeline
variable (P : Pipeline S)

def start : Sys S where
  i := 0
  point := .pipe
  child := fun _ => .unborn
  reader := fun _ _ => false
  writer := fun _ _ => false
  pipe := fun _ => []
  stdin := P.stdin
  stdout := []

/-- Where a stage writes to. -/
def sink (s : Sys S) (q : ℕ) : List UInt8 := if q < P.p_cnt then s.pipe q else s.stdout

def setSink (s : Sys S) (q : ℕ) (bytes : List UInt8) : Sys S :=
  if q < P.p_cnt then { s with pipe := Function.update s.pipe q bytes }
  else { s with stdout := bytes }

/-- Some process has the write end of a pipe open. -/
def hasWriter (s : Sys S) (j : ℕ) : Bool :=
  s.writer none j || (List.range (P.p_cnt + 1)).any fun q => s.writer (some q) j

def hasReader (s : Sys S) (j : ℕ) : Bool :=
  s.reader none j || (List.range (P.p_cnt + 1)).any fun q => s.reader (some q) j

/-- The `dup2` and `close` calls of a child: of the pipe before it, it keeps the read end, and
of the pipe after it, the write end. -/
def setup (s : Sys S) (q : ℕ) : Sys S :=
  { s with
    child := Function.update s.child q (.running (P.stages q))
    reader := Function.update s.reader (some q) fun j =>
      if 0 < q ∧ j + 1 = q then true
      else if q < P.p_cnt ∧ j = q then false
      else s.reader (some q) j
    writer := Function.update s.writer (some q) fun j =>
      if 0 < q ∧ j + 1 = q then false
      else if q < P.p_cnt ∧ j = q then true
      else s.writer (some q) j }

/-- The next step of the shell, if it is not blocked. -/
def moveShell (s : Sys S) : Option (Sys S) :=
  match s.point with
  | .pipe =>
    some { (if s.i < P.p_cnt then s.setEnds none s.i true else s) with point := .fork }
  | .fork => some { (s.inherit s.i).setChild s.i .forked with point := .close }
  | .close =>
    some { (if 0 < s.i then s.setEnds none (s.i - 1) false else s) with point := .wait }
  | .wait =>
    if (s.child s.i).isExited then
      if s.i < P.p_cnt then some { s with i := s.i + 1, point := .pipe }
      else some { s with point := .done }
    else none
  | .done => none

/-- The next step of a running stage, if it is not blocked. A write to a pipe that nobody can
read kills the stage. -/
def moveStage (s : Sys S) (q : ℕ) : Action S → Option (Sys S)
  | .exit => some (s.exitChild q)
  | .read k =>
    match s.source q with
    | b :: bytes => some ((s.setSource q bytes).setChild q (.running (k (some b))))
    | [] =>
      if 0 < q ∧ P.hasWriter s (q - 1) then none else some (s.setChild q (.running (k none)))
  | .write b st =>
    if q < P.p_cnt ∧ ¬P.hasReader s q then some (s.exitChild q)
    else if q < P.p_cnt ∧ P.capacity ≤ (s.pipe q).length then none
    else some ((P.setSink s q (P.sink s q ++ [b])).setChild q (.running st))

/-- The next step of a process, if it is neither blocked nor finished. -/
def move (s : Sys S) : Option ℕ → Option (Sys S)
  | none => P.moveShell s
  | some q =>
    match s.child q with
    | .unborn => none
    | .forked => some (P.setup s q)
    | .running st => P.moveStage s q (P.next st)
    | .exited => none

/-- The states of all interleavings. -/
def Reachable (s : Sys S) : Prop :=
  Relation.ReflTransGen (fun s s' => ∃ p, P.move s p = some s') P.start s

end Pipeline

/-- A process that exists and has not finished. -/
def Sys.Unfinished (s : Sys S) : Option ℕ → Prop
  | none => s.point ≠ .done
  | some q => s.child q = .forked ∨ ∃ st, s.child q = .running st

/-- Some process is unfinished, and every unfinished process is blocked. -/
def Pipeline.Deadlocked (P : Pipeline S) (s : Sys S) : Prop :=
  (∃ p, s.Unfinished p) ∧ ∀ p, s.Unfinished p → P.move s p = none

/-- A program that reads this input and writes this output until it exits. -/
inductive Runs (next : S → Action S) : S → List UInt8 → List UInt8 → Prop
  | exit {st : S} {input : List UInt8} (h : next st = .exit) : Runs next st input []
  | read {st : S} {b : UInt8} {input output : List UInt8} {k : Option UInt8 → S}
      (h : next st = .read k) (hk : Runs next (k (some b)) input output) :
      Runs next st (b :: input) output
  | eof {st : S} {output : List UInt8} {k : Option UInt8 → S}
      (h : next st = .read k) (hk : Runs next (k none) [] output) : Runs next st [] output
  | write {st next' : S} {b : UInt8} {input output : List UInt8}
      (h : next st = .write b next') (hn : Runs next next' input output) :
      Runs next st input (b :: output)

/-- The input of a stage, given the outputs of all. -/
def Pipeline.input (P : Pipeline S) (out : ℕ → List UInt8) (q : ℕ) : List UInt8 :=
  if q = 0 then P.stdin else out (q - 1)

end Shell
