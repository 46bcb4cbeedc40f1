import Coursework.Lib.CInt
import Mathlib.Data.Int.Basic
import Mathlib.Data.List.Basic
import Mathlib.Logic.Function.Basic

/-! A search program for text files: its string functions and the four kinds of queries. The
buffers of a line and of a query are lists of bytes. `none` is what C leaves undefined: a null
pointer that is read, a place outside an allocated block, a counter that overflows. -/
namespace TextSearch
open CInt

/-- The two buffers into which pointers go. -/
inductive Area where
  | textLine
  | query
  deriving DecidableEq

structure Ptr where
  area : Area
  off : ℕ

/-- The buffers, and the static pointer of `my_strtok`. -/
structure Mem where
  bytes : Area → List ℕ
  currentPointer : Ptr

/-- The bytes from a pointer on; what lies behind a buffer reads as 0. -/
def Mem.from (m : Mem) (q : Ptr) : List ℕ := (m.bytes q.area).drop q.off

def Mem.setBytes (m : Mem) (a : Area) (l : List ℕ) : Mem :=
  { m with bytes := Function.update m.bytes a l }

theorem Mem.setBytes_self (m : Mem) (a : Area) (l : List ℕ) : (m.setBytes a l).bytes a = l := by
  change Function.update m.bytes a l a = l
  rw [Function.update_self]

theorem Mem.setBytes_of_ne (m : Mem) {a b : Area} (l : List ℕ) (h : b ≠ a) :
    (m.setBytes a l).bytes b = m.bytes b := by
  change Function.update m.bytes a l b = m.bytes b
  rw [Function.update_of_ne h]

def myStrlen (s : List ℕ) : ℕ := (s.takeWhile (· ≠ 0)).length

/-- A lower-case letter as an upper-case one. -/
def upper (c : ℕ) : ℕ := if 97 ≤ c ∧ c ≤ 122 then c - 32 else c

def isCharSame (a b : ℕ) : Bool := upper a == upper b

/-- The bytes from `s1` and `s2` on. -/
def myStrcmp : List ℕ → List ℕ → ℤ
  | [], s2 => 0 - (s2.headD 0 : ℤ)
  | a :: s1, s2 =>
    if a = 0 then 0 - (s2.headD 0 : ℤ)
    else if isCharSame a (s2.headD 0) then myStrcmp s1 s2.tail
    else (a : ℤ) - (s2.headD 0 : ℤ)

/-- The loop of `my_strtok`: how many bytes it passes, and whether it stops at a delimiter. -/
def scan (delimiters : List ℕ) : List ℕ → ℕ × Bool
  | [] => (0, false)
  | c :: s =>
    if c = 0 then (0, false)
    else if c ∈ delimiters then (0, true)
    else ((scan delimiters s).1 + 1, (scan delimiters s).2)

/-- `my_strtok`; `str` is `none` in the calls that go on with a string. -/
def myStrtok (m : Mem) (str : Option Ptr) (delimiters : List ℕ) : Mem × Option Ptr :=
  let str := str.getD m.currentPointer
  if (m.from str).headD 0 = 0 then ({ m with currentPointer := str }, none)
  else
    match scan delimiters (m.from str) with
    | (n, true) =>
      ({ m.setBytes str.area ((m.bytes str.area).set (str.off + n) 0) with
          currentPointer := ⟨str.area, str.off + n + 1⟩ }, some str)
    | (n, false) => ({ m with currentPointer := ⟨str.area, str.off + n⟩ }, some str)

/-- The bytes that `read` delivers up to a newline, and the rest of the file. -/
def readLine : List ℕ → List ℕ × List ℕ
  | [] => ([], [])
  | c :: fd => if c = 10 then ([c], fd) else (c :: (readLine fd).1, (readLine fd).2)

/-- A buffer after its first bytes have been overwritten. -/
def overwrite (dest s : List ℕ) : List ℕ := s ++ dest.drop s.length

/-- `get_string_from_fd`: the rest of the file, the buffer and the result. A newline is followed
by two null bytes, the end of the file by one. -/
def getStringFromFd (fd dest : List ℕ) : List ℕ × List ℕ × ℕ :=
  let (line, fd) := readLine fd
  let dest := overwrite dest (line ++ if line.getLast? = some 10 then [0, 0] else [0])
  (fd, dest, myStrlen dest)

/-- `" \t\n"`. -/
def blanks : List ℕ := [32, 9, 10]

/-- The loop `while (result != NULL)` that collects the further tokens of a string. -/
def moreTokens (delimiters : List ℕ) : ℕ → Mem → Option (Mem × List Ptr)
  | 0, _ => none
  | fuel + 1, m =>
    match myStrtok m none delimiters with
    | (m, none) => some (m, [])
    | (m, some result) => (moreTokens delimiters fuel m).map fun (m, l) => (m, result :: l)

/-- How many bytes of a block of `malloc` can be used: at least those asked for. -/
structure Allocator where
  usable : ℕ → ℕ
  le_usable : ∀ n, n ≤ usable n

/-- The blocks of the GNU library: 24 bytes and then 16 more at a time, whole pages for large
ones. -/
def gnuMalloc : Allocator where
  usable n :=
    if n ≤ 24 then 24
    else if n < 128 * 1024 then (n + 7) / 16 * 16 + 8
    else (n + 4111) / 4096 * 4096 - 16
  le_usable n := by
    split
    · omega
    · split <;> omega

/-- How many pointers a block of `malloc(n)` has room for. -/
def Allocator.pointers (A : Allocator) (n : ℕ) : ℕ := A.usable n / 8

/-- How many `int`s a block of `malloc(n)` has room for. -/
def Allocator.ints (A : Allocator) (n : ℕ) : ℕ := A.usable n / 4

/-- `MAX_BYTE`, the size of the lists of tokens. -/
def maxByte : ℕ := 128 * 1024

/-- The tokens of the string at `str`, in a list with room for `room` pointers. If the string is
empty the list holds a null pointer. -/
def tokenList (room : ℕ) (delimiters : List ℕ) (m : Mem) (str : Ptr) : Option (Mem × List Ptr) :=
  match myStrtok m (some str) delimiters with
  | (_, none) => none
  | (m, some result) => do
    let (m, l) ← moreTokens delimiters ((m.bytes str.area).length + 1) m
    if l.length + 1 ≤ room then some (m, result :: l) else none

/-- The loop over the lines of the file that each query makes: `body` is what it does with a line
that is not blank, `s` what it keeps from line to line, `cnt` how often it has reported. -/
def lineLoop {σ ρ : Type} (body : σ → Mem → ℕ → Option (σ × Mem × List ρ)) :
    ℕ → List ℕ → Mem → σ → ℕ → ℕ → Option (List ρ)
  | 0, _, _, _, _, _ => none
  | fuel + 1, fd, m, s, row, cnt =>
    let (fd, dest, length) := getStringFromFd fd (m.bytes .textLine)
    let m := m.setBytes .textLine dest
    if 0 < length then do
      let row ← counter (row + 1)
      if dest.headD 0 = 10 then lineLoop body fuel fd m s row cnt
      else do
        let (s, m, out) ← body s m row
        let cnt ← counter (cnt + out.length)
        let rest ← lineLoop body fuel fd m s row cnt
        some (out ++ rest)
    else some []

/-- Whether the strings at two pointers are the same for `my_strcmp`. -/
def Mem.same (m : Mem) (q r : Ptr) : Bool := myStrcmp (m.from q) (m.from r) = 0

def textStart : Ptr := ⟨.textLine, 0⟩
def queryStart : Ptr := ⟨.query, 0⟩

/-- The loop of `operate_1` over the tokens of a line. -/
def matchTokens (row : ℕ) : ℕ → Mem → Option Ptr → Option (Mem × List (ℕ × ℕ))
  | 0, _, _ => none
  | _ + 1, m, none => some (m, [])
  | fuel + 1, m, some result =>
    let found := if m.same result queryStart then [(row, result.off)] else []
    let (m, next) := myStrtok m none blanks
    (matchTokens row fuel m next).map fun (m, l) => (m, found ++ l)

def operate1Body (_ : Unit) (m : Mem) (row : ℕ) : Option (Unit × Mem × List (ℕ × ℕ)) :=
  let (m, result) := myStrtok m (some textStart) blanks
  (matchTokens row ((m.bytes .textLine).length + 2) m result).map fun (m, l) => ((), m, l)

/-- `operate_1` with the query in its buffer: the rows and columns that it reports. -/
def operate1 (fd : List ℕ) (m : Mem) : Option (List (ℕ × ℕ)) :=
  lineLoop operate1Body (fd.length + 1) fd m () 0 0

/-- `my_memset(visited, 0, sizeof(visited))`: a pointer has the size of two numbers. -/
def clearVisited (room : ℕ) (visited : ℕ → ℤ) : Option (ℕ → ℤ) :=
  if 2 ≤ room then some fun j => if j < 2 then 0 else visited j else none

/-- `visited[j] = 1` in a block with room for `room` marks. -/
def setVisited (room : ℕ) (visited : ℕ → ℤ) (j : ℕ) : Option (ℕ → ℤ) :=
  if j < room then some (Function.update visited j 1) else none

/-- The marks after the loops over the tokens of the line and of the query. -/
def markVisited (room : ℕ) (m : Mem) (texts queries : List Ptr) (visited : ℕ → ℤ) :
    Option (ℕ → ℤ) :=
  texts.foldlM (fun v t => queries.zipIdx.foldlM (fun v (q, j) =>
    if m.same t q then setVisited room v j else some v) v) visited

/-- The loop over the marks: it stops at the first that is 0. -/
def isMatched (room : ℕ) (visited : ℕ → ℤ) : List ℕ → Option Bool
  | [] => some true
  | j :: js =>
    if j < room then
      if visited j = 0 then some false else isMatched room visited js
    else none

def operate2Body (A : Allocator) (queries : List Ptr) (visited : ℕ → ℤ) (m : Mem) (row : ℕ) :
    Option ((ℕ → ℤ) × Mem × List ℕ) := do
  let room := A.ints queries.length
  let visited ← clearVisited room visited
  let (m, texts) ← tokenList (A.pointers maxByte) blanks m textStart
  let visited ← markVisited room m texts queries visited
  let matched ← isMatched room visited (List.range queries.length)
  some (visited, m, if matched then [row] else [])

/-- `operate_2`: the rows that it reports. `visited` is what the allocation of the marks finds
in memory; the block is as many bytes as the query has tokens. -/
def operate2 (A : Allocator) (visited : ℕ → ℤ) (fd : List ℕ) (m : Mem) : Option (List ℕ) := do
  let (m, queries) ← tokenList (A.pointers maxByte) blanks m queryStart
  lineLoop (operate2Body A queries) (fd.length + 1) fd m visited 0 0

def operate3Body (A : Allocator) (queries : List Ptr) (_ : Unit) (m : Mem) (row : ℕ) :
    Option (Unit × Mem × List (ℕ × ℕ)) := do
  let (m, texts) ← tokenList (A.pointers maxByte) blanks m textStart
  let found := (List.range (texts.length + 1 - queries.length)).filter fun a =>
    (List.range queries.length).all fun b =>
      m.same (texts.getD (a + b) textStart) (queries.getD b queryStart)
  some ((), m, found.map fun a => (row, (texts.getD a textStart).off))

/-- `operate_3`: the first and the last byte of the query are dropped. -/
def operate3 (A : Allocator) (fd rawQuery : List ℕ) (m : Mem) : Option (List (ℕ × ℕ)) := do
  let query := rawQuery.drop 1
  let m := m.setBytes .query (query.take (query.length - 1) ++ [0, 0])
  let (m, queries) ← tokenList (A.pointers maxByte) blanks m queryStart
  lineLoop (operate3Body A queries) (fd.length + 1) fd m () 0 0

def operate4Body (A : Allocator) (queries : List Ptr) (_ : Unit) (m : Mem) (row : ℕ) :
    Option (Unit × Mem × List ℕ) := do
  let (m, texts) ← tokenList (A.pointers maxByte) blanks m textStart
  let q0 ← queries[0]?
  let q1 ← queries[1]?
  let out := (List.range (texts.length - 2)).flatMap fun a =>
    if m.same (texts.getD a textStart) q0 then
      (List.range' (a + 2) (texts.length - (a + 2))).flatMap fun b =>
        if m.same (texts.getD b textStart) q1 then [row] else []
    else []
  some ((), m, out)

/-- `operate_4`: the rows that it reports. The query is cut at `'*'` and newlines; the block of
its tokens is `malloc(2)`. -/
def operate4 (A : Allocator) (fd : List ℕ) (m : Mem) : Option (List ℕ) := do
  let (m, queries) ← tokenList (A.pointers 2) [42, 10] m queryStart
  lineLoop (operate4Body A queries) (fd.length + 1) fd m () 0 0

/-- The memory with a string in the buffer of the query. -/
def Mem.load (m : Mem) (s : List ℕ) : Mem := m.setBytes .query (s ++ [0])

/-- A text: bytes of which none is a null byte. -/
structure Text where
  bytes : List ℕ
  no_null : 0 ∉ bytes

end TextSearch
