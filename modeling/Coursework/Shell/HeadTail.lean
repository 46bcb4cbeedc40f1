import Coursework.Lib.CInt
import Coursework.Lib.LineBreaks

/-! The commands `head` and `tail`: what they print of a file, from the first `read` on. -/
namespace Shell
open CInt LineBreaks

/-- The byte `'\n'`. -/
def newline : UInt8 := 10

namespace Head

/-- The loop of `main`, with the bytes that are still to be read. -/
def loop (K : ℤ) : ℤ → List UInt8 → Option (List UInt8)
  | _, [] => some []
  | lineCnt, tmp :: file =>
    if tmp = newline then do
      let lineCnt ← checked (lineCnt + 1)
      if lineCnt = K then some [tmp] else
        let out ← loop K lineCnt file
        some (tmp :: out)
    else do
      let out ← loop K lineCnt file
      some (tmp :: out)

end Head

/-- What `head` prints of a file. -/
def head (K : ℤ) (file : List UInt8) : Option (List UInt8) := Head.loop K 0 file

namespace Tail

/-- The first loop of `main`, which counts the newlines. -/
def count : ℤ → List UInt8 → Option ℤ
  | totalLineCnt, [] => some totalLineCnt
  | totalLineCnt, tmp :: file =>
    if tmp = newline then do
      let totalLineCnt ← checked (totalLineCnt + 1)
      count totalLineCnt file
    else count totalLineCnt file

/-- The second loop of `main`. -/
def loop (K totalLineCnt : ℤ) : ℤ → List UInt8 → Option (List UInt8)
  | _, [] => some []
  | lineCnt, tmp :: file => do
    let sum ← checked (lineCnt + K)
    let lineCnt ← if tmp = newline then checked (lineCnt + 1) else some lineCnt
    let out ← loop K totalLineCnt lineCnt file
    some (if totalLineCnt < sum then tmp :: out else out)

end Tail

/-- What `tail` prints of a file, which it reads twice. -/
def tail (K : ℤ) (file : List UInt8) : Option (List UInt8) := do
  let totalLineCnt ← Tail.count 0 file
  Tail.loop K totalLineCnt 0 file

section Loops
variable {K c : ℕ} {t : ℤ} {tmp : UInt8} {file : List UInt8}

theorem Head.loop_newline (hc : c + 1 < 2 ^ 31) : Head.loop K c (newline :: file) =
    if c + 1 = K then some [newline]
    else (Head.loop K (c + 1 : ℕ) file).map (newline :: ·) := by
  have hcheck : checked ((c : ℤ) + 1) = some ((c + 1 : ℕ) : ℤ) := checked_natCast hc
  rw [Head.loop, if_pos rfl, hcheck]
  by_cases hlast : c + 1 = K
  · simp [hlast]
  · have hlast' : ((c + 1 : ℕ) : ℤ) ≠ K := fun e => hlast (Int.ofNat.inj e)
    simp only [Option.bind_eq_bind, Option.bind_some, if_neg hlast, if_neg hlast']
    rw [Option.map_eq_bind]
    rfl

theorem Head.loop_other (htmp : tmp ≠ newline) :
    Head.loop K c (tmp :: file) = (Head.loop K c file).map (tmp :: ·) := by
  rw [Head.loop, if_neg htmp, Option.map_eq_bind]
  rfl

theorem Head.loop_eq (hK : K < 2 ^ 31) (hc : c < K) :
    Head.loop K c file = some ((lines newline file).take (K - c)).flatten := by
  induction file generalizing c with
  | nil => simp [Head.loop]
  | cons tmp file ih =>
    have hsucc : K - c = K - c - 1 + 1 := by omega
    rw [hsucc, flatten_take_cons, ← hsucc]
    by_cases htmp : tmp = newline
    · subst htmp
      rw [Head.loop_newline (by omega), if_pos rfl]
      by_cases hlast : c + 1 = K
      · have hzero : K - c - 1 = 0 := by omega
        simp [hlast, hzero]
      · have hrest : K - c - 1 = K - (c + 1) := by omega
        rw [if_neg hlast, ih (by omega), hrest, Option.map_some]
    · rw [Head.loop_other htmp, ih hc, if_neg htmp, Option.map_some]

theorem Tail.count_eq (hc : c + file.count newline < 2 ^ 31) :
    Tail.count c file = some ((c + file.count newline : ℕ) : ℤ) := by
  induction file generalizing c with
  | nil => simp [Tail.count]
  | cons tmp file ih =>
    rw [Tail.count]
    by_cases htmp : tmp = newline
    · subst htmp
      rw [List.count_cons_self] at hc ⊢
      have hcheck : checked ((c : ℤ) + 1) = some ((c + 1 : ℕ) : ℤ) :=
        checked_natCast (by omega : c + 1 < 2 ^ 31)
      have hassoc : c + 1 + file.count newline = c + (file.count newline + 1) := by omega
      rw [if_pos rfl, hcheck, Option.bind_eq_bind, Option.bind_some, ih (by omega), hassoc]
    · rw [List.count_cons_of_ne htmp] at hc ⊢
      rw [if_neg htmp, ih hc]

theorem Tail.loop_cons (hK : 1 ≤ K) (hsum : c + K < 2 ^ 31) :
    Tail.loop K t c (tmp :: file) =
      (Tail.loop K t (c + if tmp = newline then 1 else 0 : ℕ) file).map fun out =>
        if t < ((c + K : ℕ) : ℤ) then tmp :: out else out := by
  have hcheck : checked ((c : ℤ) + K) = some ((c + K : ℕ) : ℤ) := checked_natCast hsum
  have hcheck' : checked ((c : ℤ) + 1) = some ((c + 1 : ℕ) : ℤ) :=
    checked_natCast (by omega : c + 1 < 2 ^ 31)
  rw [Tail.loop, hcheck, Option.map_eq_bind]
  by_cases htmp : tmp = newline
  · simp only [htmp, if_true, hcheck', Option.bind_eq_bind, Option.bind_some]
    rfl
  · simp only [htmp, if_false, Option.bind_eq_bind, Option.bind_some]
    rfl

theorem Tail.loop_overflow (hsum : 2 ^ 31 ≤ c + K) : Tail.loop K t c (tmp :: file) = none := by
  have hcheck : checked ((c : ℤ) + K) = none := checked_eq_none hsum
  rw [Tail.loop, hcheck]
  rfl

/-- While no sum overflows, `tail` prints the lines whose number plus `K` exceeds the count. -/
theorem Tail.loop_eq {t : ℕ} (hK : 1 ≤ K)
    (h : file = [] ∨ c + K + (lines newline file).length ≤ 2 ^ 31) :
    Tail.loop K t c file = some ((lines newline file).drop (t + 1 - K - c)).flatten := by
  induction file generalizing c with
  | nil => simp [Tail.loop]
  | cons tmp file ih =>
    have h := h.resolve_left (List.cons_ne_nil _ _)
    have hpos : 0 < (lines newline (tmp :: file)).length :=
      List.length_pos_iff.2 fun e => List.cons_ne_nil _ _ (lines_eq_nil.1 e)
    have hrest : file = [] ∨ c + (if tmp = newline then 1 else 0) + K +
        (lines newline file).length ≤ 2 ^ 31 := by
      by_cases hfile : file = []
      · exact .inl hfile
      · rw [length_lines_cons tmp hfile] at h
        omega
    rw [Tail.loop_cons hK (by omega), ih hrest, Option.map_some]
    simp only [Int.ofNat_lt]
    by_cases hprint : t < c + K
    · have hzero : t + 1 - K - c = 0 := by omega
      have hzero' : t + 1 - K - (c + if tmp = newline then 1 else 0) = 0 := by omega
      simp [hprint, hzero, hzero']
    · have hsucc : t + 1 - K - c = t - K - c + 1 := by omega
      rw [if_neg hprint, hsucc, flatten_drop_cons]
      by_cases htmp : tmp = newline
      · have hless : t + 1 - K - (c + 1) = t - K - c := by omega
        simp [htmp, hless]
      · simp [htmp, hsucc]

theorem Tail.loop_eq_none (hK : 1 ≤ K) (hfile : file ≠ [])
    (h : 2 ^ 31 < c + K + (lines newline file).length) : Tail.loop K t c file = none := by
  induction file generalizing c with
  | nil => exact absurd rfl hfile
  | cons tmp file ih =>
    by_cases hsum : c + K < 2 ^ 31
    · have hne : file ≠ [] := by
        rintro rfl
        rw [length_lines_singleton] at h
        omega
      rw [length_lines_cons tmp hne] at h
      rw [Tail.loop_cons hK hsum, ih hne (by omega), Option.map_none]
    · exact Tail.loop_overflow (by omega)

theorem tail_eq (hK : 1 ≤ K) (h : file = [] ∨ K + (lines newline file).length ≤ 2 ^ 31) :
    tail K file = some ((lines newline file).drop (file.count newline + 1 - K)).flatten := by
  have hlen : (lines newline file).length = _ := length_lines file
  have hcount : 0 + file.count newline < 2 ^ 31 := by
    obtain rfl | h := h
    · simp
    · omega
  have hrun : file = [] ∨ 0 + K + (lines newline file).length ≤ 2 ^ 31 := by
    rwa [Nat.zero_add]
  have htotal : Tail.count 0 file = _ := Tail.count_eq hcount
  have hloop : Tail.loop K ((0 + file.count newline : ℕ) : ℤ) 0 file = _ := Tail.loop_eq hK hrun
  rw [tail, htotal, Option.bind_eq_bind, Option.bind_some, hloop, Nat.sub_zero, Nat.zero_add]

theorem tail_eq_none (hK : 1 ≤ K) (hfile : file ≠ [])
    (h : 2 ^ 31 < K + (lines newline file).length) : tail K file = none := by
  have hrun : 2 ^ 31 < 0 + K + (lines newline file).length := by rwa [Nat.zero_add]
  rw [tail]
  cases Tail.count 0 file with
  | none => rfl
  | some t => exact Tail.loop_eq_none (t := t) hK hfile hrun

end Loops

section Partition

/-- The number of lines of a file. -/
def numLines (file : List UInt8) : ℕ := (lines newline file).length

def firstLines (n : ℕ) (file : List UInt8) : List UInt8 := ((lines newline file).take n).flatten

def lastLines (n : ℕ) (file : List UInt8) : List UInt8 :=
  ((lines newline file).drop (numLines file - n)).flatten

/-- `head` and `tail` print the first and the last lines, and together the file. -/
def Partitions (K : ℕ) (file : List UInt8) : Prop :=
  head K file = some (firstLines (min K (numLines file)) file) ∧
    tail K file = some (lastLines (min K (numLines file)) file) ∧
      (K < numLines file → ∃ front back, head (numLines file - K : ℕ) file = some front ∧
        tail K file = some back ∧ front ++ back = file)

variable {K : ℕ} {file : List UInt8}

theorem head_eq (hK : 1 ≤ K) (hK' : K < 2 ^ 31) : head K file = some (firstLines K file) :=
  Head.loop_eq (c := 0) hK' hK

theorem firstLines_min (n : ℕ) : firstLines (min n (numLines file)) file = firstLines n file := by
  unfold firstLines numLines
  rw [← List.take_take, List.take_length]

theorem firstLines_append_lastLines (n : ℕ) :
    firstLines (numLines file - n) file ++ lastLines n file = file := by
  unfold firstLines lastLines
  rw [← List.flatten_append, List.take_append_drop, flatten_lines]

/-- `tail` prints one line too few of a file with a newline at its end, unless it prints all. -/
theorem tail_eq_lastLines_iff (hK : 1 ≤ K) (hK' : K < 2 ^ 31) :
    tail K file = some (lastLines (min K (numLines file)) file) ↔
      K + numLines file ≤ 2 ^ 31 ∧ (file.getLast? = some newline → numLines file < K) := by
  by_cases hfile : file = []
  · subst hfile
    rw [tail_eq hK (.inl rfl)]
    simp [lastLines, numLines]
    omega
  by_cases hlong : 2 ^ 31 < K + numLines file
  · rw [tail_eq_none hK hfile hlong]
    refine iff_of_false (by simp) fun h => ?_
    have hle := h.1
    omega
  rw [tail_eq hK (.inr (Nat.le_of_not_lt hlong)), Option.some_inj,
    and_iff_right (Nat.le_of_not_lt hlong)]
  have hlen : numLines file = _ := length_lines file
  by_cases hlast : file.getLast? = some newline
  · rw [if_pos (.inr hlast), Nat.add_zero] at hlen
    rw [imp_iff_right hlast, ← hlen]
    unfold lastLines
    by_cases hless : numLines file < K
    · refine iff_of_true ?_ hless
      have hzero : numLines file + 1 - K = 0 := by omega
      have hzero' : numLines file - min K (numLines file) = 0 := by omega
      rw [hzero, hzero']
    · refine iff_of_false ?_ hless
      have hsucc : numLines file + 1 - K = numLines file - K + 1 := by omega
      have hmin : min K (numLines file) = K := by omega
      have hlt : numLines file - K < (lines newline file).length := by
        change _ < numLines file
        omega
      rw [hsucc, hmin]
      exact flatten_drop_ne hlt
  · have hnot : ¬(file = [] ∨ file.getLast? = some newline) := by simp [hfile, hlast]
    rw [if_neg hnot] at hlen
    refine iff_of_true ?_ fun h => absurd h hlast
    unfold lastLines
    have hsame : numLines file - min K (numLines file) = file.count newline + 1 - K := by omega
    rw [hsame]

/-- `head` and `tail` partition a file if `tail` has no overflow and no newline at the end to
count as the start of a line. -/
theorem partitions_iff (hK : 1 ≤ K) (hK' : K < 2 ^ 31) : Partitions K file ↔
    K + numLines file ≤ 2 ^ 31 ∧ (file.getLast? = some newline → numLines file < K) := by
  rw [← tail_eq_lastLines_iff hK hK']
  refine ⟨fun h => h.2.1, fun h => ⟨?_, h, fun hlt => ?_⟩⟩
  · rw [head_eq hK hK', firstLines_min]
  · have hle := ((tail_eq_lastLines_iff hK hK').1 h).1
    have hfront : head (numLines file - K : ℕ) file = _ := head_eq (by omega) (by omega)
    rw [Nat.min_eq_left (Nat.le_of_lt hlt)] at h
    exact ⟨_, _, hfront, h, firstLines_append_lastLines K⟩

/-- The file `a` without a newline and `K` of 1. -/
theorem partitions_noNewline : Partitions 1 [97] :=
  (partitions_iff (by decide) (by decide)).2 (by decide)

/-- Of a single line with its newline `tail` prints nothing. -/
theorem tail_newline : ¬Partitions 1 [97, newline] := by
  intro h
  have hnone : tail (1 : ℕ) [97, newline] = some [] := by decide
  have hline : lastLines (min 1 (numLines [97, newline])) [97, newline] = [97, newline] := by
    decide
  have htail := h.2.1
  rw [hnone, hline] at htail
  cases htail

end Partition

end Shell
