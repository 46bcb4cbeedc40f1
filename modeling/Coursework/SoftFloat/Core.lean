import Coursework.Lib.NearestEven
import Mathlib.Data.Fin.Basic

/-! Addition of floats of 24 bits: a sign, 7 bits of exponent and 16 bits of fraction, in words
of 32 bits. Finite values are counted in units of the least one, 2^-78. -/
namespace SoftFloat
open NearestEven

scoped instance instNeZeroSign : NeZero 2 := ⟨by decide⟩

scoped instance instNeZeroExp : NeZero 128 := ⟨by decide⟩

scoped instance instNeZeroFrac : NeZero 65536 := ⟨by decide⟩

scoped instance instNeZeroDummy : NeZero 256 := ⟨by decide⟩

/-- The 24 bits of a float. -/
structure Sfp where
  sign : Fin 2
  exp : Fin 128
  frac : Fin 65536
  deriving DecidableEq

/-- The word in which a float is kept; its upper bits are not used. -/
structure Mysfp extends Sfp where
  dummy : Fin 256
  deriving DecidableEq

/-- The word as a number. -/
def Mysfp.u (ms : Mysfp) : ℕ :=
  ms.dummy * 2 ^ 24 + ms.sign * 2 ^ 23 + ms.exp * 2 ^ 16 + ms.frac

/-- A float in a word whose upper bits are clear. -/
def Sfp.word (x : Sfp) : Mysfp := ⟨x, 0⟩

/-- `>>=shiftnum` with rounding. `1<<(shiftnum-1)-1` is a shift by `shiftnum-2`. -/
def shiftRte (shiftnum signif2 : ℕ) : ℕ :=
  if shiftnum = 0 then signif2
  else if shiftnum = 1 then
    let G := signif2 &&& 2
    let R := signif2 &&& 1
    if R ≠ 0 ∧ G ≠ 0 then (signif2 >>> 1) + 1 else signif2 >>> 1
  else if shiftnum < 18 then
    let G := (1 <<< shiftnum) &&& signif2
    let R := (1 <<< (shiftnum - 1)) &&& signif2
    let S := (1 <<< (shiftnum - 1 - 1)) &&& signif2
    if R = 0 then signif2 >>> shiftnum
    else if S ≠ 0 then (signif2 >>> shiftnum) + 1
    else if G ≠ 0 then (signif2 >>> shiftnum) + 1
    else signif2 >>> shiftnum
  else signif2 >>> 16

/-- `while(signif<(1<<16)&&exp>1)`: the exponent and the significand after the loop. -/
def normalize : ℕ → ℕ → ℕ × ℕ
  | 0, signif => (0, signif)
  | exp + 1, signif =>
    if signif < 1 <<< 16 ∧ 1 < exp + 1 then normalize exp (signif <<< 1) else (exp + 1, signif)

/-- What `sfp_add` does with the significand of the sum. -/
def renormalize (ret : Mysfp) (signif : ℕ) : Mysfp :=
  if signif < 1 <<< 16 then
    let (exp, signif) := normalize ret.exp signif
    let signif := if 1 <<< 16 ≤ signif ∧ exp ≠ 0 then signif &&& 0xFFFF else signif
    let exp := if signif < 1 <<< 16 then 0 else exp
    { ret with exp := Fin.ofNat 128 exp, frac := Fin.ofNat 65536 signif }
  else if 1 <<< 17 ≤ signif then
    let G := signif &&& 2
    let R := signif &&& 1
    let signif := if R ≠ 0 ∧ G ≠ 0 then (signif >>> 1) + 1 else signif >>> 1
    let ret := { ret with exp := ret.exp + 1 }
    if ret.exp = 127 then { ret with frac := 0 }
    else { ret with frac := Fin.ofNat 65536 signif }
  else if ret.exp = 0 then { ret with exp := 1, frac := Fin.ofNat 65536 (signif &&& 0xFFFF) }
  else { ret with frac := Fin.ofNat 65536 signif }

/-- The sum of two finite floats that are not zero. -/
def addFinite (ret in1 in2 : Mysfp) : Mysfp :=
  let tmp1 := { in1 with sign := 0 }
  let tmp2 := { in2 with sign := 0 }
  let ms1 := if tmp2.u < tmp1.u then in1 else in2
  let ms2 := if tmp2.u < tmp1.u then in2 else in1
  let tmpexp1 : ℕ := if ms1.exp = 0 then 1 else ms1.exp
  let tmpexp2 : ℕ := if ms2.exp = 0 then 1 else ms2.exp
  let shiftnum := (tmpexp1 + 2 ^ 32 - tmpexp2) % 2 ^ 32
  let signif1 : ℕ := if ms1.exp = 0 then ms1.frac else ms1.frac ||| 0x10000
  let signif2 : ℕ := if ms2.exp = 0 then ms2.frac else ms2.frac ||| 0x10000
  let signif2 := shiftRte shiftnum signif2
  let ret := { ret with sign := ms1.sign, exp := ms1.exp }
  if ms1.sign = ms2.sign then renormalize ret ((signif1 + signif2) % 2 ^ 64)
  else renormalize ret ((signif1 + 2 ^ 64 - signif2) % 2 ^ 64)

/-- `sfp_add`; `ret` is what the variable for the result holds before it is written. -/
def sfpAdd (ret ms1 ms2 : Mysfp) : Mysfp :=
  if ms1.exp = 127 then
    if ms1.frac = 0 then
      if ms1.sign ≠ 0 then
        if ms2.sign = 0 ∧ ms2.exp = 127 ∧ ms2.frac = 0 then
          { ret with sign := 0, exp := 127, frac := 1 }
        else { ret with sign := ms1.sign, exp := 127, frac := 0 }
      else
        if ms2.sign = 1 ∧ ms2.exp = 127 ∧ ms2.frac = 0 then
          { ret with sign := 0, exp := 127, frac := 1 }
        else { ret with sign := ms1.sign, exp := 127, frac := 0 }
    else ms1
  else if ms2.exp = 127 then
    if ms2.frac = 0 then { ret with sign := ms2.sign, exp := 127, frac := 0 } else ms2
  else if ms1.exp = 0 ∧ ms1.frac = 0 then ms2
  else if ms2.exp = 0 ∧ ms2.frac = 0 then ms1
  else addFinite ret ms1 ms2

/-- What a float stands for. -/
inductive Value where
  | nan
  | inf (negative : Bool)
  | fin (v : ℤ)
  deriving DecidableEq

/-- The significand with its leading bit. -/
def Sfp.signif (x : Sfp) : ℕ := if x.exp = 0 then x.frac else 65536 + x.frac

/-- The exponent, as a shift of the significand. -/
def Sfp.place (x : Sfp) : ℕ := x.exp - 1

def Sfp.magnitude (x : Sfp) : ℕ := x.signif * 2 ^ x.place

/-- A magnitude with a sign. -/
def signed (sign : Fin 2) (m : ℕ) : ℤ := if sign = 0 then m else -m

def Sfp.value (x : Sfp) : Value :=
  if x.exp = 127 then if x.frac = 0 then .inf (decide (x.sign = 1)) else .nan
  else .fin (signed x.sign x.magnitude)

/-- From here on a magnitude overflows. -/
def limit : ℕ := 2 ^ 142

/-- A number as the nearest float, even in case of a tie; infinity if it overflows. -/
inductive Rounds (z : ℤ) : Value → Prop
  | fin (m : ℕ) : Nearest 17 z.natAbs m → m < limit → Rounds z (.fin (z.sign * m))
  | inf (m : ℕ) : Nearest 17 z.natAbs m → limit ≤ m → Rounds z (.inf (decide (z < 0)))

/-- The rounded sum of two values. -/
inductive IsSum : Value → Value → Value → Prop
  | nan_left (y : Value) : IsSum .nan y .nan
  | nan_right (x : Value) : IsSum x .nan .nan
  | inf_opposite (s : Bool) : IsSum (.inf s) (.inf !s) .nan
  | inf_inf (s : Bool) : IsSum (.inf s) (.inf s) (.inf s)
  | inf_fin (s : Bool) (v : ℤ) : IsSum (.inf s) (.fin v) (.inf s)
  | fin_inf (u : ℤ) (s : Bool) : IsSum (.fin u) (.inf s) (.inf s)
  | fin_fin (u v : ℤ) (r : Value) : Rounds (u + v) r → IsSum (.fin u) (.fin v) r

end SoftFloat
