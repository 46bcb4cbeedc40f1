import Mathlib
import Coursework.Lib.Pieces

/-! A part of the x86-64 machine: instructions on 64-bit registers and a stack, for code whose
instructions an assembler has put at some addresses. -/
namespace X86

inductive Reg where
  | rax
  | rbx
  | rcx
  | rdx
  | rsi
  | rdi
  | rsp
  | r8
  | r9
  | r10
  deriving DecidableEq

/-- A source operand; an immediate is sign-extended. -/
inductive Operand where
  | imm (v : BitVec 64)
  | reg (r : Reg)

/-- The conditions of jumps, for signed numbers. -/
inductive Cond where
  | l
  | g
  | le
  | ne

/-- Instructions with labels in `L`, sources before destinations. `imul` and `idiv` are the forms
with one operand. -/
inductive Instr (L : Type) where
  | mov (src : Operand) (dst : Reg)
  | lea (disp : BitVec 64) (base dst : Reg)
  | add (src : Operand) (dst : Reg)
  | sub (src : Operand) (dst : Reg)
  | dec (dst : Reg)
  | cmp (src : Operand) (dst : Reg)
  | imul (src : Reg)
  | cqto
  | idiv (src : Reg)
  | push (src : Reg)
  | pop (dst : Reg)
  | jmp (target : L)
  | jcc (c : Cond) (target : L)
  | call (target : L)
  | ret

/-- The zero, sign and overflow flags. -/
structure Flags where
  zf : Bool
  sf : Bool
  of : Bool

/-- The flags are `none` where an instruction leaves them undefined. -/
structure State where
  pc : BitVec 64
  reg : Reg → BitVec 64
  flags : Option Flags
  mem : BitVec 64 → BitVec 8

def Cond.holds : Cond → Flags → Bool
  | .l, f => f.sf != f.of
  | .g, f => !f.zf && f.sf == f.of
  | .le, f => f.zf || f.sf != f.of
  | .ne, f => !f.zf

def subFlags (a b : BitVec 64) : Flags :=
  ⟨a - b == 0, (a - b).msb, a.msb != b.msb && (a - b).msb != a.msb⟩

def addFlags (a b : BitVec 64) : Flags :=
  ⟨a + b == 0, (a + b).msb, a.msb == b.msb && (a + b).msb != a.msb⟩

/-- The eight bytes at an address as a number, the lowest first. -/
def load64 (mem : BitVec 64 → BitVec 8) (a : BitVec 64) : BitVec 64 :=
  BitVec.ofNat 64
    ((List.range 8).map fun k => 2 ^ (8 * k) * (mem (a + BitVec.ofNat 64 k)).toNat).sum

def store64 (mem : BitVec 64 → BitVec 8) (a v : BitVec 64) : BitVec 64 → BitVec 8 := fun b =>
  if (b - a).toNat < 8 then BitVec.ofNat 8 (v.toNat / 2 ^ (8 * (b - a).toNat)) else mem b

def State.value (s : State) : Operand → BitVec 64
  | .imm v => v
  | .reg r => s.reg r

section Code
variable {L : Type}

/-- What an instruction does, `next` being the address after it. There is no result when a
division faults or a jump depends on undefined flags. -/
def exec (label : L → BitVec 64) (next : BitVec 64) (s : State) : Instr L → Option State
  | .mov src dst => some { s with pc := next, reg := Function.update s.reg dst (s.value src) }
  | .lea disp base dst =>
    some { s with pc := next, reg := Function.update s.reg dst (s.reg base + disp) }
  | .add src dst =>
    some { s with
      pc := next
      reg := Function.update s.reg dst (s.reg dst + s.value src)
      flags := some (addFlags (s.reg dst) (s.value src)) }
  | .sub src dst =>
    some { s with
      pc := next
      reg := Function.update s.reg dst (s.reg dst - s.value src)
      flags := some (subFlags (s.reg dst) (s.value src)) }
  | .dec dst =>
    some { s with
      pc := next
      reg := Function.update s.reg dst (s.reg dst - 1)
      flags := some (subFlags (s.reg dst) 1) }
  | .cmp src dst =>
    some { s with pc := next, flags := some (subFlags (s.reg dst) (s.value src)) }
  | .imul src =>
    let p := (s.reg .rax).toInt * (s.reg src).toInt
    some { s with
      pc := next
      reg := Function.update (Function.update s.reg .rax (BitVec.ofInt 64 p)) .rdx
        (BitVec.ofInt 64 (p / 2 ^ 64))
      flags := none }
  | .cqto =>
    some { s with
      pc := next
      reg := Function.update s.reg .rdx (if (s.reg .rax).msb then BitVec.allOnes 64 else 0) }
  | .idiv src =>
    let a := (s.reg .rdx ++ s.reg .rax).toInt
    let b := (s.reg src).toInt
    if b ≠ 0 ∧ -2 ^ 63 ≤ a.tdiv b ∧ a.tdiv b < 2 ^ 63 then
      some { s with
        pc := next
        reg := Function.update (Function.update s.reg .rax (BitVec.ofInt 64 (a.tdiv b))) .rdx
          (BitVec.ofInt 64 (a.tmod b))
        flags := none }
    else none
  | .push src =>
    some { s with
      pc := next
      reg := Function.update s.reg .rsp (s.reg .rsp - 8)
      mem := store64 s.mem (s.reg .rsp - 8) (s.reg src) }
  | .pop dst =>
    some { s with
      pc := next
      reg := Function.update (Function.update s.reg .rsp (s.reg .rsp + 8)) dst
        (load64 s.mem (s.reg .rsp)) }
  | .jmp target => some { s with pc := label target }
  | .jcc c target => s.flags.map fun f => { s with pc := if c.holds f then label target else next }
  | .call target =>
    some { s with
      pc := label target
      reg := Function.update s.reg .rsp (s.reg .rsp - 8)
      mem := store64 s.mem (s.reg .rsp - 8) next }
  | .ret =>
    some { s with
      pc := load64 s.mem (s.reg .rsp)
      reg := Function.update s.reg .rsp (s.reg .rsp + 8) }

/-- Assembly source: blocks of instructions under their labels. -/
abbrev Source (L : Type) := List (L × List (Instr L))

def Source.instrs (p : Source L) : List (Instr L) := p.flatMap Prod.snd

/-- How many instructions stand before a label. -/
def Source.entry [DecidableEq L] : Source L → L → ℕ
  | [], _ => 0
  | (l', is) :: p, l => if l = l' then 0 else is.length + Source.entry p l

/-- The addresses of the instructions of a source; no two of them are the same. -/
structure Layout (p : Source L) where
  addr : ℕ → BitVec 64
  inj : ∀ i j, i < p.instrs.length → j < p.instrs.length → addr i = addr j → i = j

/-- The instructions one after the other from address 0 on, each taken as one byte long. -/
def Layout.packed (p : Source L) (h : p.instrs.length ≤ 2 ^ 64) : Layout p where
  addr i := BitVec.ofNat 64 i
  inj i j hi hj hij := by
    have htoNat := congrArg BitVec.toNat hij
    rw [BitVec.toNat_ofNat, BitVec.toNat_ofNat, Nat.mod_eq_of_lt (by omega),
      Nat.mod_eq_of_lt (by omega)] at htoNat
    exact htoNat

section Fetch
variable {p : Source L} (c : Layout p)

/-- The number of the instruction at an address. -/
def Layout.fetch (pc : BitVec 64) : Option ℕ :=
  (List.range p.instrs.length).find? fun i => c.addr i == pc

theorem Layout.fetch_addr {i : ℕ} (h : i < p.instrs.length) : c.fetch (c.addr i) = some i := by
  have hsome : (c.fetch (c.addr i)).isSome := by
    unfold Layout.fetch
    rw [List.find?_isSome]
    exact ⟨i, List.mem_range.2 h, by simp⟩
  obtain ⟨j, hj⟩ := Option.isSome_iff_exists.1 hsome
  have hmem := List.mem_range.1 (List.mem_of_find?_eq_some hj)
  have haddr := List.find?_some hj
  rw [beq_iff_eq] at haddr
  rw [hj, c.inj j i hmem h haddr]

end Fetch

variable [DecidableEq L] {p : Source L} (c : Layout p)

def Layout.label (l : L) : BitVec 64 := c.addr (p.entry l)

def Layout.step (s : State) : Option State := do
  let i ← c.fetch s.pc
  let instr ← p.instrs[i]?
  exec c.label (c.addr (i + 1)) s instr

/-- From `s` the code gets to a state with `Q`. -/
def Layout.Reaches (s : State) (Q : State → Prop) : Prop :=
  ∃ t, Relation.ReflTransGen (fun s s' => c.step s = some s') s t ∧ Q t

variable {c} {s s' : State} {Q Q' : State → Prop}

theorem Layout.Reaches.done (h : Q s) : c.Reaches s Q := ⟨s, .refl, h⟩

theorem Layout.Reaches.step {i : ℕ} {instr : Instr L} (hpc : s.pc = c.addr i)
    (hi : p.instrs[i]? = some instr) (hexec : exec c.label (c.addr (i + 1)) s instr = some s')
    (h : c.Reaches s' Q) : c.Reaches s Q := by
  obtain ⟨t, ht, hq⟩ := h
  refine ⟨t, Relation.ReflTransGen.head ?_ ht, hq⟩
  have hlt := (List.getElem?_eq_some_iff.1 hi).1
  rw [Layout.step, hpc, c.fetch_addr hlt]
  change (p.instrs[i]? >>= fun instr => exec c.label (c.addr (i + 1)) s instr) = some s'
  rw [hi]
  exact hexec

theorem Layout.Reaches.trans (h : c.Reaches s Q) (hQ : ∀ t, Q t → c.Reaches t Q') :
    c.Reaches s Q' := by
  obtain ⟨t, ht, hq⟩ := h
  obtain ⟨t', ht', hq'⟩ := hQ t hq
  exact ⟨t', ht.trans ht', hq'⟩

theorem Layout.Reaches.mono (h : c.Reaches s Q) (hQ : ∀ t, Q t → Q' t) : c.Reaches s Q' :=
  h.trans fun t ht => Layout.Reaches.done (hQ t ht)

/-- The call that has entered at `s` returns `v` to the address on the stack, and takes it off. -/
def Layout.Returns (c : Layout p) (s : State) (v : BitVec 64) : Prop :=
  c.Reaches s fun t => t.pc = load64 s.mem (s.reg .rsp) ∧ t.reg .rsp = s.reg .rsp + 8 ∧
    t.reg .rax = v

end Code

/-- Nothing but the program counter, the flags and the registers in `rs` differs. -/
structure SameBut (rs : List Reg) (s s' : State) : Prop where
  reg : ∀ r, r ∉ rs → s'.reg r = s.reg r
  mem : s'.mem = s.mem

variable {s s' s'' : State} {rs rs' rs'' : List Reg}

theorem SameBut.refl (rs : List Reg) (s : State) : SameBut rs s s := ⟨fun _ _ => rfl, rfl⟩

theorem SameBut.trans (h : SameBut rs s s') (h' : SameBut rs' s' s'') (hsub : ∀ r ∈ rs, r ∈ rs'')
    (hsub' : ∀ r ∈ rs', r ∈ rs'') : SameBut rs'' s s'' where
  reg r hr := (h'.reg r (mt (hsub' r) hr)).trans (h.reg r (mt (hsub r) hr))
  mem := h'.mem.trans h.mem

section Compare
variable {a b : ℕ}

theorem toInt_ofNat_of_lt (h : a < 2 ^ 63) : (BitVec.ofNat 64 a).toInt = a := by
  rw [BitVec.toInt_eq_toNat_of_lt]
  · rw [BitVec.toNat_ofNat, Nat.mod_eq_of_lt (by omega)]
  · rw [BitVec.toNat_ofNat, Nat.mod_eq_of_lt (by omega)]
    omega

theorem ofNat_sub_one (n : ℕ) : BitVec.ofNat 64 (n + 1) - 1 = BitVec.ofNat 64 n := by
  rw [BitVec.ofNat_add n 1]
  exact BitVec.add_sub_cancel _ _

theorem sub_beq_zero (x y : BitVec 64) : (x - y == 0) = (x == y) := by
  rw [Bool.eq_iff_iff, beq_iff_eq, beq_iff_eq]
  constructor
  · intro h
    have hadd := BitVec.sub_add_cancel x y
    rw [h] at hadd
    exact hadd.symm.trans (BitVec.zero_add y)
  · rintro rfl
    exact BitVec.sub_self x

theorem sf_ne_of (x y : BitVec 64) :
    ((subFlags x y).sf != (subFlags x y).of) = decide (x.toInt < y.toInt) := by
  have hx := x.isLt
  have hy := y.isLt
  unfold subFlags
  simp only [BitVec.msb_eq_decide, BitVec.toInt_eq_toNat_cond, BitVec.toNat_sub]
  by_cases h₁ : 2 ^ (64 - 1) ≤ x.toNat <;> by_cases h₂ : 2 ^ (64 - 1) ≤ y.toNat <;>
    by_cases h₃ : 2 ^ (64 - 1) ≤ (2 ^ 64 - y.toNat + x.toNat) % 2 ^ 64 <;>
      simp only [h₁, h₂, h₃, decide_true, decide_false] <;>
        first
        | exact (decide_eq_true (by omega)).symm
        | exact (decide_eq_false (by omega)).symm

theorem ofNat_inj (ha : a < 2 ^ 63) (hb : b < 2 ^ 63) :
    BitVec.ofNat 64 a = BitVec.ofNat 64 b ↔ a = b := by
  refine ⟨fun h => ?_, fun h => by rw [h]⟩
  have htoInt := congrArg BitVec.toInt h
  rw [toInt_ofNat_of_lt ha, toInt_ofNat_of_lt hb] at htoInt
  exact Int.ofNat_inj.1 htoInt

/-- What a condition says of two numbers that have been compared. -/
def Cond.compare : Cond → ℕ → ℕ → Bool
  | .l, a, b => decide (a < b)
  | .g, a, b => decide (b < a)
  | .le, a, b => decide (a ≤ b)
  | .ne, a, b => decide (a ≠ b)

/-- A jump after a comparison of two numbers that are not negative. -/
theorem holds_subFlags (ha : a < 2 ^ 63) (hb : b < 2 ^ 63) (k : Cond) :
    k.holds (subFlags (BitVec.ofNat 64 a) (BitVec.ofNat 64 b)) = k.compare a b := by
  have hlt : ((subFlags (BitVec.ofNat 64 a) (BitVec.ofNat 64 b)).sf !=
      (subFlags (BitVec.ofNat 64 a) (BitVec.ofNat 64 b)).of) = decide (a < b) := by
    rw [sf_ne_of, toInt_ofNat_of_lt ha, toInt_ofNat_of_lt hb]
    simp
  have hzf : (subFlags (BitVec.ofNat 64 a) (BitVec.ofNat 64 b)).zf = decide (a = b) := by
    change (BitVec.ofNat 64 a - BitVec.ofNat 64 b == 0) = _
    rw [sub_beq_zero, Bool.eq_iff_iff, beq_iff_eq, ofNat_inj ha hb, decide_eq_true_eq]
  cases k with
  | l => exact hlt
  | g =>
    have hge : ((subFlags (BitVec.ofNat 64 a) (BitVec.ofNat 64 b)).sf ==
        (subFlags (BitVec.ofNat 64 a) (BitVec.ofNat 64 b)).of) = decide (¬ a < b) := by
      rw [decide_not, ← hlt, bne, Bool.not_not]
    rw [Cond.holds, Cond.compare, hzf, hge, ← decide_not, ← Bool.decide_and, decide_eq_decide]
    omega
  | le =>
    rw [Cond.holds, Cond.compare, hzf, hlt, ← Bool.decide_or, decide_eq_decide]
    omega
  | ne => rw [Cond.holds, Cond.compare, hzf, ← decide_not]

end Compare

section Divide
variable {L : Type} {label : L → BitVec 64} {next : BitVec 64} {x y : ℕ} {b : Reg}

theorem exec_cqto (hx : x < 2 ^ 63) (hrax : s.reg .rax = BitVec.ofNat 64 x) :
    exec label next s .cqto =
      some { s with pc := next, reg := Function.update s.reg .rdx 0 } := by
  have hmsb : (s.reg .rax).msb = false := by
    rw [hrax, BitVec.msb_eq_decide, BitVec.toNat_ofNat, Nat.mod_eq_of_lt (by omega),
      decide_eq_false_iff_not]
    omega
  rw [exec, hmsb]
  rfl

theorem toInt_append (hx : x < 2 ^ 63) : (0#64 ++ BitVec.ofNat 64 x).toInt = x := by
  have htoNat : (0#64 ++ BitVec.ofNat 64 x).toNat = x := by
    have hmod : x % 2 ^ 64 = x := Nat.mod_eq_of_lt (by omega)
    rw [BitVec.toNat_append, BitVec.toNat_ofNat, BitVec.toNat_ofNat, hmod]
    simp
  rw [BitVec.toInt_eq_toNat_of_lt, htoNat]
  rw [htoNat]
  omega

theorem exec_idiv (hx : x < 2 ^ 63) (hy : y < 2 ^ 63) (hpos : 0 < y) (hrdx : s.reg .rdx = 0)
    (hrax : s.reg .rax = BitVec.ofNat 64 x) (hb : s.reg b = BitVec.ofNat 64 y) :
    exec label next s (.idiv b) = some { s with
      pc := next
      reg := Function.update (Function.update s.reg .rax (BitVec.ofNat 64 (x / y))) .rdx
        (BitVec.ofNat 64 (x % y))
      flags := none } := by
  have ha : (s.reg .rdx ++ s.reg .rax).toInt = x := by
    rw [hrdx, hrax]
    exact toInt_append hx
  have hdiv : (x : ℤ).tdiv y = ((x / y : ℕ) : ℤ) := rfl
  have hmod : (x : ℤ).tmod y = ((x % y : ℕ) : ℤ) := rfl
  have hsmall : ∀ q : ℕ, q ≤ x → -2 ^ 63 ≤ (q : ℤ) ∧ (q : ℤ) < 2 ^ 63 := fun q hq => by omega
  have hfits : (y : ℤ) ≠ 0 ∧ -2 ^ 63 ≤ ((x / y : ℕ) : ℤ) ∧ ((x / y : ℕ) : ℤ) < 2 ^ 63 :=
    ⟨by omega, hsmall _ (Nat.div_le_self x y)⟩
  rw [exec, ha, hb, toInt_ofNat_of_lt hy, hdiv, hmod, if_pos hfits, BitVec.ofInt_natCast,
    BitVec.ofInt_natCast]

end Divide

section Idioms
open Pieces

variable {L : Type} [DecidableEq L] {p : Source L} {c : Layout p} {Q : State → Prop} {i : ℕ}

theorem Layout.Reaches.write {instr : Instr L} {dst : Reg} {v : BitVec 64} {f : Option Flags}
    (hpc : s.pc = c.addr i) (hi : p.instrs[i]? = some instr)
    (hexec : exec c.label (c.addr (i + 1)) s instr =
      some { s with pc := c.addr (i + 1), reg := Function.update s.reg dst v, flags := f })
    (h : ∀ s', s'.pc = c.addr (i + 1) → s'.reg dst = v → SameBut [dst] s s' → c.Reaches s' Q) :
    c.Reaches s Q := by
  refine .step hpc hi hexec (h _ rfl (Function.update_self ..) ⟨fun r hr => ?_, rfl⟩)
  exact Function.update_of_ne (fun e => hr (List.mem_singleton.2 e)) ..

theorem Layout.Reaches.imul {src : Reg} {x y : ℕ} (hpc : s.pc = c.addr i)
    (hi : p.instrs[i]? = some (.imul src)) (hrax : s.reg .rax = BitVec.ofNat 64 x)
    (hsrc : s.reg src = BitVec.ofNat 64 y) (hx : x < 2 ^ 63) (hy : y < 2 ^ 63)
    (h : ∀ s', s'.pc = c.addr (i + 1) → s'.reg .rax = BitVec.ofNat 64 (x * y) →
      SameBut [.rax, .rdx] s s' → c.Reaches s' Q) : c.Reaches s Q := by
  refine .step hpc hi rfl (h _ rfl ?_ ⟨fun r hr => ?_, rfl⟩)
  · dsimp only
    rw [Function.update_of_ne (by decide), Function.update_self, hrax, hsrc, toInt_ofNat_of_lt hx,
      toInt_ofNat_of_lt hy]
    exact BitVec.ofInt_natCast 64 (x * y)
  · have hr' : r ≠ .rax ∧ r ≠ .rdx := by simpa using hr
    dsimp only
    rw [Function.update_of_ne hr'.2, Function.update_of_ne hr'.1]

theorem Layout.Reaches.jump {l : L} (hpc : s.pc = c.addr i) (hi : p.instrs[i]? = some (.jmp l))
    (h : ∀ s', s'.pc = c.label l → SameBut [] s s' → c.Reaches s' Q) : c.Reaches s Q :=
  .step hpc hi rfl (h _ rfl ⟨fun _ _ => rfl, rfl⟩)

theorem Layout.Reaches.compare {src : Operand} {dst : Reg} {k : Cond} {l : L} {x y : ℕ}
    (hat : At p.instrs i [.cmp src dst, .jcc k l]) (hpc : s.pc = c.addr i)
    (hdst : s.reg dst = BitVec.ofNat 64 x) (hsrc : s.value src = BitVec.ofNat 64 y)
    (hx : x < 2 ^ 63) (hy : y < 2 ^ 63)
    (h : ∀ s', s'.pc = (if k.compare x y then c.label l else c.addr (i + 2)) → SameBut [] s s' →
      c.Reaches s' Q) : c.Reaches s Q := by
  have h₀ := hat.get 0 rfl
  have h₁ := hat.get 1 rfl
  apply Layout.Reaches.step hpc h₀ rfl
  apply Layout.Reaches.step rfl h₁ rfl
  refine h _ ?_ ⟨fun _ _ => rfl, rfl⟩
  dsimp only
  rw [hdst, hsrc, holds_subFlags hx hy]

/-- A division of numbers that are not negative, and a jump unless the remainder is 0. -/
theorem Layout.Reaches.remainder {a b : Reg} {l : L} {x y : ℕ}
    (hat : At p.instrs i
      [.mov (.reg a) .rax, .cqto, .idiv b, .cmp (.imm 0) .rdx, .jcc .ne l])
    (hpc : s.pc = c.addr i) (ha : s.reg a = BitVec.ofNat 64 x) (hb : s.reg b = BitVec.ofNat 64 y)
    (hx : x < 2 ^ 63) (hy : y < 2 ^ 63) (hpos : 0 < y) (hrax : b ≠ .rax) (hrdx : b ≠ .rdx)
    (h : ∀ s', s'.pc = (if x % y ≠ 0 then c.label l else c.addr (i + 5)) →
      SameBut [.rax, .rdx] s s' → c.Reaches s' Q) : c.Reaches s Q := by
  have h₀ := hat.get 0 rfl
  have h₁ := hat.get 1 rfl
  have h₂ := hat.get 2 rfl
  have hcmp : At p.instrs (i + 3) [.cmp (.imm 0) .rdx, .jcc .ne l] := hat.drop 3
  have hmod : x % y < y := Nat.mod_lt x hpos
  refine .step hpc h₀ rfl (.step rfl h₁ (exec_cqto hx ?_) (.step rfl h₂
    (exec_idiv hx hy hpos ?_ ?_ ?_) (.compare hcmp rfl (x := x % y) (y := 0) ?_ rfl (by omega)
      (by decide) fun s' hpc' hsame => h s' ?_ ⟨fun r hr => ?_, hsame.mem⟩)))
  · simp [State.value, ha]
  · simp
  · simp [State.value, ha]
  · simp [hrax, hrdx, hb]
  · simp
  · rw [hpc', Cond.compare]
    simp
  · have hr' : r ≠ .rax ∧ r ≠ .rdx := by simpa using hr
    rw [hsame.reg r List.not_mem_nil]
    simp [hr'.1, hr'.2]

end Idioms

section Memory
variable {mem mem' : BitVec 64 → BitVec 8} {a b v : BitVec 64}

theorem store64_add {k : ℕ} (hk : k < 8) :
    store64 mem a v (a + BitVec.ofNat 64 k) = BitVec.ofNat 8 (v.toNat / 2 ^ (8 * k)) := by
  have hdiff : (a + BitVec.ofNat 64 k - a).toNat = k := by
    rw [BitVec.add_comm, BitVec.add_sub_cancel, BitVec.toNat_ofNat, Nat.mod_eq_of_lt (by omega)]
  unfold store64
  rw [hdiff, if_pos hk]

theorem sum_bytes (n j : ℕ) :
    ((List.range j).map fun k => 2 ^ (8 * k) * (n / 2 ^ (8 * k) % 2 ^ 8)).sum =
      n % 2 ^ (8 * j) := by
  induction j with
  | zero => exact (Nat.mod_one n).symm
  | succ j ih =>
    rw [List.range_succ, List.map_append, List.sum_append, ih, List.map_singleton,
      List.sum_singleton, Nat.mul_succ, Nat.pow_add, Nat.mod_mul]

theorem load64_store64 : load64 (store64 mem a v) a = v := by
  have hbytes : (List.range 8).map
      (fun k => 2 ^ (8 * k) * (store64 mem a v (a + BitVec.ofNat 64 k)).toNat) =
        (List.range 8).map fun k => 2 ^ (8 * k) * (v.toNat / 2 ^ (8 * k) % 2 ^ 8) := by
    refine List.map_congr_left fun k hk => ?_
    rw [store64_add (List.mem_range.1 hk), BitVec.toNat_ofNat]
  rw [load64, hbytes, sum_bytes, Nat.mod_eq_of_lt v.isLt, BitVec.ofNat_toNat, BitVec.setWidth_eq]

/-- The bytes from an address on are the same. -/
def SameAbove (a : BitVec 64) (mem mem' : BitVec 64 → BitVec 8) : Prop :=
  ∀ b : BitVec 64, a.toNat ≤ b.toNat → mem' b = mem b

theorem SameAbove.trans {mem'' : BitVec 64 → BitVec 8} (h : SameAbove a mem mem')
    (h' : SameAbove b mem' mem'') (hle : b.toNat ≤ a.toNat) : SameAbove a mem mem'' :=
  fun d hd => (h' d (hle.trans hd)).trans (h d hd)

theorem sameAbove_store64 (h : b.toNat + 8 ≤ a.toNat) : SameAbove a mem (store64 mem b v) := by
  intro d hd
  have hdiff : ¬ (d - b).toNat < 8 := by
    have hlt := d.isLt
    rw [BitVec.toNat_sub_of_le (BitVec.le_def.2 (by omega))]
    omega
  exact if_neg hdiff

theorem SameAbove.load64 (h : SameAbove a mem mem') (hle : a.toNat ≤ b.toNat)
    (htop : b.toNat + 8 ≤ 2 ^ 64) : load64 mem' b = load64 mem b := by
  unfold X86.load64
  congr 2
  refine List.map_congr_left fun k hk => ?_
  have hlt := List.mem_range.1 hk
  have habove : a.toNat ≤ (b + BitVec.ofNat 64 k).toNat := by
    rw [BitVec.toNat_add, BitVec.toNat_ofNat, Nat.mod_eq_of_lt (by omega),
      Nat.mod_eq_of_lt (by omega)]
    omega
  rw [h _ habove]

end Memory

section Stack
variable {L : Type} [DecidableEq L] {p : Source L} {c : Layout p} {Q : State → Prop} {i : ℕ}

theorem toNat_sub_eight {a : BitVec 64} (h : 8 ≤ a.toNat) : (a - 8).toNat = a.toNat - 8 :=
  BitVec.toNat_sub_of_le (BitVec.le_def.2 h)

theorem Layout.Reaches.pushes {instr : Instr L} {next v : BitVec 64} (hpc : s.pc = c.addr i)
    (hi : p.instrs[i]? = some instr) (hroom : 8 ≤ (s.reg .rsp).toNat)
    (hexec : exec c.label (c.addr (i + 1)) s instr = some { s with
      pc := next
      reg := Function.update s.reg .rsp (s.reg .rsp - 8)
      mem := store64 s.mem (s.reg .rsp - 8) v })
    (h : ∀ s', s'.pc = next → s'.reg .rsp = s.reg .rsp - 8 →
      (∀ r, r ≠ .rsp → s'.reg r = s.reg r) →
      load64 s'.mem (s.reg .rsp - 8) = v → SameAbove (s.reg .rsp) s.mem s'.mem →
      c.Reaches s' Q) : c.Reaches s Q := by
  refine .step hpc hi hexec (h _ rfl ?_ (fun r hr => ?_) load64_store64 ?_)
  · dsimp only
    rw [Function.update_self]
  · exact Function.update_of_ne hr ..
  · exact sameAbove_store64 (by rw [toNat_sub_eight hroom]; omega)

theorem Layout.Reaches.push {src : Reg} (hpc : s.pc = c.addr i)
    (hi : p.instrs[i]? = some (.push src)) (hroom : 8 ≤ (s.reg .rsp).toNat)
    (h : ∀ s', s'.pc = c.addr (i + 1) → s'.reg .rsp = s.reg .rsp - 8 →
      (∀ r, r ≠ .rsp → s'.reg r = s.reg r) →
      load64 s'.mem (s.reg .rsp - 8) = s.reg src → SameAbove (s.reg .rsp) s.mem s'.mem →
      c.Reaches s' Q) : c.Reaches s Q :=
  .pushes hpc hi hroom rfl h

theorem Layout.Reaches.call {l : L} (hpc : s.pc = c.addr i)
    (hi : p.instrs[i]? = some (.call l)) (hroom : 8 ≤ (s.reg .rsp).toNat)
    (h : ∀ s', s'.pc = c.label l → s'.reg .rsp = s.reg .rsp - 8 →
      (∀ r, r ≠ .rsp → s'.reg r = s.reg r) →
      load64 s'.mem (s.reg .rsp - 8) = c.addr (i + 1) → SameAbove (s.reg .rsp) s.mem s'.mem →
      c.Reaches s' Q) : c.Reaches s Q :=
  .pushes hpc hi hroom rfl h

theorem Layout.Reaches.pop {dst : Reg} (hpc : s.pc = c.addr i)
    (hi : p.instrs[i]? = some (.pop dst)) (hdst : dst ≠ .rsp)
    (h : ∀ s', s'.pc = c.addr (i + 1) → s'.reg .rsp = s.reg .rsp + 8 →
      s'.reg dst = load64 s.mem (s.reg .rsp) →
      (∀ r, r ≠ .rsp → r ≠ dst → s'.reg r = s.reg r) → s'.mem = s.mem → c.Reaches s' Q) :
    c.Reaches s Q := by
  refine .step hpc hi rfl (h _ rfl ?_ ?_ (fun r hr hr' => ?_) rfl)
  · dsimp only
    rw [Function.update_of_ne hdst.symm, Function.update_self]
  · dsimp only
    rw [Function.update_self]
  · dsimp only
    rw [Function.update_of_ne hr', Function.update_of_ne hr]

theorem Layout.Reaches.ret (hpc : s.pc = c.addr i) (hi : p.instrs[i]? = some .ret)
    (h : ∀ s', s'.pc = load64 s.mem (s.reg .rsp) → s'.reg .rsp = s.reg .rsp + 8 →
      (∀ r, r ≠ .rsp → s'.reg r = s.reg r) → s'.mem = s.mem → c.Reaches s' Q) :
    c.Reaches s Q := by
  refine .step hpc hi rfl (h _ rfl ?_ (fun r hr => ?_) rfl)
  · dsimp only
    rw [Function.update_self]
  · exact Function.update_of_ne hr ..

end Stack

end X86
