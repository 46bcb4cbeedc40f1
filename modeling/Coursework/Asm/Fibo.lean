import Coursework.Lib.X86

/-! The numbers of Fibonacci by recursion: an assembly routine and the C function that it is to
follow. -/
namespace Fibo
open X86 Pieces

inductive Label where
  | fibo
  | recur
  deriving DecidableEq

/-- `_fibo` and `recur`. -/
def source : Source Label :=
  [(.fibo, [.cmp (.imm 1) .rdi, .jcc .g .recur, .mov (.imm 1) .rax, .ret]),
    (.recur, [.push .rbx, .dec .rdi, .call .fibo, .mov (.reg .rax) .rbx, .dec .rdi, .call .fibo,
      .add (.reg .rbx) .rax, .add (.imm 2) .rdi, .pop .rbx, .ret])]

/-- `fibo`, in a type of numbers. -/
def fibo (R : Type) [One R] [Add R] : ℕ → R
  | 0 => 1
  | 1 => 1
  | n + 2 => fibo R (n + 1) + fibo R n

theorem fibo_bitVec (n : ℕ) : fibo (BitVec 32) n = BitVec.ofNat 32 (fibo ℕ n) := by
  induction n using fibo.induct with
  | case1 => rfl
  | case2 => rfl
  | case3 n ih₁ ih₂ => rw [fibo, fibo, ih₁, ih₂, BitVec.ofNat_add]

variable {c : Layout source} {s : State} {n : ℕ}

/-- At the instruction `ret` with `v` in `rax`: the other registers and the memory above the stack
pointer are as in `s`. -/
structure Ready (c : Layout source) (s : State) (v : BitVec 64) (t : State) : Prop where
  ret : ∃ i, t.pc = c.addr i ∧ source.instrs[i]? = some .ret
  rax : t.reg .rax = v
  reg : ∀ r, r ≠ .rax → t.reg r = s.reg r
  mem : SameAbove (s.reg .rsp) s.mem t.mem

/-- After the return. -/
structure Returned (s : State) (v : BitVec 64) (t : State) : Prop where
  pc : t.pc = load64 s.mem (s.reg .rsp)
  rax : t.reg .rax = v
  rsp : t.reg .rsp = s.reg .rsp + 8
  reg : ∀ r, r ≠ .rax → r ≠ .rsp → t.reg r = s.reg r
  mem : SameAbove (s.reg .rsp) s.mem t.mem

theorem Ready.returned {v : BitVec 64} {t : State} (h : Ready c s v t)
    (htop : (s.reg .rsp).toNat + 8 ≤ 2 ^ 64) : c.Reaches t (Returned s v) := by
  obtain ⟨i, hpc, hi⟩ := h.ret
  have hrsp := h.reg .rsp (by decide)
  refine .ret hpc hi fun t' hpc' hrsp' hreg' hmem' => .done ⟨?_, ?_, ?_, ?_, ?_⟩
  · rw [hpc', hrsp, h.mem.load64 le_rfl htop]
  · rw [hreg' _ (by decide), h.rax]
  · rw [hrsp', hrsp]
  · intro r hr hr'
    rw [hreg' r hr', h.reg r hr]
  · rw [hmem']
    exact h.mem

/-- What `_fibo` needs and does: the frames of `n - 1` nested calls below the stack pointer, and
the return address above it. -/
def Correct (c : Layout source) (n : ℕ) : Prop :=
  ∀ s : State, s.pc = c.label .fibo → s.reg .rdi = BitVec.ofNat 64 n →
    16 * (n - 1) ≤ (s.reg .rsp).toNat → (s.reg .rsp).toNat + 8 ≤ 2 ^ 64 →
      c.Reaches s (Ready c s (BitVec.ofNat 64 (fibo ℕ n)))

theorem correct_small (hn : n ≤ 1) (hfibo : fibo ℕ n = 1) : Correct c n := by
  intro s hpc hrdi _ _
  refine .compare (i := 0) rfl hpc hrdi rfl (by omega) (by decide) fun s₁ hpc₁ hs₁ => ?_
  rw [if_neg (by simpa [Cond.compare] using hn)] at hpc₁
  refine .write hpc₁ (rfl : source.instrs[2]? = some (.mov (.imm 1) .rax)) rfl
    fun s₂ hpc₂ hrax₂ hs₂ => ?_
  refine .done ⟨⟨3, hpc₂, rfl⟩, ?_, fun r hr => ?_, fun b _ => ?_⟩
  · rw [hrax₂, hfibo]
    rfl
  · rw [hs₂.reg r (by simpa using hr), hs₁.reg r List.not_mem_nil]
  · rw [hs₂.mem, hs₁.mem]

/-- A nested call: it returns behind the call with the result in `rax`, and with the stack as it
was. -/
theorem Correct.call {Q : State → Prop} {i : ℕ} (h : Correct c n) (hpc : s.pc = c.addr i)
    (hi : source.instrs[i]? = some (.call .fibo)) (hrdi : s.reg .rdi = BitVec.ofNat 64 n)
    (hroom : 16 * (n - 1) + 8 ≤ (s.reg .rsp).toNat)
    (hQ : ∀ s', s'.pc = c.addr (i + 1) → s'.reg .rax = BitVec.ofNat 64 (fibo ℕ n) →
      (∀ r, r ≠ .rax → s'.reg r = s.reg r) → SameAbove (s.reg .rsp) s.mem s'.mem →
      c.Reaches s' Q) : c.Reaches s Q := by
  refine .call hpc hi (by omega) fun s₁ hpc₁ hrsp₁ hreg₁ hload₁ hmem₁ => ?_
  have hlt := (s.reg .rsp).isLt
  have hsp : (s₁.reg .rsp).toNat = (s.reg .rsp).toNat - 8 := by
    rw [hrsp₁, toNat_sub_eight (by omega)]
  have hrdi₁ := (hreg₁ .rdi (by decide)).trans hrdi
  refine (h s₁ hpc₁ hrdi₁ (by omega) (by omega)).trans fun t ht => ?_
  refine (ht.returned (by omega)).trans fun t' ht' => ?_
  refine hQ t' ?_ ht'.rax (fun r hr => ?_) (hmem₁.trans ht'.mem (by omega))
  · rw [ht'.pc, hrsp₁, hload₁]
  · by_cases hr' : r = .rsp
    · rw [hr', ht'.rsp, hrsp₁, BitVec.sub_add_cancel]
    · rw [ht'.reg r hr hr', hreg₁ r hr']

/-- What `recur` does after the first nested call, with `v` saved on the stack. -/
structure Restored (c : Layout source) (s : State) (n : ℕ) (t : State) : Prop where
  pc : t.pc = c.addr 13
  rax : t.reg .rax = BitVec.ofNat 64 (fibo ℕ (n + 2))
  rdi : t.reg .rdi = BitVec.ofNat 64 (n + 2)
  rbx : t.reg .rbx = load64 s.mem (s.reg .rsp)
  rsp : t.reg .rsp = s.reg .rsp + 8
  reg : ∀ r, r ∉ [Reg.rax, .rdi, .rbx, .rsp] → t.reg r = s.reg r
  mem : SameAbove (s.reg .rsp) s.mem t.mem

/-- The second nested call takes its argument from the register that the first has restored. -/
theorem Correct.second (h₀ : Correct c n) (hpc : s.pc = c.addr 7)
    (hrax : s.reg .rax = BitVec.ofNat 64 (fibo ℕ (n + 1)))
    (hrdi : s.reg .rdi = BitVec.ofNat 64 (n + 1)) (hroom : 16 * (n - 1) + 8 ≤ (s.reg .rsp).toNat)
    (htop : (s.reg .rsp).toNat + 8 ≤ 2 ^ 64) : c.Reaches s (Restored c s n) := by
  refine .write hpc (rfl : source.instrs[7]? = some (.mov (.reg .rax) .rbx)) rfl
    fun s₁ hpc₁ hrbx₁ hs₁ => ?_
  refine .write hpc₁ (rfl : source.instrs[8]? = some (.dec .rdi)) rfl
    fun s₂ hpc₂ hrdi₂ hs₂ => ?_
  rw [hs₁.reg _ (by decide), hrdi, ofNat_sub_one] at hrdi₂
  have hs₂' : SameBut [.rbx, .rdi] s s₂ := hs₁.trans hs₂ (by decide) (by decide)
  have hrsp₂ := hs₂'.reg .rsp (by decide)
  have hrbx₂ := (hs₂.reg .rbx (by decide)).trans (hrbx₁.trans hrax)
  refine h₀.call hpc₂ rfl hrdi₂ (by rw [hrsp₂]; exact hroom) fun s₃ hpc₃ hrax₃ hreg₃ hmem₃ => ?_
  rw [hrsp₂, hs₂'.mem] at hmem₃
  refine .write hpc₃ (rfl : source.instrs[10]? = some (.add (.reg .rbx) .rax)) rfl
    fun s₄ hpc₄ hrax₄ hs₄ => ?_
  rw [hrax₃, State.value, hreg₃ _ (by decide), hrbx₂, ← BitVec.ofNat_add, Nat.add_comm] at hrax₄
  refine .write hpc₄ (rfl : source.instrs[11]? = some (.add (.imm 2) .rdi)) rfl
    fun s₅ hpc₅ hrdi₅ hs₅ => ?_
  rw [hs₄.reg _ (by decide), hreg₃ _ (by decide), hrdi₂] at hrdi₅
  have hs₅' : SameBut [.rax, .rdi] s₃ s₅ := hs₄.trans hs₅ (by decide) (by decide)
  have hrsp₅ : s₅.reg .rsp = s.reg .rsp := by
    rw [hs₅'.reg _ (by decide), hreg₃ _ (by decide), hrsp₂]
  rw [← hs₅'.mem] at hmem₃
  refine .pop hpc₅ (rfl : source.instrs[12]? = some (.pop .rbx)) (by decide)
    fun s₆ hpc₆ hrsp₆ hrbx₆ hreg₆ hmem₆ => .done ⟨hpc₆, ?_, ?_, ?_, ?_, fun r hr => ?_, ?_⟩
  · rw [hreg₆ _ (by decide) (by decide), hs₅.reg _ (by decide), hrax₄, fibo]
  · rw [hreg₆ _ (by decide) (by decide), hrdi₅, BitVec.ofNat_add]
    rfl
  · rw [hrbx₆, hrsp₅, hmem₃.load64 le_rfl htop]
  · rw [hrsp₆, hrsp₅]
  · have hr' : r ≠ .rax ∧ r ≠ .rdi ∧ r ≠ .rbx ∧ r ≠ .rsp := by simpa using hr
    rw [hreg₆ r hr'.2.2.2 hr'.2.2.1, hs₅'.reg r (by simp [hr']), hreg₃ r hr'.1,
      hs₂'.reg r (by simp [hr'])]
  · rw [hmem₆]
    exact hmem₃

/-- The recursive case. -/
theorem Correct.recur (h₁ : Correct c (n + 1)) (h₀ : Correct c n) : Correct c (n + 2) := by
  intro s hpc hrdi hroom htop
  have hlt := (s.reg .rsp).isLt
  refine .compare (i := 0) rfl hpc hrdi rfl (by omega) (by decide) fun s₁ hpc₁ hs₁ => ?_
  rw [if_pos (by simp [Cond.compare])] at hpc₁
  have hrsp₁ := hs₁.reg .rsp List.not_mem_nil
  refine .push hpc₁ (rfl : source.instrs[4]? = some (.push .rbx)) (by rw [hrsp₁]; omega)
    fun s₂ hpc₂ hrsp₂ hreg₂ hload₂ hmem₂ => ?_
  rw [hs₁.reg .rbx List.not_mem_nil] at hload₂
  rw [hrsp₁, hs₁.mem] at hmem₂
  have hsp₂ : (s₂.reg .rsp).toNat = (s.reg .rsp).toNat - 8 := by
    rw [hrsp₂, hrsp₁, toNat_sub_eight (by omega)]
  have hrdi₂ : s₂.reg .rdi = BitVec.ofNat 64 (n + 2) := by
    rw [hreg₂ _ (by decide), hs₁.reg _ List.not_mem_nil, hrdi]
  refine .write hpc₂ (rfl : source.instrs[5]? = some (.dec .rdi)) rfl
    fun s₃ hpc₃ hrdi₃ hs₃ => ?_
  rw [hrdi₂, ofNat_sub_one] at hrdi₃
  have hrsp₃ := hs₃.reg .rsp (by decide)
  refine h₁.call hpc₃ rfl hrdi₃ (by rw [hrsp₃]; omega) fun s₄ hpc₄ hrax₄ hreg₄ hmem₄ => ?_
  rw [hrsp₃, hs₃.mem] at hmem₄
  have hrsp₄ : s₄.reg .rsp = s₂.reg .rsp := (hreg₄ _ (by decide)).trans hrsp₃
  have hrdi₄ := (hreg₄ .rdi (by decide)).trans hrdi₃
  refine (h₀.second hpc₄ hrax₄ hrdi₄ (by rw [hrsp₄]; omega) (by rw [hrsp₄]; omega)).mono
    fun t ht => ⟨⟨13, ht.pc, rfl⟩, ht.rax, fun r hr => ?_, ?_⟩
  · by_cases hrsp : r = .rsp
    · rw [hrsp, ht.rsp, hrsp₄, hrsp₂, hrsp₁, BitVec.sub_add_cancel]
    by_cases hdi : r = .rdi
    · rw [hdi, ht.rdi, hrdi]
    by_cases hrbx : r = .rbx
    · -- the value has been pushed at entry, and neither call has written above it
      rw [hrbx, ht.rbx, hrsp₄, hmem₄.load64 le_rfl (by omega), hrsp₂, hload₂]
    rw [ht.reg r (by simp [hr, hrsp, hdi, hrbx]), hreg₄ r hr, hs₃.reg r (by simp [hdi]),
      hreg₂ r hrsp, hs₁.reg r List.not_mem_nil]
  · have hmem := ht.mem
    rw [hrsp₄] at hmem
    exact (hmem₂.trans hmem₄ (by omega)).trans hmem (by omega)

theorem correct (c : Layout source) (n : ℕ) : Correct c n := by
  induction n using fibo.induct with
  | case1 => exact correct_small (Nat.zero_le 1) rfl
  | case2 => exact correct_small le_rfl rfl
  | case3 n ih₁ ih₂ => exact ih₁.recur ih₂

/-- With room for the frames of its nested calls, `_fibo` entered with `n` in `rdi` comes to a
`ret` and back to its caller, wherever the code stands: with the number in `rax`, whose low half is
the result with 32 bits, and the argument, `rbx` and the stack pointer as they were. -/
theorem fibo_agrees (c : Layout source) (hpc : s.pc = c.label .fibo)
    (hrdi : s.reg .rdi = BitVec.ofNat 64 n) (hroom : 16 * (n - 1) ≤ (s.reg .rsp).toNat)
    (htop : (s.reg .rsp).toNat + 8 ≤ 2 ^ 64) :
    c.Reaches s (fun t => Ready c s (BitVec.ofNat 64 (fibo ℕ n)) t ∧
      c.Reaches t (Returned s (BitVec.ofNat 64 (fibo ℕ n)))) ∧
      (BitVec.ofNat 64 (fibo ℕ n)).setWidth 32 = fibo (BitVec 32) n := by
  refine ⟨(correct c n s hpc hrdi hroom htop).mono fun t ht => ⟨ht, ht.returned htop⟩, ?_⟩
  rw [fibo_bitVec]
  apply BitVec.eq_of_toNat_eq
  rw [BitVec.toNat_setWidth, BitVec.toNat_ofNat, BitVec.toNat_ofNat]
  omega

/-- The code from address 0 on. -/
def packed : Layout source := .packed source (by decide)

/-- A call with 5 in `rdi` and the stack pointer at 4096. -/
def five : State where
  pc := 0
  reg r := if r = .rdi then 5 else if r = .rsp then 4096 else 0
  flags := none
  mem _ := 0

theorem fibo_agrees_five :
    packed.Reaches five (fun t => Ready packed five (BitVec.ofNat 64 (fibo ℕ 5)) t ∧
      packed.Reaches t (Returned five (BitVec.ofNat 64 (fibo ℕ 5)))) ∧
      (BitVec.ofNat 64 (fibo ℕ 5)).setWidth 32 = fibo (BitVec 32) 5 :=
  fibo_agrees packed rfl rfl (by decide) (by decide)

end Fibo
