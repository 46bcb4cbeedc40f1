import Mathlib.Data.Nat.GCD.Basic
import Coursework.Lib.CInt
import Coursework.Lib.X86

/-! Greatest common divisor and least common multiple by trial: two assembly routines and the C
functions that they are to follow. -/
namespace GcdLcm
open X86 Pieces

inductive Label where
  | gcd
  | L5
  | L2
  | L3
  | L4
  | done
  | lcm
  | L15
  | L12
  | L13
  | L14
  | done2
  deriving DecidableEq

/-- `_gcd` and `_lcm`. -/
def source : Source Label :=
  [(.gcd, [.cmp (.reg .rsi) .rdi, .jcc .l .L3, .jmp .L4]),
    (.L5, [.mov (.reg .r8) .r9, .lea 1 .r9 .r9, .jmp .L2]),
    (.L2, [.dec .r9, .cmp (.imm 0) .r9, .jcc .le .done,
      .mov (.reg .rdi) .rax, .cqto, .idiv .r9, .cmp (.imm 0) .rdx, .jcc .ne .L2,
      .mov (.reg .rsi) .rax, .cqto, .idiv .r9, .cmp (.imm 0) .rdx, .jcc .ne .L2,
      .jmp .done, .ret]),
    (.L3, [.mov (.reg .rdi) .r8, .jmp .L5]),
    (.L4, [.mov (.reg .rsi) .r8, .jmp .L5]),
    (.done, [.mov (.reg .r9) .rax, .ret]),
    (.lcm, [.cmp (.reg .rsi) .rdi, .jcc .g .L13, .jmp .L14]),
    (.L15, [.mov (.reg .r8) .r9, .mov (.reg .r9) .rax, .imul .r8, .mov (.reg .rax) .r10,
      .sub (.reg .r8) .r9, .jmp .L12]),
    (.L12, [.add (.reg .r8) .r9, .cmp (.reg .r10) .r9, .jcc .g .done2,
      .mov (.reg .r9) .rax, .cqto, .idiv .rdi, .cmp (.imm 0) .rdx, .jcc .ne .L12,
      .mov (.reg .r9) .rax, .cqto, .idiv .rsi, .cmp (.imm 0) .rdx, .jcc .ne .L12,
      .jmp .done2, .ret]),
    (.L13, [.mov (.reg .rdi) .r8, .jmp .L15]),
    (.L14, [.mov (.reg .rsi) .r8, .jmp .L15]),
    (.done2, [.mov (.reg .r9) .rax, .ret])]

variable {c : Layout source} {n m : ℕ} {s : State}

/-- The registers hold the two arguments. -/
structure Args (n m : ℕ) (s : State) : Prop where
  rdi : s.reg .rdi = BitVec.ofNat 64 n
  rsi : s.reg .rsi = BitVec.ofNat 64 m

theorem Args.of_same {rs : List Reg} {s' : State} (h : Args n m s) (hs : SameBut rs s s')
    (hdi : .rdi ∉ rs) (hsi : .rsi ∉ rs) : Args n m s' :=
  ⟨(hs.reg _ hdi).trans h.rdi, (hs.reg _ hsi).trans h.rsi⟩

/-- The two tests of a round: both remainders must be 0. -/
theorem both_tests {Q : State → Prop} {i x y x' y' : ℕ} {a b a' b' : Reg} {l l' : Label}
    (hat : At source.instrs i [.mov (.reg a) .rax, .cqto, .idiv b, .cmp (.imm 0) .rdx, .jcc .ne l,
      .mov (.reg a') .rax, .cqto, .idiv b', .cmp (.imm 0) .rdx, .jcc .ne l, .jmp l'])
    (hpc : s.pc = c.addr i) (hregs : ∀ r ∈ [a, b, a', b'], r ≠ .rax ∧ r ≠ .rdx)
    (ha : s.reg a = BitVec.ofNat 64 x) (hb : s.reg b = BitVec.ofNat 64 y)
    (ha' : s.reg a' = BitVec.ofNat 64 x') (hb' : s.reg b' = BitVec.ofNat 64 y')
    (hx : x < 2 ^ 63 ∧ x' < 2 ^ 63) (hy : y < 2 ^ 63 ∧ y' < 2 ^ 63) (hpos : 0 < y ∧ 0 < y')
    (h : ∀ s', s'.pc = (if y ∣ x ∧ y' ∣ x' then c.label l' else c.label l) →
      SameBut [.rax, .rdx] s s' → c.Reaches s' Q) : c.Reaches s Q := by
  have hkept : ∀ r ∈ [a, b, a', b'], r ∉ [Reg.rax, Reg.rdx] := by
    intro r hr
    simpa using hregs r hr
  obtain ⟨hbrax, hbrdx⟩ := hregs b (by simp)
  obtain ⟨hbrax', hbrdx'⟩ := hregs b' (by simp)
  refine .remainder (hat.take 5) hpc ha hb hx.1 hy.1 hpos.1 hbrax hbrdx fun s₁ hpc₁ hs₁ => ?_
  by_cases h₁ : y ∣ x
  · rw [if_neg (not_not.2 (Nat.mod_eq_zero_of_dvd h₁))] at hpc₁
    have ha₁ := (hs₁.reg a' (hkept a' (by simp))).trans ha'
    have hb₁ := (hs₁.reg b' (hkept b' (by simp))).trans hb'
    refine .remainder ((hat.drop 5).take 5) hpc₁ ha₁ hb₁ hx.2 hy.2 hpos.2 hbrax' hbrdx'
      fun s₂ hpc₂ hs₂ => ?_
    have hs₂' : SameBut [.rax, .rdx] s s₂ := hs₁.trans hs₂ (by simp) (by simp)
    by_cases h₂ : y' ∣ x'
    · rw [if_neg (not_not.2 (Nat.mod_eq_zero_of_dvd h₂))] at hpc₂
      refine .jump hpc₂ (hat.get 10 rfl) fun s₃ hpc₃ hs₃ => ?_
      refine h s₃ ?_ (hs₂'.trans hs₃ (by simp) (by simp))
      rw [if_pos ⟨h₁, h₂⟩, hpc₃]
    · rw [if_pos fun h0 => h₂ (Nat.dvd_of_mod_eq_zero h0)] at hpc₂
      exact h s₂ (by rw [if_neg fun hand => h₂ hand.2, hpc₂]) hs₂'
  · rw [if_pos fun h0 => h₁ (Nat.dvd_of_mod_eq_zero h0)] at hpc₁
    exact h s₁ (by rw [if_neg fun hand => h₁ hand.1, hpc₁]) hs₁

theorem gcd_round {Q : State → Prop} {i : ℕ} (hn : n < 2 ^ 31) (hm : m < 2 ^ 31) (hi : 0 < i)
    (hi' : i < 2 ^ 31) (hpc : s.pc = c.label .L2) (hargs : Args n m s)
    (hr9 : s.reg .r9 = BitVec.ofNat 64 (i + 1))
    (h : ∀ s', s'.pc = (if i ∣ n ∧ i ∣ m then c.label .done else c.label .L2) →
      s'.reg .r9 = BitVec.ofNat 64 i → SameBut [.rax, .rdx, .r9] s s' → c.Reaches s' Q) :
    c.Reaches s Q := by
  refine .write hpc (rfl : source.instrs[6]? = some (.dec .r9)) rfl fun s₁ hpc₁ hr9₁ hs₁ => ?_
  rw [hr9, ofNat_sub_one] at hr9₁
  refine .compare (i := 7) rfl hpc₁ hr9₁ rfl (by omega) (by decide) fun s₂ hpc₂ hs₂ => ?_
  rw [if_neg (by simpa [Cond.compare] using hi.ne')] at hpc₂
  have hr9₂ := (hs₂.reg _ (by decide)).trans hr9₁
  have hs₂' : SameBut [.rax, .rdx, .r9] s s₂ := hs₁.trans hs₂ (by decide) (by decide)
  have hargs₂ := hargs.of_same hs₂' (by decide) (by decide)
  refine both_tests (i := 9) (l := .L2) rfl hpc₂ (by decide) hargs₂.rdi hr9₂ hargs₂.rsi hr9₂
    (by omega) (by omega) ⟨hi, hi⟩ fun s₃ hpc₃ hs₃ => ?_
  exact h s₃ hpc₃ ((hs₃.reg _ (by decide)).trans hr9₂) (hs₂'.trans hs₃ (by decide) (by decide))

/-- No common divisor is larger than `i`. -/
def Bounds (n m i : ℕ) : Prop := ∀ j, i < j → ¬ (j ∣ n ∧ j ∣ m)

theorem bounds_min (hn : 0 < n) (hm : 0 < m) : Bounds n m (min n m) := by
  rintro j hj ⟨hjn, hjm⟩
  have hle := le_min (Nat.le_of_dvd hn hjn) (Nat.le_of_dvd hm hjm)
  omega

theorem not_bounds_zero : ¬ Bounds n m 0 := fun h => h 1 Nat.one_pos ⟨one_dvd n, one_dvd m⟩

theorem Bounds.pred {i : ℕ} (h : Bounds n m (i + 1)) (hno : ¬ (i + 1 ∣ n ∧ i + 1 ∣ m)) :
    Bounds n m i := by
  intro j hj
  obtain rfl | hj := Nat.eq_or_lt_of_le (Nat.succ_le_of_lt hj)
  · exact hno
  · exact h j hj

theorem Bounds.gcd_eq {i : ℕ} (h : Bounds n m i) (hn : 0 < n) (hi : i ∣ n ∧ i ∣ m) :
    n.gcd m = i := by
  have hle := Nat.le_of_dvd (Nat.gcd_pos_of_pos_left m hn) (Nat.dvd_gcd hi.1 hi.2)
  by_contra hne
  exact h (n.gcd m) (by omega) ⟨Nat.gcd_dvd_left n m, Nat.gcd_dvd_right n m⟩

/-- The loop of `_gcd`, at its head with `i + 1` in `r9`: no larger number than `i` divides
both. -/
theorem gcd_loop (hn : 0 < n) (hn' : n < 2 ^ 31) (hm' : m < 2 ^ 31) {i : ℕ}
    (hpc : s.pc = c.label .L2) (hargs : Args n m s)
    (hr9 : s.reg .r9 = BitVec.ofNat 64 (i + 1)) (hi : i ≤ n)
    (hbounds : Bounds n m i) :
    c.Reaches s fun t => t.pc = c.label .done ∧ t.reg .r9 = BitVec.ofNat 64 (n.gcd m) ∧
      SameBut [.rax, .rdx, .r9] s t := by
  induction i generalizing s with
  | zero => exact absurd hbounds not_bounds_zero
  | succ i ih =>
    refine gcd_round hn' hm' (Nat.succ_pos i) (by omega) hpc hargs hr9 fun s₁ hpc₁ hr9₁ hs₁ => ?_
    by_cases hboth : i + 1 ∣ n ∧ i + 1 ∣ m
    · rw [if_pos hboth] at hpc₁
      exact .done ⟨hpc₁, by rw [hr9₁, hbounds.gcd_eq hn hboth], hs₁⟩
    · rw [if_neg hboth] at hpc₁
      have hargs₁ := hargs.of_same hs₁ (by decide) (by decide)
      refine (ih hpc₁ hargs₁ hr9₁ (by omega) (hbounds.pred hboth)).mono
        fun t ht => ⟨ht.1, ht.2.1, ?_⟩
      exact hs₁.trans ht.2.2 (by decide) (by decide)

theorem returns_r9 {v : BitVec 64} {t : State} (l : Label) (rs : List Reg)
    (hat : At source.instrs (source.entry l) [.mov (.reg .r9) .rax, .ret])
    (hpc : t.pc = c.label l) (hr9 : t.reg .r9 = v) (hsame : SameBut rs s t) (hsp : .rsp ∉ rs) :
    c.Reaches t fun t => t.pc = load64 s.mem (s.reg .rsp) ∧ t.reg .rsp = s.reg .rsp + 8 ∧
      t.reg .rax = v := by
  refine .write hpc (hat.get 0 rfl) rfl fun t₁ hpc₁ hrax₁ hs₁ => ?_
  have hrsp : t₁.reg .rsp = s.reg .rsp := (hs₁.reg _ (by decide)).trans (hsame.reg _ hsp)
  refine .ret hpc₁ (hat.get 1 rfl) fun t₂ hpc₂ hrsp₂ hreg₂ _ => .done ⟨?_, ?_, ?_⟩
  · rw [hpc₂, hrsp, hs₁.mem, hsame.mem]
  · rw [hrsp₂, hrsp]
  · rw [hreg₂ _ (by decide), hrax₁]
    exact hr9

/-- One of the arguments is put into `r8`, after a comparison. -/
theorem select {Q : State → Prop} {i : ℕ} (k : Cond) (l₁ l₂ l : Label)
    (hat : At source.instrs i [.cmp (.reg .rsi) .rdi, .jcc k l₁, .jmp l₂])
    (h₁ : At source.instrs (source.entry l₁) [.mov (.reg .rdi) .r8, .jmp l])
    (h₂ : At source.instrs (source.entry l₂) [.mov (.reg .rsi) .r8, .jmp l])
    (hn : n < 2 ^ 31) (hm : m < 2 ^ 31) (hpc : s.pc = c.addr i) (hargs : Args n m s)
    (h : ∀ s', s'.pc = c.label l →
      s'.reg .r8 = BitVec.ofNat 64 (if k.compare n m then n else m) →
      SameBut [.r8] s s' → c.Reaches s' Q) : c.Reaches s Q := by
  have hcmp : At source.instrs i [.cmp (.reg .rsi) .rdi, .jcc k l₁] := hat.take 2
  refine .compare hcmp hpc hargs.rdi hargs.rsi (by omega) (by omega) fun s₁ hpc₁ hs₁ => ?_
  have hargs₁ := hargs.of_same hs₁ (by decide) (by decide)
  by_cases hk : k.compare n m
  · rw [if_pos hk] at hpc₁ h
    refine .write hpc₁ (h₁.get 0 rfl) rfl fun s₂ hpc₂ hr8₂ hs₂ => ?_
    refine .jump hpc₂ (h₁.get 1 rfl) fun s₃ hpc₃ hs₃ => ?_
    have hs₂' : SameBut [.r8] s s₂ := hs₁.trans hs₂ (by decide) (by decide)
    refine h s₃ hpc₃ ?_ (hs₂'.trans hs₃ (by decide) (by decide))
    rw [hs₃.reg _ (by decide), hr8₂]
    exact hargs₁.rdi
  · rw [if_neg hk] at hpc₁ h
    refine .jump hpc₁ (hat.get 2 rfl) fun s₂ hpc₂ hs₂ => ?_
    have hargs₂ := hargs₁.of_same hs₂ (by decide) (by decide)
    have hs₂' : SameBut [] s s₂ := hs₁.trans hs₂ (by decide) (by decide)
    refine .write hpc₂ (h₂.get 0 rfl) rfl fun s₃ hpc₃ hr8₃ hs₃ => ?_
    refine .jump hpc₃ (h₂.get 1 rfl) fun s₄ hpc₄ hs₄ => ?_
    have hs₃' : SameBut [.r8] s s₃ := hs₂'.trans hs₃ (by decide) (by decide)
    refine h s₄ hpc₄ ?_ (hs₃'.trans hs₄ (by decide) (by decide))
    rw [hs₄.reg _ (by decide), hr8₃]
    exact hargs₂.rsi

/-- `_gcd` returns the greatest common divisor. -/
theorem gcd_returns (hn : 0 < n) (hn' : n < 2 ^ 31) (hm : 0 < m) (hm' : m < 2 ^ 31)
    (hpc : s.pc = c.label .gcd) (hargs : Args n m s) :
    c.Returns s (BitVec.ofNat 64 (n.gcd m)) := by
  -- from `.L5` on, with the smaller number in `r8`
  have hrest : ∀ s₁ : State, s₁.pc = c.label .L5 → s₁.reg .r8 = BitVec.ofNat 64 (min n m) →
      SameBut [.r8] s s₁ → c.Reaches s₁ fun t => t.pc = load64 s.mem (s.reg .rsp) ∧
        t.reg .rsp = s.reg .rsp + 8 ∧ t.reg .rax = BitVec.ofNat 64 (n.gcd m) := by
    intro s₁ hpc₁ hr8₁ hs₁
    refine .write hpc₁ (rfl : source.instrs[3]? = some (.mov (.reg .r8) .r9)) rfl
      fun s₂ hpc₂ hr9₂ hs₂ => ?_
    refine .write hpc₂ (rfl : source.instrs[4]? = some (.lea 1 .r9 .r9)) rfl
      fun s₃ hpc₃ hr9₃ hs₃ => ?_
    refine .jump hpc₃ (rfl : source.instrs[5]? = some (.jmp .L2)) fun s₄ hpc₄ hs₄ => ?_
    have hr9₄ : s₄.reg .r9 = BitVec.ofNat 64 (min n m + 1) := by
      rw [hs₄.reg _ (by decide), hr9₃, hr9₂, State.value, hr8₁, BitVec.ofNat_add]
      rfl
    have hs₃' : SameBut [.r8, .r9] s s₃ :=
      (hs₁.trans hs₂ (by decide) (by decide) : SameBut [.r8, .r9] s s₂).trans hs₃ (by decide)
        (by decide)
    have hs₄' : SameBut [.r8, .r9] s s₄ := hs₃'.trans hs₄ (by decide) (by decide)
    have hargs₄ := hargs.of_same hs₄' (by decide) (by decide)
    refine (gcd_loop hn hn' hm' hpc₄ hargs₄ hr9₄ (Nat.min_le_left n m)
      (bounds_min hn hm)).trans ?_
    rintro t ⟨hpct, hr9t, hst⟩
    exact returns_r9 .done [.r8, .r9, .rax, .rdx] rfl hpct hr9t
      (hs₄'.trans hst (by decide) (by decide)) (by decide)
  refine select (i := 0) .l .L3 .L4 .L5 rfl rfl rfl hn' hm' hpc hargs fun s₁ hpc₁ hr8₁ hs₁ => ?_
  refine hrest s₁ hpc₁ ?_ hs₁
  rw [hr8₁, Cond.compare]
  by_cases hlt : n < m
  · rw [if_pos (decide_eq_true hlt), Nat.min_eq_left hlt.le]
  · rw [if_neg (by simpa using hlt), Nat.min_eq_right (by omega)]

theorem lcm_round {Q : State → Prop} {j y x : ℕ} (hn : 0 < n ∧ n < 2 ^ 31) (hm : 0 < m ∧ m < 2 ^ 31)
    (hx : y + j = x) (hle : x ≤ j * j) (hsmall : j * j < 2 ^ 63) (hpc : s.pc = c.label .L12)
    (hargs : Args n m s) (hr8 : s.reg .r8 = BitVec.ofNat 64 j)
    (hr9 : s.reg .r9 = BitVec.ofNat 64 y) (hr10 : s.reg .r10 = BitVec.ofNat 64 (j * j))
    (h : ∀ s', s'.pc = (if n ∣ x ∧ m ∣ x then c.label .done2 else c.label .L12) →
      s'.reg .r9 = BitVec.ofNat 64 x → SameBut [.rax, .rdx, .r9] s s' → c.Reaches s' Q) :
    c.Reaches s Q := by
  refine .write hpc (rfl : source.instrs[36]? = some (.add (.reg .r8) .r9)) rfl
    fun s₁ hpc₁ hr9₁ hs₁ => ?_
  rw [hr9, State.value, hr8, ← BitVec.ofNat_add, hx] at hr9₁
  have hr10₁ : s₁.value (.reg .r10) = BitVec.ofNat 64 (j * j) :=
    (hs₁.reg _ (by decide)).trans hr10
  refine .compare (i := 37) rfl hpc₁ hr9₁ hr10₁ (by omega) hsmall fun s₂ hpc₂ hs₂ => ?_
  rw [if_neg (by simpa [Cond.compare] using hle)] at hpc₂
  have hr9₂ := (hs₂.reg _ (by decide)).trans hr9₁
  have hs₂' : SameBut [.rax, .rdx, .r9] s s₂ := hs₁.trans hs₂ (by decide) (by decide)
  have hargs₂ := hargs.of_same hs₂' (by decide) (by decide)
  refine both_tests (i := 39) (l := .L12) rfl hpc₂ (by decide) hr9₂ hargs₂.rdi hr9₂ hargs₂.rsi
    (by omega) (by omega) ⟨hn.1, hm.1⟩ fun s₃ hpc₃ hs₃ => ?_
  exact h s₃ hpc₃ ((hs₃.reg _ (by decide)).trans hr9₂) (hs₂'.trans hs₃ (by decide) (by decide))

/-- The loop of `_lcm`, at its head with a multiple of `j` in `r9`, `d + 1` times `j` below the
least common multiple. -/
theorem lcm_loop (hn : 0 < n ∧ n < 2 ^ 31) (hm : 0 < m ∧ m < 2 ^ 31) {j d y : ℕ}
    (hy : y + (d + 1) * j = n.lcm m) (hj : 0 < j) (hle : n.lcm m ≤ j * j)
    (hsmall : j * j < 2 ^ 63) (hpc : s.pc = c.label .L12) (hargs : Args n m s)
    (hr8 : s.reg .r8 = BitVec.ofNat 64 j) (hr9 : s.reg .r9 = BitVec.ofNat 64 y)
    (hr10 : s.reg .r10 = BitVec.ofNat 64 (j * j)) :
    c.Reaches s fun t => t.pc = c.label .done2 ∧ t.reg .r9 = BitVec.ofNat 64 (n.lcm m) ∧
      SameBut [.rax, .rdx, .r9] s t := by
  have hmul : (d + 1) * j = d * j + j := Nat.succ_mul d j
  induction d generalizing s y with
  | zero =>
    rw [Nat.zero_add, Nat.one_mul] at hy
    refine lcm_round hn hm hy hle hsmall hpc hargs hr8 hr9 hr10 fun s₁ hpc₁ hr9₁ hs₁ => ?_
    rw [if_pos ⟨Nat.dvd_lcm_left n m, Nat.dvd_lcm_right n m⟩] at hpc₁
    exact .done ⟨hpc₁, hr9₁, hs₁⟩
  | succ d ih =>
    have hmul' : (d + 1) * j = d * j + j := Nat.succ_mul d j
    have hlt : y + j < n.lcm m := by omega
    refine lcm_round hn hm rfl (by omega) hsmall hpc hargs hr8 hr9 hr10
      fun s₁ hpc₁ hr9₁ hs₁ => ?_
    have hno : ¬ (n ∣ y + j ∧ m ∣ y + j) := fun h =>
      absurd (Nat.le_of_dvd (by omega) (Nat.lcm_dvd h.1 h.2)) (Nat.not_le.2 hlt)
    rw [if_neg hno] at hpc₁
    have hargs₁ := hargs.of_same hs₁ (by decide) (by decide)
    refine (ih (y := y + j) (by omega) hpc₁ hargs₁ ((hs₁.reg _ (by decide)).trans hr8) hr9₁
      ((hs₁.reg _ (by decide)).trans hr10) hmul').mono fun t ht => ⟨ht.1, ht.2.1, ?_⟩
    exact hs₁.trans ht.2.2 (by decide) (by decide)

theorem lcm_max (hn : 0 < n) (hm : 0 < m) :
    (∃ d, (d + 1) * max n m = n.lcm m) ∧ n.lcm m ≤ max n m * max n m := by
  have hpos := Nat.lcm_pos hn hm
  have hdvd : max n m ∣ n.lcm m := by
    obtain h | h := Nat.le_total n m
    · rw [Nat.max_eq_right h]
      exact Nat.dvd_lcm_right n m
    · rw [Nat.max_eq_left h]
      exact Nat.dvd_lcm_left n m
  constructor
  · obtain ⟨q, hq⟩ := hdvd
    obtain ⟨d, rfl⟩ : ∃ d, q = d + 1 := by
      refine ⟨q - 1, (Nat.succ_pred_eq_of_pos (Nat.pos_of_ne_zero ?_)).symm⟩
      rintro rfl
      omega
    exact ⟨d, by rw [hq, Nat.mul_comm]⟩
  · exact (Nat.le_of_dvd (Nat.mul_pos hn hm) (Nat.lcm_dvd (Nat.dvd_mul_right n m)
      (Nat.dvd_mul_left m n))).trans (Nat.mul_le_mul (Nat.le_max_left n m) (Nat.le_max_right n m))

/-- What `_lcm` does before its loop, with the larger number in `r8`. -/
theorem lcm_start {j : ℕ} (hj : j < 2 ^ 31) (hpc : s.pc = c.label .L15)
    (hr8 : s.reg .r8 = BitVec.ofNat 64 j) :
    c.Reaches s fun t => t.pc = c.label .L12 ∧ t.reg .r8 = BitVec.ofNat 64 j ∧
      t.reg .r9 = BitVec.ofNat 64 0 ∧ t.reg .r10 = BitVec.ofNat 64 (j * j) ∧
      SameBut [.r9, .r10, .rax, .rdx] s t := by
  refine .write hpc (rfl : source.instrs[30]? = some (.mov (.reg .r8) .r9)) rfl
    fun s₁ hpc₁ hr9₁ hs₁ => ?_
  refine .write hpc₁ (rfl : source.instrs[31]? = some (.mov (.reg .r9) .rax)) rfl
    fun s₂ hpc₂ hrax₂ hs₂ => ?_
  have hr8₂ := (hs₂.reg .r8 (by decide)).trans ((hs₁.reg .r8 (by decide)).trans hr8)
  have hr9₂ := (hs₂.reg .r9 (by decide)).trans (hr9₁.trans hr8)
  refine .imul hpc₂ (rfl : source.instrs[32]? = some (.imul .r8))
    (hrax₂.trans (hr9₁.trans hr8)) hr8₂ (by omega) (by omega) fun s₃ hpc₃ hrax₃ hs₃ => ?_
  refine .write hpc₃ (rfl : source.instrs[33]? = some (.mov (.reg .rax) .r10)) rfl
    fun s₄ hpc₄ hr10₄ hs₄ => ?_
  have hr8₄ := (hs₄.reg .r8 (by decide)).trans ((hs₃.reg .r8 (by decide)).trans hr8₂)
  have hr9₄ := (hs₄.reg .r9 (by decide)).trans ((hs₃.reg .r9 (by decide)).trans hr9₂)
  refine .write hpc₄ (rfl : source.instrs[34]? = some (.sub (.reg .r8) .r9)) rfl
    fun s₅ hpc₅ hr9₅ hs₅ => ?_
  rw [hr9₄, State.value, hr8₄, BitVec.sub_self] at hr9₅
  refine .jump hpc₅ (rfl : source.instrs[35]? = some (.jmp .L12)) fun s₆ hpc₆ hs₆ => ?_
  refine .done ⟨hpc₆, ?_, (hs₆.reg .r9 (by decide)).trans hr9₅, ?_, fun r hr => ?_, ?_⟩
  · rw [hs₆.reg .r8 (by decide), hs₅.reg .r8 (by decide), hr8₄]
  · rw [hs₆.reg .r10 (by decide), hs₅.reg .r10 (by decide), hr10₄]
    exact hrax₃
  · have hr' : r ≠ .r9 ∧ r ≠ .r10 ∧ r ≠ .rax ∧ r ≠ .rdx := by simpa using hr
    rw [hs₆.reg r (by simp), hs₅.reg r (by simp [hr']), hs₄.reg r (by simp [hr']),
      hs₃.reg r (by simp [hr']), hs₂.reg r (by simp [hr']), hs₁.reg r (by simp [hr'])]
  · rw [hs₆.mem, hs₅.mem, hs₄.mem, hs₃.mem, hs₂.mem, hs₁.mem]

/-- `_lcm` returns the least common multiple. -/
theorem lcm_returns (hn : 0 < n ∧ n < 2 ^ 31) (hm : 0 < m ∧ m < 2 ^ 31)
    (hpc : s.pc = c.label .lcm) (hargs : Args n m s) :
    c.Returns s (BitVec.ofNat 64 (n.lcm m)) := by
  refine select (i := 27) .g .L13 .L14 .L15 rfl rfl rfl hn.2 hm.2 hpc hargs
    fun s₁ hpc₁ hr8₁ hs₁ => ?_
  have hmax : (if Cond.g.compare n m then n else m) = max n m := by
    rw [Cond.compare]
    by_cases hlt : m < n
    · rw [if_pos (decide_eq_true hlt), Nat.max_eq_left hlt.le]
    · rw [if_neg (by simpa using hlt), Nat.max_eq_right (by omega)]
  obtain ⟨⟨d, hd⟩, hle⟩ := lcm_max hn.1 hm.1
  rw [hmax] at hr8₁
  have hj : max n m < 2 ^ 31 := max_lt hn.2 hm.2
  have hjpos : 0 < max n m := hn.1.trans_le (Nat.le_max_left n m)
  generalize max n m = j at hr8₁ hd hle hj hjpos
  have hsmall : j * j < 2 ^ 63 := by
    have hsq : j * j ≤ (2 ^ 31 - 1) * (2 ^ 31 - 1) := Nat.mul_le_mul (by omega) (by omega)
    omega
  refine (lcm_start hj hpc₁ hr8₁).trans ?_
  rintro s₂ ⟨hpc₂, hr8₂, hr9₂, hr10₂, hs₂⟩
  have hs₂' : SameBut [.r8, .r9, .r10, .rax, .rdx] s s₂ := hs₁.trans hs₂ (by decide) (by decide)
  have hargs₂ := hargs.of_same hs₂' (by decide) (by decide)
  refine (lcm_loop hn hm ((Nat.zero_add _).trans hd) hjpos hle hsmall hpc₂ hargs₂ hr8₂ hr9₂
    hr10₂).trans ?_
  rintro t ⟨hpct, hr9t, hst⟩
  exact returns_r9 .done2 [.r8, .r9, .r10, .rax, .rdx] rfl hpct hr9t
    (hs₂'.trans hst (by decide) (by decide)) (by decide)

section Reference

/-- The loop of `gcd` in C. -/
def gcdLoop (n m : ℤ) : ℕ → ℤ → Option ℤ
  | 0, _ => none
  | fuel + 1, i =>
    if 0 < i then
      if n.tmod i = 0 ∧ m.tmod i = 0 then some i else gcdLoop n m fuel (i - 1)
    else some i

def gcd (fuel : ℕ) (n m : ℤ) : Option ℤ := gcdLoop n m fuel (if n < m then n else m)

/-- The loop of `lcm` in C; there is no result when an `int` overflows. -/
def lcmLoop (n m j : ℤ) : ℕ → ℤ → Option ℤ
  | 0, _ => none
  | fuel + 1, i => do
    let bound ← CInt.checked (m * n)
    if i ≤ bound then
      if i.tmod n = 0 ∧ i.tmod m = 0 then some i
      else do
        let i ← CInt.checked (i + j)
        lcmLoop n m j fuel i
    else some i

def lcm (fuel : ℕ) (n m : ℤ) : Option ℤ :=
  let j := if n > m then n else m
  lcmLoop n m j fuel j

theorem tmod_eq_zero (x y : ℕ) : (x : ℤ).tmod y = 0 ↔ y ∣ x := by
  have htmod : (x : ℤ).tmod y = ((x % y : ℕ) : ℤ) := rfl
  rw [htmod, Int.natCast_eq_zero, Nat.dvd_iff_mod_eq_zero]

theorem gcdLoop_eq (hn : 0 < n) {i fuel : ℕ} (hfuel : i < fuel) (hbounds : Bounds n m i) :
    gcdLoop n m fuel i = some (n.gcd m : ℤ) := by
  induction i generalizing fuel with
  | zero => exact absurd hbounds not_bounds_zero
  | succ i ih =>
    obtain ⟨fuel, rfl⟩ : ∃ k, fuel = k + 1 := ⟨fuel - 1, by omega⟩
    have htest := and_congr (tmod_eq_zero n (i + 1)) (tmod_eq_zero m (i + 1))
    rw [gcdLoop, if_pos (by omega)]
    by_cases hboth : i + 1 ∣ n ∧ i + 1 ∣ m
    · rw [if_pos (htest.2 hboth), hbounds.gcd_eq hn hboth]
    · rw [if_neg (mt htest.1 hboth), Int.natCast_succ, Int.add_sub_cancel]
      exact ih (by omega) (hbounds.pred hboth)

/-- The loop of `lcm` with a multiple of `j` in `i`, `d` times `j` below the least common
multiple. -/
theorem lcmLoop_eq (hn : 0 < n) (hm : 0 < m) (hfits : n * m < 2 ^ 31) {i j d fuel : ℕ}
    (hfuel : d < fuel) (hi : 0 < i) (hd : i + d * j = n.lcm m) :
    lcmLoop n m j fuel i = some (n.lcm m : ℤ) := by
  have hle : n.lcm m ≤ n * m :=
    Nat.le_of_dvd (Nat.mul_pos hn hm) (Nat.lcm_dvd (Nat.dvd_mul_right n m) (Nat.dvd_mul_left m n))
  have hbound : CInt.checked ((m : ℤ) * n) = some ((n * m : ℕ) : ℤ) := by
    have hmul : (m : ℤ) * n = ((n * m : ℕ) : ℤ) := by rw [Int.natCast_mul, Int.mul_comm]
    rw [hmul, CInt.checked_natCast hfits]
  induction fuel generalizing i d with
  | zero => omega
  | succ fuel ih =>
    have htest := and_congr (tmod_eq_zero i n) (tmod_eq_zero i m)
    rw [lcmLoop, hbound, Option.bind_eq_bind, Option.bind_some,
      if_pos (Int.ofNat_le.2 (by omega : i ≤ n * m))]
    by_cases hboth : n ∣ i ∧ m ∣ i
    · have heq : i = n.lcm m :=
        Nat.le_antisymm (by omega) (Nat.le_of_dvd hi (Nat.lcm_dvd hboth.1 hboth.2))
      rw [if_pos (htest.2 hboth), ← heq]
    · obtain ⟨d, rfl⟩ : ∃ k, d = k + 1 := by
        refine ⟨d - 1, (Nat.succ_pred_eq_of_pos (Nat.pos_of_ne_zero ?_)).symm⟩
        rintro rfl
        have heq : i = n.lcm m := by omega
        exact hboth (heq ▸ ⟨Nat.dvd_lcm_left n m, Nat.dvd_lcm_right n m⟩)
      have hmul : (d + 1) * j = d * j + j := Nat.succ_mul d j
      have hnext : CInt.checked ((i : ℤ) + j) = some ((i + j : ℕ) : ℤ) := by
        rw [← Int.natCast_add, CInt.checked_natCast (by omega)]
      rw [if_neg (mt htest.1 hboth), hnext, Option.bind_some]
      exact ih (d := d) (by omega) (by omega) (by omega)

theorem reference_eq (hn : 0 < n) (hm : 0 < m) (hfits : n * m < 2 ^ 31) :
    ∃ fuel, gcd fuel n m = some (n.gcd m : ℤ) ∧ lcm fuel n m = some (n.lcm m : ℤ) := by
  obtain ⟨⟨d, hd⟩, -⟩ := lcm_max hn hm
  refine ⟨min n m + d + 1, ?_, ?_⟩
  · have hmin : (if (n : ℤ) < m then (n : ℤ) else m) = ((min n m : ℕ) : ℤ) := by
      by_cases hlt : n < m
      · rw [if_pos (Int.ofNat_lt.2 hlt), Nat.min_eq_left hlt.le]
      · rw [if_neg (mt Int.ofNat_lt.1 hlt), Nat.min_eq_right (by omega)]
    rw [gcd, hmin]
    exact gcdLoop_eq hn (by omega) (bounds_min hn hm)
  · have hmax : (if (n : ℤ) > m then (n : ℤ) else m) = ((max n m : ℕ) : ℤ) := by
      by_cases hlt : m < n
      · rw [if_pos (Int.ofNat_lt.2 hlt), Nat.max_eq_left hlt.le]
      · rw [if_neg (mt Int.ofNat_lt.1 hlt), Nat.max_eq_right (by omega)]
    have hmul : (d + 1) * max n m = d * max n m + max n m := Nat.succ_mul d _
    unfold lcm
    rw [hmax]
    exact lcmLoop_eq (d := d) hn hm hfits (by omega) (hn.trans_le (Nat.le_max_left n m)) (by omega)

end Reference

theorem setWidth_ofNat (hn : n < 2 ^ 31) :
    (BitVec.ofNat 32 n).setWidth 64 = BitVec.ofNat 64 n := by
  apply BitVec.eq_of_toNat_eq
  rw [BitVec.toNat_setWidth, BitVec.toNat_ofNat, BitVec.toNat_ofNat]
  omega

/-- For positive numbers of type `int` the two routines, entered with the numbers zero-extended,
return their greatest common divisor and least common multiple, wherever the code stands, and
if the product is an `int` so do the C functions. -/
theorem gl_agrees (c : Layout source) (hn : 0 < n ∧ n < 2 ^ 31) (hm : 0 < m ∧ m < 2 ^ 31) :
    (∀ s : State, s.reg .rdi = (BitVec.ofNat 32 n).setWidth 64 →
      s.reg .rsi = (BitVec.ofNat 32 m).setWidth 64 →
      (s.pc = c.label .gcd → c.Returns s (BitVec.ofNat 64 (n.gcd m))) ∧
        (s.pc = c.label .lcm → c.Returns s (BitVec.ofNat 64 (n.lcm m)))) ∧
      (n * m < 2 ^ 31 →
        ∃ fuel, gcd fuel n m = some (n.gcd m : ℤ) ∧ lcm fuel n m = some (n.lcm m : ℤ)) := by
  refine ⟨fun s hdi hsi => ?_, reference_eq hn.1 hm.1⟩
  rw [setWidth_ofNat hn.2] at hdi
  rw [setWidth_ofNat hm.2] at hsi
  exact ⟨fun hpc => gcd_returns hn.1 hn.2 hm.1 hm.2 hpc ⟨hdi, hsi⟩,
    fun hpc => lcm_returns hn hm hpc ⟨hdi, hsi⟩⟩

/-- The code from address 0 on. -/
def packed : Layout source := .packed source (by decide)

theorem gl_agrees_packed :
    (∀ s : State, s.reg .rdi = (BitVec.ofNat 32 12).setWidth 64 →
      s.reg .rsi = (BitVec.ofNat 32 18).setWidth 64 →
      (s.pc = packed.label .gcd → packed.Returns s (BitVec.ofNat 64 (Nat.gcd 12 18))) ∧
        (s.pc = packed.label .lcm → packed.Returns s (BitVec.ofNat 64 (Nat.lcm 12 18)))) ∧
      (12 * 18 < 2 ^ 31 → ∃ fuel, gcd fuel (12 : ℕ) (18 : ℕ) = some ((Nat.gcd 12 18 : ℕ) : ℤ) ∧
        lcm fuel (12 : ℕ) (18 : ℕ) = some ((Nat.lcm 12 18 : ℕ) : ℤ)) :=
  gl_agrees packed (by decide) (by decide)

end GcdLcm
