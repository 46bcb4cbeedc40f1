import Coursework.Journal.CrashSafety
import Mathlib

/-! Whether the calls of `log_write` that the operations may make fit the log: `begin_op`
reserves `MAXOPBLOCKS` blocks for each operation in progress. -/
namespace Journal
open Program BigFile

/-- The log, and for each operation in progress the blocks that it has logged so far, the last
one first. -/
structure Ops where
  kernel : Kernel
  held : Multiset (List ℕ)

inductive Work where
  | enter
  | write (b : ℕ) (data : Block)
  | leave

/-- A process asks to start an operation, or one of the operations logs a block or ends. `P`
tells what blocks an operation may log. -/
inductive Ops.Step (a : Area) (P : List ℕ → Prop) (s : Ops) : Work → Ops → Prop
  | wait {k} (h : (beginOp s.kernel).result = .ok false k) : Step a P s .enter ⟨k, s.held⟩
  | enter {k} (h : (beginOp s.kernel).result = .ok true k) : Step a P s .enter ⟨k, [] ::ₘ s.held⟩
  | write {k l held b data} (hl : s.held = l ::ₘ held) (hP : P (b :: l))
    (h : (modify a b data s.kernel).result = .ok () k) :
    Step a P s (.write b data) ⟨k, (b :: l) ::ₘ held⟩
  | leave {k l held} (hl : s.held = l ::ₘ held) (h : (endOp a s.kernel).result = .ok () k) :
    Step a P s .leave ⟨k, held⟩

/-- In every run on an idle log, each block that an operation may log, it can log. -/
def NeverFull (a : Area) (P : List ℕ → Prop) (buf disk : ℕ → Block) : Prop :=
  ∀ ls s, Transitions.Run (Ops.Step a P) ⟨⟨0, false, [], buf, disk⟩, 0⟩ ls s →
    ∀ l ∈ s.held, ∀ b data, P (b :: l) → ∃ k, (modify a b data s.kernel).result = .ok () k

variable {a : Area} {P : List ℕ → Prop} {s : Ops}

/-- What is reserved for the operations in progress is left in the log. -/
structure Reserved (s : Ops) : Prop where
  outstanding : s.kernel.outstanding = s.held.card
  idle : s.kernel.committing = false
  room : s.kernel.lh.length + (s.held.map fun l => maxopblocks - l.length).sum ≤ logsize

section Frames

theorem keeps_frame (s₀ : Kernel) (b : Kernel → ℕ) (data : Kernel → Block) :
    Keeps (Frame s₀) (do
      let s ← Program.read
      bwrite (b s) (data s)) :=
  Keeps.bind Keeps.read fun _ => Keeps.assign fun _ h => h.put _ _

theorem writeLog_frame (s₀ : Kernel) : Keeps (Frame s₀) (writeLog a) :=
  Keeps.bind Keeps.read fun _ => Keeps.forM (fun _ => keeps_frame s₀ _ _) _

theorem installTrans_frame (s₀ : Kernel) : Keeps (Frame s₀) (installTrans a) :=
  Keeps.bind Keeps.read fun _ => Keeps.forM (fun _ => keeps_frame s₀ _ _) _

theorem writeHead_frame (s₀ : Kernel) : Keeps (Frame s₀) (writeHead a) := keeps_frame s₀ _ _

/-- After a commit the log is empty. -/
theorem commit_empties (k : Kernel) :
    Ensures (fun _ => True) (fun _ => True) (commit a) k
      (fun _ k' => k'.lh = [] ∧ k'.outstanding = k.outstanding ∧ k'.committing = k.committing)
      fun _ _ => True := by
  have hkeep : ∀ {m : M Unit} {k₀ k₁ : Kernel}, Keeps (Frame k₀) m → Frame k₀ k₁ →
      Ensures (fun _ => True) (fun _ => True) m k₁ (fun _ => Frame k₀) fun _ _ => True :=
    fun hm hk => ((hm _ hk).mono_events fun _ _ => trivial).mono (fun _ _ h => h)
      fun _ _ _ => trivial
  apply Ensures.read_bind
  by_cases hl : 0 < k.lh.length
  · rw [if_pos hl]
    apply Ensures.bind (hkeep (writeLog_frame k) .refl)
    intro _ k₁ h₁
    apply Ensures.bind (hkeep (writeHead_frame k) h₁)
    intro _ k₂ h₂
    apply Ensures.bind (hkeep (installTrans_frame k) h₂)
    intro _ k₃ h₃
    apply Ensures.change_bind
    exact (hkeep (writeHead_frame { k₃ with lh := [] }) .refl).mono
      (fun _ k₄ h₄ => ⟨h₄.lh, h₄.outstanding.trans h₃.outstanding,
        h₄.committing.trans h₃.committing⟩) fun _ _ h => h
  · rw [if_neg hl]
    exact Ensures.pure ⟨List.eq_nil_of_length_eq_zero (by omega), rfl, rfl⟩

end Frames

section Steps

theorem beginOp_result {k k' : Kernel} {r : Bool} (h : (beginOp k).result = .ok r k') :
    (r = false ∧ k' = k) ∨ (r = true ∧ k' = { k with outstanding := k.outstanding + 1 } ∧
      k.lh.length + (k.outstanding + 1) * maxopblocks ≤ (logsize : ℤ)) := by
  have he : Ensures (fun _ => True) (fun _ => True) beginOp k (fun r k' =>
      (r = false ∧ k' = k) ∨ (r = true ∧ k' = { k with outstanding := k.outstanding + 1 } ∧
        k.lh.length + (k.outstanding + 1) * maxopblocks ≤ (logsize : ℤ))) fun _ _ => True := by
    apply Ensures.read_bind
    by_cases hc : k.committing
    · rw [if_pos hc]
      exact Ensures.pure (.inl ⟨rfl, rfl⟩)
    rw [if_neg hc]
    by_cases hl : (logsize : ℤ) < k.lh.length + (k.outstanding + 1) * maxopblocks
    · rw [if_pos hl]
      exact Ensures.pure (.inl ⟨rfl, rfl⟩)
    · rw [if_neg hl]
      exact Ensures.change_bind (Ensures.pure (.inr ⟨rfl, rfl, not_lt.1 hl⟩))
  exact he.of_ok h

theorem endOp_result {k k' : Kernel} (hi : k.committing = false)
    (h : (endOp a k).result = .ok () k') :
    k'.outstanding = k.outstanding - 1 ∧ k'.committing = false ∧
      if k.outstanding = 1 then k'.lh = [] else k'.lh = k.lh := by
  have he : Ensures (fun _ => True) (fun _ => True) (endOp a) k (fun _ k' =>
      k'.outstanding = k.outstanding - 1 ∧ k'.committing = false ∧
        if k.outstanding = 1 then k'.lh = [] else k'.lh = k.lh) fun _ _ => True := by
    refine Ensures.change_bind (Ensures.read_bind ?_)
    change Ensures _ _ (if k.committing then _ else _) _ _ _
    rw [if_neg (by rw [hi]; exact Bool.false_ne_true)]
    by_cases ho : k.outstanding - 1 = 0
    · rw [if_pos ho]
      refine Ensures.change_bind (Ensures.bind (commit_empties _) ?_)
      rintro _ k₁ ⟨hl, ho', -⟩
      exact Ensures.change ⟨ho', rfl, by rwa [if_pos (by omega)]⟩
    · rw [if_neg ho]
      exact Ensures.pure ⟨rfl, hi, by rw [if_neg (by omega)]⟩
  exact he.of_ok h

theorem modify_ok {k : Kernel} {b : ℕ} {data : Block} (hl : k.lh.length < logsize)
    (hr : k.lh.length + 1 < a.size) (ho : 1 ≤ k.outstanding) :
    (modify a b data k).result = .ok () (k.logged b data) := by
  have he : Ensures (fun _ => True) (fun _ => True) (modify a b data) k
      (fun _ k' => k' = k.logged b data) fun _ _ => False := by
    refine Ensures.change_bind (Ensures.read_bind ?_)
    rw [if_neg (not_or.2 ⟨Nat.not_le.2 hl, Nat.not_le.2 hr⟩), if_neg (not_lt.2 ho)]
    exact Ensures.change rfl
  obtain ⟨_, _, h, rfl⟩ := he.returns
  exact h

/-- What an operation may log counts against the reservation. -/
theorem Reserved.step {s' : Ops} {w : Work} (hP : ∀ l, P l → l.length ≤ maxopblocks)
    (h : Reserved s) (hs : s.Step a P w s') : Reserved s' := by
  have hout := h.outstanding
  have hroom := h.room
  cases hs with
  | wait hr =>
    rcases beginOp_result hr with ⟨-, rfl⟩ | ⟨he, -⟩
    · exact h
    · cases he
  | enter hr =>
    rcases beginOp_result hr with ⟨he, -⟩ | ⟨-, rfl, hle⟩
    · cases he
    have hsum : (s.held.map fun l => maxopblocks - l.length).sum ≤ s.held.card * maxopblocks := by
      have hsum := Multiset.sum_le_card_nsmul (s.held.map fun l => maxopblocks - l.length)
        maxopblocks fun n hn => by
          obtain ⟨l, -, rfl⟩ := Multiset.mem_map.1 hn
          exact Nat.sub_le _ _
      rwa [Multiset.card_map, smul_eq_mul] at hsum
    refine ⟨?_, h.idle, ?_⟩
    · rw [Multiset.card_cons]
      push_cast
      rw [hout]
    · rw [Multiset.map_cons, Multiset.sum_cons, List.length_nil]
      rw [hout] at hle
      unfold maxopblocks at hle hsum ⊢
      change s.kernel.lh.length + _ ≤ logsize
      omega
  | @write k l held b data hl hP' hr =>
    obtain ⟨-, rfl⟩ := (modify_ensures s.kernel b data).of_ok hr
    have hlen := hP _ hP'
    have hmem : (s.kernel.logged b data).lh.length ≤ s.kernel.lh.length + 1 := by
      by_cases hm : b ∈ s.kernel.lh <;> simp [Kernel.logged, hm]
    rw [hl, Multiset.map_cons, Multiset.sum_cons] at hroom
    rw [hl, Multiset.card_cons] at hout
    refine ⟨?_, h.idle, ?_⟩
    · rw [Multiset.card_cons]
      exact hout
    · rw [Multiset.map_cons, Multiset.sum_cons]
      rw [List.length_cons] at hlen ⊢
      change (s.kernel.logged b data).lh.length + _ ≤ _
      omega
  | @leave k l held hl hr =>
    obtain ⟨ho, hc, hlog⟩ := endOp_result h.idle hr
    rw [hl, Multiset.map_cons, Multiset.sum_cons] at hroom
    rw [hl, Multiset.card_cons] at hout
    refine ⟨?_, hc, ?_⟩
    · change k.outstanding = held.card
      omega
    change k.lh.length + (held.map _).sum ≤ logsize
    by_cases h1 : s.kernel.outstanding = 1
    · rw [if_pos h1] at hlog
      have hnil : held = 0 := Multiset.card_eq_zero.1 (by omega)
      rw [hlog, hnil]
      exact Nat.zero_le _
    · rw [if_neg h1] at hlog
      rw [hlog]
      omega

end Steps

section Filling
variable {buf disk : ℕ → Block}

/-- Three operations in progress have filled `n` blocks of the log. -/
structure Filled (n : ℕ) (s : Ops) : Prop where
  idle : s.kernel.committing = false
  outstanding : s.kernel.outstanding = 3
  lh : s.kernel.lh = List.range n
  card : s.held.card = 3
  short : ∀ l ∈ s.held, l.length ≤ maxopblocks
  sum : (s.held.map List.length).sum = n
  logged : ∀ l ∈ s.held, ∀ b ∈ l, b < n

theorem Filled.spare {n : ℕ} (h : Filled n s) (hn : n < logsize) :
    ∃ l ∈ s.held, l.length < maxopblocks := by
  by_contra hno
  push Not at hno
  have hsum := Multiset.card_nsmul_le_sum (s := s.held.map List.length) (a := maxopblocks)
    fun k hk => by
      obtain ⟨l, hl, rfl⟩ := Multiset.mem_map.1 hk
      exact hno l hl
  rw [Multiset.card_map, h.card, h.sum, smul_eq_mul] at hsum
  unfold logsize at hn
  omega

/-- If no block is refused before, the log can be filled up to `n` blocks. -/
theorem exists_filled (hP : ∀ l : List ℕ, l.length ≤ maxopblocks → P l) {n : ℕ} (hn : n ≤ logsize)
    (h : ∀ ls s, Transitions.Run (Ops.Step a P) ⟨⟨0, false, [], buf, disk⟩, 0⟩ ls s →
      ∀ m < n, Filled m s → ∀ l ∈ s.held, P (m :: l) →
        ∃ k, (modify a m (fun _ => 0) s.kernel).result = .ok () k) :
    ∃ ls s, Transitions.Run (Ops.Step a P) ⟨⟨0, false, [], buf, disk⟩, 0⟩ ls s ∧
      Filled n s := by
  induction n with
  | zero =>
    have h₀ : Transitions.Run (Ops.Step a P) ⟨⟨0, false, [], buf, disk⟩, 0⟩ [] _ := .nil
    have h₁ := h₀.snoc (.enter rfl)
    have h₂ := h₁.snoc (.enter rfl)
    have h₃ := h₂.snoc (.enter rfl)
    exact ⟨_, _, h₃, rfl, rfl, rfl, rfl, by simp, rfl, by simp⟩
  | succ n ih =>
    obtain ⟨ls, s, hrun, hs⟩ := ih (by omega) fun ls s hrun m hm => h ls s hrun m (by omega)
    obtain ⟨l, hl, hlen⟩ := hs.spare hn
    obtain ⟨held, hheld⟩ := Multiset.exists_cons_of_mem hl
    have hPl := hP (n :: l) hlen
    obtain ⟨k, hk⟩ := h ls s hrun n n.lt_succ_self hs l hl hPl
    refine ⟨_, _, hrun.snoc (.write hheld hPl hk), ?_⟩
    obtain ⟨-, rfl⟩ := (modify_ensures s.kernel n _).of_ok hk
    have hcard := hs.card
    have hsum := hs.sum
    have hshort := hs.short
    have hlogged := hs.logged
    rw [hheld] at hcard hsum hshort hlogged
    refine ⟨hs.idle, hs.outstanding, ?_, ?_, ?_, ?_, ?_⟩
    · change (if n ∈ s.kernel.lh then s.kernel.lh else s.kernel.lh ++ [n]) = _
      rw [hs.lh, if_neg (by simp), List.range_succ]
    · rw [Multiset.card_cons] at hcard ⊢
      exact hcard
    · intro l' hl'
      rcases Multiset.mem_cons.1 hl' with rfl | hl'
      · exact hlen
      · exact hshort l' (Multiset.mem_cons_of_mem hl')
    · rw [Multiset.map_cons, Multiset.sum_cons] at hsum ⊢
      rw [List.length_cons]
      omega
    · intro l' hl' b hb
      rcases Multiset.mem_cons.1 hl' with rfl | hl'
      · rcases List.mem_cons.1 hb with rfl | hb
        · exact b.lt_succ_self
        · exact Nat.lt_succ_of_lt (hlogged l (Multiset.mem_cons_self l held) b hb)
      · exact Nat.lt_succ_of_lt (hlogged l' (Multiset.mem_cons_of_mem hl') b hb)

end Filling

/-- If no operation calls `log_write` more than `MAXOPBLOCKS` times, no call stops the machine,
provided that the log on the disk is longer than `LOGSIZE`; `mkfs` makes it one block too
short. -/
theorem neverFull_calls_iff (buf disk : ℕ → Block) :
    NeverFull a (fun l => l.length ≤ maxopblocks) buf disk ↔ logsize < a.size := by
  constructor
  · intro h
    obtain ⟨ls, s, hrun, hs⟩ := exists_filled (fun _ h => h) (Nat.sub_le logsize 1)
      fun ls s hrun m _ _ l hl => h ls s hrun l hl m _
    obtain ⟨l, hl, hlen⟩ := hs.spare (by decide)
    obtain ⟨k, hk⟩ := h ls s hrun l hl 0 (fun _ => 0) hlen
    have hroom := ((modify_ensures s.kernel 0 _).of_ok hk).1.2.1
    rw [hs.lh, List.length_range] at hroom
    omega
  · intro ha ls s hrun l hl b data hlen
    have hR : Reserved s := hrun.invariant (P := fun _ => True)
      (fun _ _ _ hI _ hs => hI.step (fun _ h => h) hs) ⟨rfl, rfl, Nat.zero_le _⟩
      fun _ _ => trivial
    obtain ⟨held, hheld⟩ := Multiset.exists_cons_of_mem hl
    have hroom := hR.room
    have hout := hR.outstanding
    rw [hheld, Multiset.map_cons, Multiset.sum_cons] at hroom
    rw [hheld, Multiset.card_cons] at hout
    rw [List.length_cons] at hlen
    exact ⟨_, modify_ok (by omega) (by omega) (by omega)⟩

theorem card_le_of_length {l : List ℕ} (h : l.length ≤ maxopblocks) :
    l.toFinset.card ≤ maxopblocks :=
  (List.toFinset_card_le l).trans h

/-- In a full log a block that is in it is refused. -/
theorem exists_refused (ha : 1 < a.size) (buf disk : ℕ → Block) :
    ∃ ls s, Transitions.Run (Ops.Step a fun l => l.toFinset.card ≤ maxopblocks)
      ⟨⟨0, false, [], buf, disk⟩, 0⟩ ls s ∧ ∃ l ∈ s.held, ∃ b ∈ l,
        (b :: l).toFinset.card ≤ maxopblocks ∧ b ∈ s.kernel.lh ∧
          ∀ data k, (modify a b data s.kernel).result ≠ .ok () k := by
  obtain ⟨n, hn⟩ : ∃ n, n = min logsize (a.size - 1) := ⟨_, rfl⟩
  have hle : n ≤ logsize := hn ▸ Nat.min_le_left _ _
  have hpos : 0 < n := by
    rw [hn]
    exact Nat.lt_min.2 ⟨by decide, by omega⟩
  obtain ⟨ls, s, hrun, hs⟩ := exists_filled (a := a) (fun _ h => card_le_of_length h) hle
    fun ls s hrun m hm hs l _ _ => by
      have hlen : s.kernel.lh.length = m := by rw [hs.lh, List.length_range]
      exact ⟨_, modify_ok (by omega) (by omega) (by rw [hs.outstanding]; decide)⟩
  -- one of the operations has logged a block
  obtain ⟨l, hl, hne⟩ : ∃ l ∈ s.held, l ≠ [] := by
    by_contra hno
    push Not at hno
    have hsum := hs.sum
    rw [Multiset.sum_eq_zero] at hsum
    · omega
    · intro k hk
      obtain ⟨l, hl, rfl⟩ := Multiset.mem_map.1 hk
      rw [hno l hl]
      rfl
  obtain ⟨b, hb⟩ := List.exists_mem_of_ne_nil l hne
  refine ⟨ls, s, hrun, l, hl, b, hb, ?_, ?_, fun data k hk => ?_⟩
  · rw [List.toFinset_cons, Finset.insert_eq_of_mem (List.mem_toFinset.2 hb)]
    exact card_le_of_length (hs.short l hl)
  · rw [hs.lh]
    exact List.mem_range.2 (hs.logged l hl b hb)
  · have hroom := ((modify_ensures s.kernel b data).of_ok hk).1
    rw [hs.lh, List.length_range] at hroom
    omega

/-- `log_write` tests for room before it looks for the block, so a bound on the number of
different blocks is not enough, however long the log is: if it holds any block, a block that is in
it can be refused. -/
theorem not_neverFull_blocks (buf disk : ℕ → Block) :
    ¬ NeverFull a (fun l => l.toFinset.card ≤ maxopblocks) buf disk ∧
      (1 < a.size → ∃ ls s, Transitions.Run (Ops.Step a fun l => l.toFinset.card ≤ maxopblocks)
        ⟨⟨0, false, [], buf, disk⟩, 0⟩ ls s ∧ ∃ l ∈ s.held, ∃ b ∈ l,
          (b :: l).toFinset.card ≤ maxopblocks ∧ b ∈ s.kernel.lh ∧
            ∀ data k, (modify a b data s.kernel).result ≠ .ok () k) := by
  refine ⟨fun h => ?_, fun ha => exists_refused ha buf disk⟩
  by_cases ha : 1 < a.size
  · obtain ⟨ls, s, hrun, l, hl, b, -, hcard, -, hno⟩ := exists_refused ha buf disk
    obtain ⟨k, hk⟩ := h ls s hrun l hl b (fun _ => 0) hcard
    exact hno _ k hk
  · obtain ⟨ls, s, hrun, hs⟩ := exists_filled (a := a) (fun _ h => card_le_of_length h)
      (Nat.zero_le logsize) fun _ _ _ m hm => absurd hm m.not_lt_zero
    obtain ⟨l, hl, hlen⟩ := hs.spare (by decide)
    obtain ⟨k, hk⟩ := h ls s hrun l hl 0 (fun _ => 0) (card_le_of_length hlen)
    have hroom := ((modify_ensures s.kernel 0 _).of_ok hk).1.2.1
    omega

end Journal
