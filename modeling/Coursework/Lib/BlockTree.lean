import Mathlib.Data.List.Range
import Mathlib.Data.List.Nodup
import Mathlib.Logic.Function.Basic
import Mathlib.Data.List.Basic

/-! Forests of block pointers: each slot sits in a root record or in a block that another
slot names, 0 stands for no block, and a bitmap tells which blocks are in use. -/
namespace BlockTree

variable {σ : Type*}

/-- Where each slot of a forest is kept: as entry `idx` of the block its parent names, or
in a root record. -/
structure Shape (σ : Type*) where
  parent : σ → Option σ
  idx : σ → ℕ
  rank : σ → ℕ
  rank_lt : ∀ {τ q}, parent τ = some q → rank q < rank τ
  idx_inj : ∀ {τ τ' q}, parent τ = some q → parent τ' = some q → idx τ = idx τ' → τ = τ'

/-- `ptr` is what the slots hold when `root` gives the root records and `word` the entries
of each block. -/
structure Resolves (S : Shape σ) (root : σ → ℕ) (word : ℕ → ℕ → ℕ) (ptr : σ → ℕ) : Prop where
  root : ∀ {τ}, S.parent τ = none → ptr τ = root τ
  null : ∀ {τ q}, S.parent τ = some q → ptr q = 0 → ptr τ = 0
  entry : ∀ {τ q}, S.parent τ = some q → ptr q ≠ 0 → ptr τ = word (ptr q) (S.idx τ)

theorem Shape.induction (S : Shape σ) {P : σ → Prop}
    (h : ∀ τ, (∀ q, S.parent τ = some q → P q) → P τ) (τ : σ) : P τ := by
  induction hn : S.rank τ using Nat.strong_induction_on generalizing τ with
  | _ n ih =>
    apply h
    intro q hq
    exact ih (S.rank q) (hn ▸ S.rank_lt hq) q rfl

namespace Resolves

variable {S : Shape σ} {root root' : σ → ℕ} {word word' : ℕ → ℕ → ℕ} {ptr ptr' : σ → ℕ}

theorem frame (h : Resolves S root word ptr) (h' : Resolves S root word' ptr')
    (hw : ∀ {τ q}, S.parent τ = some q → ptr q ≠ 0 →
      word' (ptr q) (S.idx τ) = word (ptr q) (S.idx τ)) : ptr' = ptr := by
  funext τ
  induction τ using S.induction with
  | h τ ih =>
    cases hp : S.parent τ with
    | none => rw [h.root hp, h'.root hp]
    | some q =>
      have e := ih q hp
      by_cases h0 : ptr q = 0
      · rw [h.null hp h0, h'.null hp (e.trans h0)]
      · rw [h.entry hp h0, h'.entry hp (by rwa [e]), e, hw hp h0]

variable [DecidableEq σ] {b : ℕ} {τ₀ p : σ}

/-- A fresh zeroed block hung into a root record. -/
theorem assign_root (h : Resolves S root word ptr) (h' : Resolves S root' word' ptr')
    (hp : S.parent τ₀ = none) (h0 : ptr τ₀ = 0) (hb : b ≠ 0)
    (hroot : root' = Function.update root τ₀ b)
    (hzero : ∀ k, word' b k = 0) (hword : ∀ q, ptr q ≠ 0 → word' (ptr q) = word (ptr q)) :
    ptr' = Function.update ptr τ₀ b := by
  funext τ
  induction τ using S.induction with
  | h τ ih =>
    cases hq : S.parent τ with
    | none =>
      rw [h'.root hq, hroot]
      by_cases e : τ = τ₀
      · simp [e]
      · simp [e, h.root hq]
    | some q =>
      have e : τ ≠ τ₀ := fun e => by simp [← e, hq] at hp
      rw [Function.update_of_ne e]
      have hq' := ih q hq
      by_cases eq : q = τ₀
      · rw [eq, Function.update_self] at hq'
        rw [h'.entry hq (by rwa [eq, hq']), eq, hq', hzero, h.null hq (by rw [eq, h0])]
      · rw [Function.update_of_ne eq] at hq'
        by_cases hz : ptr q = 0
        · rw [h.null hq hz, h'.null hq (hq'.trans hz)]
        · rw [h.entry hq hz, h'.entry hq (by rwa [hq']), hq', hword q hz]

/-- A fresh zeroed block hung into an entry of a block that one slot names. -/
theorem assign_entry (h : Resolves S root word ptr) (h' : Resolves S root word' ptr')
    (hp : S.parent τ₀ = some p) (hp0 : ptr p ≠ 0) (h0 : ptr τ₀ = 0) (hb : b ≠ 0)
    (hself : word' (ptr p) (S.idx τ₀) = b)
    (hother : ∀ k, k ≠ S.idx τ₀ → word' (ptr p) k = word (ptr p) k)
    (hzero : ∀ k, word' b k = 0)
    (hword : ∀ q, ptr q ≠ 0 → q ≠ p → word' (ptr q) = word (ptr q)) :
    ptr' = Function.update ptr τ₀ b := by
  have hpne : p ≠ τ₀ := by
    intro e
    exact hp0 (e ▸ h0)
  funext τ
  induction τ using S.induction with
  | h τ ih =>
    cases hq : S.parent τ with
    | none =>
      have e : τ ≠ τ₀ := fun e => by simp [← e, hq] at hp
      rw [Function.update_of_ne e, h.root hq, h'.root hq]
    | some q =>
      have hq' := ih q hq
      by_cases eq : q = τ₀
      · have e : τ ≠ τ₀ := by
          intro e
          rw [e, hp, Option.some.injEq] at hq
          exact hpne (hq.trans eq)
        rw [eq, Function.update_self] at hq'
        rw [Function.update_of_ne e, h'.entry hq (by rwa [eq, hq']), eq, hq', hzero,
          h.null hq (by rw [eq, h0])]
      · rw [Function.update_of_ne eq] at hq'
        by_cases hz : ptr q = 0
        · have e : τ ≠ τ₀ := by
            intro e
            rw [e, hp, Option.some.injEq] at hq
            exact hp0 (hq ▸ hz)
          rw [Function.update_of_ne e, h.null hq hz, h'.null hq (hq'.trans hz)]
        · rw [h'.entry hq (by rwa [hq']), hq']
          by_cases ep : q = p
          · subst ep
            by_cases e : τ = τ₀
            · rw [e, hself, Function.update_self]
            · have hk : S.idx τ ≠ S.idx τ₀ := fun hk => e (S.idx_inj hq hp hk)
              rw [Function.update_of_ne e, hother _ hk, h.entry hq hz]
          · have e : τ ≠ τ₀ := by
              intro e
              rw [e, hp, Option.some.injEq] at hq
              exact ep hq.symm
            rw [Function.update_of_ne e, hword q hz ep, h.entry hq hz]

end Resolves

/-- The blocks below `hi` that are not in use, in order. -/
def freeList (used : ℕ → Bool) (hi : ℕ) : List ℕ := (List.range hi).filter fun b => !used b

theorem mem_freeList {used : ℕ → Bool} {hi b : ℕ} :
    b ∈ freeList used hi ↔ b < hi ∧ used b = false := by
  simp [freeList]

theorem nodup_freeList (used : ℕ → Bool) (hi : ℕ) : (freeList used hi).Nodup :=
  List.nodup_range.filter _

theorem freeList_eq {used : ℕ → Bool} {hi : ℕ} {l : List ℕ} (hl : l.Pairwise (· < ·))
    (h : ∀ b, b ∈ l ↔ b < hi ∧ used b = false) : freeList used hi = l := by
  have hlt : (freeList used hi).Pairwise (· < ·) := List.pairwise_lt_range.filter _
  have hperm : (freeList used hi).Perm l := by
    rw [List.perm_ext_iff_of_nodup (nodup_freeList used hi) (hl.imp Nat.ne_of_lt)]
    intro b
    rw [mem_freeList, h]
  exact hperm.eq_of_pairwise (fun _ _ _ _ h1 h2 => absurd h2 (Nat.lt_asymm h1)) hlt hl

theorem freeList_mark {used : ℕ → Bool} {hi b : ℕ} {rest : List ℕ}
    (h : freeList used hi = b :: rest) : freeList (Function.update used b true) hi = rest := by
  have hnd := nodup_freeList used hi
  rw [h, List.nodup_cons] at hnd
  have e : freeList (Function.update used b true) hi =
      (freeList used hi).filter fun x => decide (x ≠ b) := by
    rw [freeList, freeList, List.filter_filter]
    apply List.filter_congr
    intro x _
    by_cases e : x = b <;> simp [e]
  rw [e, h, List.filter_cons_of_neg (by simp), List.filter_eq_self]
  intro x hx
  have : x ≠ b := fun e => hnd.1 (e ▸ hx)
  simpa using this

/-- The slots name different blocks in use between `lo` and `hi`, and the blocks below `lo`
are reserved. -/
structure Owned (lo hi : ℕ) (used : ℕ → Bool) (ptr : σ → ℕ) : Prop where
  lo_pos : 0 < lo
  reserved : ∀ b < lo, used b = true
  range : ∀ {τ}, ptr τ ≠ 0 → lo ≤ ptr τ ∧ ptr τ < hi
  marked : ∀ {τ}, ptr τ ≠ 0 → used (ptr τ) = true
  inj : ∀ {τ τ'}, ptr τ ≠ 0 → ptr τ = ptr τ' → τ = τ'

namespace Owned

variable {lo hi : ℕ} {used : ℕ → Bool} {ptr : σ → ℕ} {b : ℕ} {rest : List ℕ}

theorem lo_le_free (h : Owned lo hi used ptr) (hb : b ∈ freeList used hi) : lo ≤ b := by
  by_contra hlt
  have := h.reserved b (by omega)
  simp [(mem_freeList.1 hb).2] at this

theorem ne_free (h : Owned lo hi used ptr) (hb : b ∈ freeList used hi) (τ : σ) : ptr τ ≠ b := by
  intro e
  have hb0 := h.lo_le_free hb
  have hpos := h.lo_pos
  have hne : ptr τ ≠ 0 := by omega
  have hused := h.marked hne
  rw [e, (mem_freeList.1 hb).2] at hused
  cases hused

/-- Taking the first free block for an empty slot. -/
theorem assign [DecidableEq σ] (h : Owned lo hi used ptr) (hf : freeList used hi = b :: rest)
    (τ₀ : σ) : Owned lo hi (Function.update used b true) (Function.update ptr τ₀ b) := by
  have hb : b ∈ freeList used hi := by simp [hf]
  have hlo := h.lo_le_free hb
  constructor
  · exact h.lo_pos
  · intro c hc
    by_cases e : c = b
    · simp [e]
    · simp [e, h.reserved c hc]
  · intro τ hτ
    by_cases e : τ = τ₀
    · subst e
      simpa using ⟨hlo, (mem_freeList.1 hb).1⟩
    · rw [Function.update_of_ne e] at hτ ⊢
      exact h.range hτ
  · intro τ hτ
    by_cases e : τ = τ₀
    · simp [e]
    · rw [Function.update_of_ne e] at hτ ⊢
      rw [Function.update_of_ne (h.ne_free hb τ)]
      exact h.marked hτ
  · intro τ τ' hτ he
    by_cases e : τ = τ₀
    · by_cases e' : τ' = τ₀
      · rw [e, e']
      · rw [e, Function.update_self, Function.update_of_ne e'] at he
        exact absurd he.symm (h.ne_free hb τ')
    · rw [Function.update_of_ne e] at hτ he
      by_cases e' : τ' = τ₀
      · rw [e', Function.update_self] at he
        exact absurd he (h.ne_free hb τ)
      · rw [Function.update_of_ne e'] at he
        exact h.inj hτ he

end Owned

end BlockTree
