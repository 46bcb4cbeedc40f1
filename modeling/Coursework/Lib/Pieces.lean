import Mathlib.Data.List.TakeWhile
import Mathlib.Data.List.Flatten

/-! A list cut into consecutive pieces: the elements that are kept, piece by piece, and the runs
of elements with a property that cannot be made longer. -/
namespace Pieces

variable {α : Type*} {p keep : α → Bool} {l w : List α} {i n : ℕ}

/-- The part of a list at position `i` is `w`. -/
def At (l : List α) (i : ℕ) (w : List α) : Prop := (l.drop i).take w.length = w

theorem At.getElem? (h : At l i w) {k : ℕ} (hk : k < w.length) : l[i + k]? = w[k]? := by
  have hget : w[k]? = ((l.drop i).take w.length)[k]? := by rw [show _ = w from h]
  rw [hget, List.getElem?_take_of_lt hk, List.getElem?_drop]

theorem At.get (h : At l i w) (k : ℕ) {c : α} (hc : w[k]? = some c) : l[i + k]? = some c := by
  rw [h.getElem? (List.getElem?_eq_some_iff.1 hc).1, hc]

theorem At.drop (h : At l i w) (k : ℕ) : At l (i + k) (w.drop k) := by
  have hw : (l.drop i).take w.length = w := h
  unfold At
  rw [← List.drop_drop, List.length_drop, ← List.drop_take, hw]

theorem At.take (h : At l i w) (k : ℕ) : At l i (w.take k) := by
  have hw : (l.drop i).take w.length = w := h
  unfold At
  rw [List.length_take, ← List.take_take, hw]

theorem At.le (h : At l i w) (hw : w ≠ []) : i + w.length ≤ l.length := by
  have hlen := congrArg List.length (show (l.drop i).take w.length = w from h)
  rw [List.length_take, List.length_drop] at hlen
  have hpos := List.length_pos_iff.2 hw
  omega

/-- A part of a list, not empty, whose elements all satisfy `p` and whose neighbours do not. -/
structure MaximalRun (p : α → Bool) (l : List α) (i : ℕ) (w : List α) : Prop where
  ne_nil : w ≠ []
  slice : At l i w
  all : ∀ c ∈ w, p c = true
  before : ∀ c, 0 < i → l[i - 1]? = some c → p c = false
  after : ∀ c, l[i + w.length]? = some c → p c = false

/-- From an element that satisfies `p`, after one that does not, the elements that do are a
maximal run. -/
theorem maximalRun_takeWhile {c : α} (hc : l[i]? = some c) (hp : p c = true)
    (hbefore : ∀ c, 0 < i → l[i - 1]? = some c → p c = false) :
    MaximalRun p l i ((l.drop i).takeWhile p) where
  ne_nil := by
    obtain ⟨hi, rfl⟩ := List.getElem?_eq_some_iff.1 hc
    rw [List.drop_eq_getElem_cons hi, List.takeWhile_cons_of_pos hp]
    exact List.cons_ne_nil _ _
  slice := (List.prefix_iff_eq_take.1 (List.takeWhile_prefix p)).symm
  all _ := List.mem_takeWhile_imp
  before := hbefore
  after d hd := by
    rw [← List.getElem?_drop] at hd
    generalize l.drop i = r at hd
    have hget : (r.takeWhile p ++ r.dropWhile p)[(r.takeWhile p).length]? =
        (r.dropWhile p).head? := by
      rw [List.getElem?_append_right le_rfl, Nat.sub_self, List.head?_eq_getElem?]
    rw [List.takeWhile_append_dropWhile] at hget
    have hnot := List.head?_dropWhile_not p r
    rw [← hget, hd] at hnot
    simpa using hnot

theorem MaximalRun.of_getElem? (h : MaximalRun p l i w) {j : ℕ} {c : α} (hij : i ≤ j)
    (hj : j < i + w.length) (hc : l[j]? = some c) : p c = true := by
  obtain ⟨k, rfl⟩ := Nat.exists_eq_add_of_le hij
  rw [h.slice.getElem? (by omega)] at hc
  exact h.all c (List.mem_of_getElem? hc)

theorem MaximalRun.length_pos (h : MaximalRun p l i w) : 0 < w.length :=
  List.length_pos_iff.2 h.ne_nil

theorem MaximalRun.congr {q : α → Bool} (h : MaximalRun p l i w) (hpq : ∀ c ∈ l, p c = q c) :
    MaximalRun q l i w where
  ne_nil := h.ne_nil
  slice := h.slice
  all c hc := by
    have hmem : c ∈ l := by
      have hw : (l.drop i).take w.length = w := h.slice
      rw [← hw] at hc
      exact List.mem_of_mem_drop (List.mem_of_mem_take hc)
    rw [← hpq c hmem]
    exact h.all c hc
  before c hi hc := by
    rw [← hpq c (List.mem_of_getElem? hc)]
    exact h.before c hi hc
  after c hc := by
    rw [← hpq c (List.mem_of_getElem? hc)]
    exact h.after c hc

/-- The pieces `ps`, given with their positions, lie in order in the first `n` elements of a list,
and joined they are the elements there that `keep` wants. -/
structure Covers (keep : α → Bool) (l : List α) (n : ℕ) (ps : List (ℕ × List α)) : Prop where
  slice : ∀ q ∈ ps, At l q.1 q.2
  ordered : ps.Pairwise fun q r => q.1 + q.2.length ≤ r.1
  before : ∀ q ∈ ps, q.1 + q.2.length ≤ n
  joined : (ps.map Prod.snd).flatten = (l.take n).filter keep

variable {ps : List (ℕ × List α)}

theorem covers_zero : Covers keep l 0 [] :=
  ⟨by simp, List.Pairwise.nil, by simp, by simp⟩

theorem Covers.skip {c : α} (h : Covers keep l n ps) (hc : l[n]? = some c)
    (hk : keep c = false) : Covers keep l (n + 1) ps where
  slice := h.slice
  ordered := h.ordered
  before q hq := (h.before q hq).trans (Nat.le_succ n)
  joined := by
    rw [h.joined, List.take_add_one, hc, Option.toList_some, List.filter_append,
      List.filter_cons_of_neg (by simp [hk]), List.filter_nil, List.append_nil]

theorem Covers.snoc (h : Covers keep l n ps) (hw : At l n w) (hk : ∀ c ∈ w, keep c = true) :
    Covers keep l (n + w.length) (ps ++ [(n, w)]) where
  slice := by
    intro q hq
    obtain hq | hq := List.mem_append.1 hq
    · exact h.slice q hq
    · rw [List.mem_singleton.1 hq]
      exact hw
  ordered := by
    rw [List.pairwise_append]
    refine ⟨h.ordered, List.pairwise_singleton _ _, fun q hq r hr => ?_⟩
    rw [List.mem_singleton.1 hr]
    exact h.before q hq
  before := by
    intro q hq
    obtain hq | hq := List.mem_append.1 hq
    · exact (h.before q hq).trans (Nat.le_add_right n w.length)
    · rw [List.mem_singleton.1 hq]
  joined := by
    rw [List.map_append, List.flatten_append, h.joined, List.take_add, hw, List.filter_append,
      List.filter_eq_self.2 hk]
    simp

end Pieces
