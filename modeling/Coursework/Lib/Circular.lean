import Mathlib.Data.List.Basic
import Mathlib.Data.Nat.ModEq
import Mathlib.Logic.Function.Basic

/-! A first-in first-out queue in a circular array of `N` slots, with its length and the
positions of its two ends; and the same queue with two counters that count every element in
words of `m` values, where `N` divides `m`. -/

structure Circular (α : Type*) where
  slots : ℕ → α
  cnt : ℕ
  head : ℕ
  tail : ℕ

namespace Circular

variable {α : Type*} {N : ℕ} {q q' : Circular α} {l : List α} {v : α}

/-- The slot after a slot. -/
def next (N i : ℕ) : ℕ := if i + 1 = N then 0 else i + 1

/-- Stores at the tail; `none` when every slot is taken. -/
def push (N : ℕ) (q : Circular α) (v : α) : Option (Circular α) :=
  if q.cnt = N then none
  else some ⟨Function.update q.slots q.tail v, q.cnt + 1, q.head, next N q.tail⟩

/-- Takes from the head; `none` when no slot is taken. -/
def pop (N : ℕ) (q : Circular α) : Option (α × Circular α) :=
  if q.cnt = 0 then none
  else some (q.slots q.head, { q with cnt := q.cnt - 1, head := next N q.head })

theorem next_eq {i : ℕ} (h : i < N) : next N i = (i + 1) % N := by
  unfold next
  split
  next he => rw [he, Nat.mod_self]
  next he => rw [Nat.mod_eq_of_lt (by omega)]

/-- The taken slots hold the list, from the head on. -/
structure Holds (N : ℕ) (q : Circular α) (l : List α) : Prop where
  cnt : q.cnt = l.length
  le : l.length ≤ N
  head : q.head < N
  tail : q.tail = (q.head + l.length) % N
  slots : ∀ i < l.length, l[i]? = some (q.slots ((q.head + i) % N))

theorem Holds.index_ne {i : ℕ} (h : Holds N q l) (hlt : l.length < N) (hi : i < l.length) :
    (q.head + i) % N ≠ q.tail := by
  rw [h.tail]
  intro he
  have hmod : Nat.ModEq N i l.length := Nat.ModEq.add_left_cancel' q.head he
  exact hi.ne (Nat.ModEq.eq_of_lt_of_lt hmod (hi.trans hlt) hlt)

theorem holds_empty (hN : 0 < N) (slots : ℕ → α) : Holds N ⟨slots, 0, 0, 0⟩ [] :=
  ⟨rfl, Nat.zero_le _, hN, (Nat.zero_mod N).symm, fun i hi => absurd hi (Nat.not_lt_zero i)⟩

theorem Holds.push (h : Holds N q l) (hlt : l.length < N) (v : α) :
    ∃ q', q.push N v = some q' ∧ Holds N q' (l ++ [v]) := by
  refine ⟨_, if_neg (by rw [h.cnt]; omega), ?_, ?_, h.head, ?_, ?_⟩
  · simp [h.cnt]
  · rw [List.length_append, List.length_singleton]
    exact hlt
  · have htail : q.tail < N := h.tail ▸ Nat.mod_lt _ (by omega)
    dsimp only
    rw [next_eq htail, h.tail, Nat.mod_add_mod, List.length_append, List.length_singleton,
      Nat.add_assoc]
  · intro i hi
    rw [List.length_append, List.length_singleton] at hi
    dsimp only
    by_cases he : i = l.length
    · rw [he, List.getElem?_concat_length, ← h.tail, Function.update_self]
    · rw [List.getElem?_append_left (by omega),
        Function.update_of_ne (h.index_ne hlt (by omega)), h.slots i (by omega)]

theorem Holds.getD_push (h : Holds N q l) (v : α) :
    ∃ l', Holds N ((q.push N v).getD q) l' ∧ ∀ x ∈ l', x ∈ l ∨ x = v := by
  by_cases hlt : l.length < N
  · obtain ⟨q', hpush, hq'⟩ := h.push hlt v
    refine ⟨l ++ [v], ?_, fun x hx => ?_⟩
    · rwa [hpush]
    · rcases List.mem_append.1 hx with hx | hx
      · exact .inl hx
      · exact .inr (List.mem_singleton.1 hx)
  · have hnone : q.push N v = none := by
      have hle := h.le
      exact if_pos (by rw [h.cnt]; omega)
    rw [hnone]
    exact ⟨l, h, fun x hx => .inl hx⟩

theorem Holds.pushAll (h : Holds N q l) {l' : List α} (hle : l.length + l'.length ≤ N) :
    Holds N (l'.foldl (fun (q : Circular α) v => (q.push N v).getD q) q) (l ++ l') := by
  induction l' generalizing q l with
  | nil => rwa [List.append_nil]
  | cons v l' ih =>
    rw [List.length_cons] at hle
    obtain ⟨q', hpush, hq'⟩ := h.push (by omega) v
    have hnext := ih hq' (by
      rw [List.length_append, List.length_singleton]
      omega)
    rw [List.foldl_cons, hpush]
    rwa [List.append_assoc] at hnext

theorem Holds.pop_nil (h : Holds N q []) : q.pop N = none := if_pos h.cnt

theorem Holds.pop (h : Holds N q (v :: l)) :
    ∃ q', q.pop N = some (v, q') ∧ Holds N q' l := by
  have hcnt := h.cnt
  have hle := h.le
  rw [List.length_cons] at hcnt hle
  have hself := h.slots 0 (by simp)
  rw [List.getElem?_cons_zero, Nat.add_zero, Nat.mod_eq_of_lt h.head] at hself
  refine ⟨{ q with cnt := q.cnt - 1, head := next N q.head }, ?_, ?_⟩
  · rw [Circular.pop, if_neg (by omega), Option.some.inj hself]
  have hnext : next N q.head = (q.head + 1) % N := next_eq h.head
  refine ⟨by dsimp only; omega, by omega, ?_, ?_, fun i hi => ?_⟩
  · dsimp only
    rw [hnext]
    exact Nat.mod_lt _ (by omega)
  · have ht := h.tail
    rw [List.length_cons] at ht
    dsimp only
    rw [hnext, Nat.mod_add_mod, ht]
    congr 1
    omega
  · have hs := h.slots (i + 1) (by simpa using hi)
    rw [List.getElem?_cons_succ] at hs
    dsimp only
    rw [hnext, Nat.mod_add_mod, hs]
    congr 3
    omega

/-- The slots and how many elements were taken and stored so far. -/
structure Counters (α : Type*) where
  slots : ℕ → α
  taken : ℕ
  stored : ℕ

namespace Counters
variable {m : ℕ} {c : Counters α}

def push (N m : ℕ) (c : Counters α) (v : α) : Counters α :=
  ⟨Function.update c.slots (c.stored % N) v, c.taken, (c.stored + 1) % m⟩

def front (N : ℕ) (c : Counters α) : α := c.slots (c.taken % N)

def pop (m : ℕ) (c : Counters α) : Counters α := { c with taken := (c.taken + 1) % m }

/-- Takes back the element stored last. -/
def unpush (m : ℕ) (c : Counters α) : Counters α := { c with stored := (c.stored + (m - 1)) % m }

/-- The slots between the counters hold the list. -/
structure Holds (N m : ℕ) (c : Counters α) (l : List α) : Prop where
  le : l.length ≤ N
  taken : c.taken < m
  stored : c.stored = (c.taken + l.length) % m
  slots : ∀ i < l.length, l[i]? = some (c.slots ((c.taken + i) % N))

theorem Holds.stored_eq_iff (h : Holds N m c l) (hN : N < m) {k : ℕ} (hk : k ≤ N) :
    c.stored = (c.taken + k) % m ↔ l.length = k := by
  rw [h.stored]
  have hle := h.le
  constructor
  · intro he
    have hmod : Nat.ModEq m l.length k := Nat.ModEq.add_left_cancel' c.taken he
    exact Nat.ModEq.eq_of_lt_of_lt hmod (by omega) (by omega)
  · rintro rfl
    rfl

theorem Holds.empty_iff (h : Holds N m c l) (hN : N < m) : c.taken = c.stored ↔ l = [] := by
  have hiff := h.stored_eq_iff hN (Nat.zero_le N)
  rw [Nat.add_zero, Nat.mod_eq_of_lt h.taken, List.length_eq_zero_iff] at hiff
  rw [← hiff, eq_comm]

theorem holds_nil (slots : ℕ → α) {k : ℕ} (hk : k < m) : Holds N m ⟨slots, k, k⟩ [] :=
  ⟨Nat.zero_le _, hk, (Nat.mod_eq_of_lt hk).symm, fun i hi => absurd hi (Nat.not_lt_zero i)⟩

theorem Holds.push (h : Holds N m c l) (hm : N ∣ m) (hlt : l.length < N) (v : α) :
    Holds N m (c.push N m v) (l ++ [v]) := by
  have hlen : (l ++ [v]).length = l.length + 1 := List.length_append
  refine ⟨by omega, h.taken, ?_, fun i hi => ?_⟩
  · change (c.stored + 1) % m = _
    rw [h.stored, Nat.mod_add_mod, hlen, Nat.add_assoc]
    rfl
  · have hpos : c.stored % N = (c.taken + l.length) % N := by
      rw [h.stored, Nat.mod_mod_of_dvd _ hm]
    change _ = some (Function.update c.slots (c.stored % N) v ((c.taken + i) % N))
    rw [hpos]
    by_cases he : i = l.length
    · rw [he, List.getElem?_concat_length, Function.update_self]
    · have hne : (c.taken + i) % N ≠ (c.taken + l.length) % N := by
        intro hmod
        have hmod' : Nat.ModEq N i l.length := Nat.ModEq.add_left_cancel' c.taken hmod
        exact he (Nat.ModEq.eq_of_lt_of_lt hmod' (by omega) hlt)
      rw [List.getElem?_append_left (by omega), Function.update_of_ne hne, h.slots i (by omega)]

theorem Holds.front (h : Holds N m c (v :: l)) : c.front N = v := by
  have hs := h.slots 0 (Nat.succ_pos _)
  rw [List.getElem?_cons_zero, Nat.add_zero] at hs
  exact (Option.some.inj hs).symm

theorem Holds.pop (h : Holds N m c (v :: l)) (hm : N ∣ m) : Holds N m (c.pop m) l := by
  have hle := h.le
  have hm0 : 0 < m := Nat.zero_lt_of_lt h.taken
  rw [List.length_cons] at hle
  refine ⟨by omega, Nat.mod_lt _ hm0, ?_, fun i hi => ?_⟩
  · change c.stored = ((c.taken + 1) % m + l.length) % m
    rw [h.stored, Nat.mod_add_mod, List.length_cons, Nat.add_assoc, Nat.add_comm 1]
  · have hs := h.slots (i + 1) (Nat.succ_lt_succ hi)
    change l[i]? = some (c.slots (((c.taken + 1) % m + i) % N))
    have hpos : ((c.taken + 1) % m + i) % N = (c.taken + (i + 1)) % N := by
      rw [Nat.add_mod, Nat.mod_mod_of_dvd _ hm, ← Nat.add_mod, Nat.add_assoc, Nat.add_comm 1]
    rw [hpos, ← hs, List.getElem?_cons_succ]

theorem Holds.unpush (h : Holds N m c (l ++ [v])) : Holds N m (c.unpush m) l := by
  have hle := h.le
  have hlen : (l ++ [v]).length = l.length + 1 := List.length_append
  have hm0 : 0 < m := Nat.zero_lt_of_lt h.taken
  refine ⟨by omega, h.taken, ?_, fun i hi => ?_⟩
  · change (c.stored + (m - 1)) % m = (c.taken + l.length) % m
    rw [h.stored, Nat.mod_add_mod, hlen]
    have he : c.taken + (l.length + 1) + (m - 1) = c.taken + l.length + m := by omega
    rw [he, Nat.add_mod_right]
  · have hs := h.slots i (by omega)
    rwa [List.getElem?_append_left hi] at hs

theorem Holds.last (h : Holds N m c (l ++ [v])) (hm : N ∣ m) :
    c.slots ((c.stored + (m - 1)) % m % N) = v := by
  have hlen : (l ++ [v]).length = l.length + 1 := List.length_append
  have hs := h.slots l.length (by omega)
  have hst := h.unpush.stored
  change (c.stored + (m - 1)) % m = (c.taken + l.length) % m at hst
  rw [hst, Nat.mod_mod_of_dvd _ hm]
  rw [List.getElem?_concat_length] at hs
  exact (Option.some.inj hs).symm

theorem Holds.left {l' : List α} (h : Holds N m c (l ++ l')) :
    Holds N m { c with stored := (c.taken + l.length) % m } l := by
  have hle := h.le
  rw [List.length_append] at hle
  refine ⟨by omega, h.taken, rfl, fun i hi => ?_⟩
  have hs := h.slots i (by rw [List.length_append]; omega)
  rwa [List.getElem?_append_left hi] at hs

theorem Holds.right {l' : List α} (h : Holds N m c (l ++ l')) (hm : N ∣ m) :
    Holds N m { c with taken := (c.taken + l.length) % m } l' := by
  have hle := h.le
  have hm0 : 0 < m := Nat.zero_lt_of_lt h.taken
  rw [List.length_append] at hle
  refine ⟨by omega, Nat.mod_lt _ hm0, ?_, fun i hi => ?_⟩
  · change c.stored = ((c.taken + l.length) % m + l'.length) % m
    rw [h.stored, Nat.mod_add_mod, List.length_append, Nat.add_assoc]
  · have hs := h.slots (l.length + i) (by rw [List.length_append]; omega)
    rw [List.getElem?_append_right (Nat.le_add_right ..), Nat.add_sub_cancel_left] at hs
    change l'[i]? = some (c.slots (((c.taken + l.length) % m + i) % N))
    rw [hs, Nat.add_mod ((c.taken + l.length) % m), Nat.mod_mod_of_dvd _ hm, ← Nat.add_mod,
      Nat.add_assoc]

theorem Holds.sub_eq (h : Holds N m c l) (hN : N < m) :
    (c.stored + (m - c.taken)) % m = l.length := by
  have hle := h.le
  have ht := h.taken
  rw [h.stored, Nat.mod_add_mod]
  have he : c.taken + l.length + (m - c.taken) = l.length + m := by omega
  rw [he, Nat.add_mod_right, Nat.mod_eq_of_lt (by omega)]

end Counters

end Circular
