import Coursework.Malloc.Heap

/-! What the calls of the allocator do to the blocks: the memory that the kernel has granted is
cut into live blocks and free ones, and the free blocks are linked in the order of their
addresses. -/
namespace Malloc
open Tiling Ring

variable {base lo n nunits p bp : ℕ} {s : Heap} {ts ts₁ ts₂ : List Tile} {grants : Bool}

/-- The nodes of the list. -/
def nodes (base lo : ℕ) (ts : List Tile) : List ℕ := base :: starts false lo ts

/-- The heap holds the blocks `ts`, from the address `lo` on. -/
structure Repr (base lo : ℕ) (s : Heap) (ts : List Tile) : Prop where
  base_pos : 0 < base
  base_lt : base < lo
  brk : s.brk = lo + total ts
  freep : s.freep ∈ nodes base lo ts
  circle : Segment s.ptr (nodes base lo ts) base
  base_size : s.size base = 0
  sized : Sized s.size lo ts
  merged : Merged ts

section Nodes

theorem Repr.mem_nodes (h : Repr base lo s ts) {x : ℕ} (hx : x ∈ nodes base lo ts) :
    0 < x ∧ (x = base ∨ lo ≤ x ∧ x < s.brk) := by
  have hb := h.base_pos
  have hl := h.base_lt
  rcases List.mem_cons.1 hx with rfl | hx
  · exact ⟨hb, .inl rfl⟩
  · have := starts_lt h.merged.pos hx
    rw [h.brk]
    exact ⟨by omega, .inr this⟩

theorem Repr.outside (h : Repr base lo s ts) {x b u : ℕ} (hx : x ∈ starts false lo ts)
    (hb : b ∈ starts true lo ts) (hu : b ≤ u ∧ u < b + s.size b) :
    ¬ (x ≤ u ∧ u < x + s.size x) := by
  rintro ⟨hxu, hux⟩
  rcases Nat.lt_trichotomy b x with hlt | rfl | hlt
  · have := h.sized.disjoint hb hx hlt
    omega
  · exact h.merged.starts_ne hb hx rfl
  · have := h.sized.disjoint hx hb hlt
    omega

theorem Repr.size_pos (h : Repr base lo s ts) {live : Bool} {x : ℕ}
    (hx : x ∈ starts live lo ts) : 0 < s.size x := by
  obtain ⟨us, t, us', rfl, -, rfl⟩ := mem_starts.1 hx
  rw [h.sized.mem]
  exact h.merged.pos t (by simp)

theorem Repr.not_mem_nodes (h : Repr base lo s ts) {b u : ℕ} (hb : b ∈ starts true lo ts)
    (hu : b ≤ u ∧ u < b + s.size b) : u ∉ nodes base lo ts := by
  intro hm
  rcases List.mem_cons.1 hm with rfl | hm
  · have := (h.sized.bounds hb).1
    have := h.base_lt
    omega
  · have := h.size_pos hm
    exact h.outside hm hb hu ⟨le_rfl, by omega⟩

/-- The words of the block `b` are the same in both heaps. -/
def Kept (s s' : Heap) (b : ℕ) : Prop :=
  ∀ u, b ≤ u → u < b + s.size b → s'.ptr u = s.ptr u ∧ s'.size u = s.size u

theorem Repr.nodes_pairwise (h : Repr base lo s ts) : (nodes base lo ts).Pairwise (· < ·) := by
  refine List.pairwise_cons.2 ⟨fun x hx => ?_, starts_pairwise h.merged.pos⟩
  exact lt_of_lt_of_le h.base_lt (starts_lt h.merged.pos hx).1

theorem Repr.nodes_nodup (h : Repr base lo s ts) : (nodes base lo ts).Nodup :=
  h.nodes_pairwise.imp fun hlt => hlt.ne

theorem Repr.length_nodes (h : Repr base lo s ts) : (nodes base lo ts).length ≤ s.brk := by
  have hle := length_starts_le false lo h.merged.pos
  have hb := h.base_lt
  rw [nodes, List.length_cons, h.brk]
  omega

end Nodes

section Scan

/-- The loop of `free` goes on over the nodes below `bp`, up to the last one. -/
theorem scan_below {l l' : List ℕ} {b fuel : ℕ} (hs : Segment s.ptr (l ++ p :: l') b)
    (hlt : (l ++ [p]).Pairwise (· < ·)) (hbp : ∀ x ∈ l ++ [p], x < bp)
    (hstop : bp < s.ptr p ∨ s.ptr p ≤ p) (hf : l.length < fuel) :
    scan bp fuel (l.headD p) s = some p := by
  induction l generalizing fuel with
  | nil =>
    obtain ⟨f, rfl⟩ := Nat.exists_eq_succ_of_ne_zero (Nat.ne_of_gt hf)
    have hp := hbp p (by simp)
    refine if_pos ?_
    rcases hstop with hstop | hstop
    · exact .inl ⟨hp, hstop⟩
    · exact .inr ⟨hstop, .inl hp⟩
  | cons x l ih =>
    rw [List.length_cons] at hf
    obtain ⟨f, rfl⟩ := Nat.exists_eq_succ_of_ne_zero (by omega : fuel ≠ 0)
    have hnext : s.ptr x = l.headD p := by
      rw [hs.1]
      cases l <;> rfl
    have hmem : l.headD p ∈ l ++ [p] := by cases l <;> simp
    have hx : x < l.headD p := (List.pairwise_cons.1 hlt).1 _ hmem
    have hb := hbp _ (List.mem_cons_of_mem _ hmem)
    change (if _ then _ else _) = _
    rw [List.headD_cons, hnext, if_neg (by omega)]
    exact ih hs.2 (List.pairwise_cons.1 hlt).2
      (fun y hy => hbp y (List.mem_cons_of_mem _ hy)) (by omega)

/-- And over the nodes above `bp`, back to `base`. -/
theorem scan_above {l : List ℕ} (fuel : ℕ) (hs : Segment s.ptr l base)
    (hlt : l.Pairwise (· < ·)) (hbp : ∀ x ∈ l, bp < x) (hb : base < bp) :
    scan bp (l.length + fuel) (l.headD base) s = scan bp fuel base s := by
  induction l with
  | nil => rw [List.length_nil, Nat.zero_add, List.headD_nil]
  | cons x l ih =>
    have hx := hbp x List.mem_cons_self
    have hstep : ¬ ((x < bp ∧ bp < s.ptr x) ∨ (s.ptr x ≤ x ∧ (x < bp ∨ bp < s.ptr x))) := by
      rw [hs.1]
      cases l with
      | nil =>
        rw [List.headD_nil]
        omega
      | cons y l =>
        have hxy := (List.pairwise_cons.1 hlt).1 y List.mem_cons_self
        rw [List.headD_cons]
        omega
    rw [List.length_cons, Nat.succ_add, List.headD_cons]
    change (if _ then _ else _) = _
    rw [if_neg hstep, hs.1]
    exact ih hs.2 (List.pairwise_cons.1 hlt).2 fun y hy => hbp y (List.mem_cons_of_mem _ hy)

/-- From whatever node it starts, the loop ends at the last node below `bp`. -/
theorem scan_eq {l l' : List ℕ} {x : ℕ} (hs : Segment s.ptr (l ++ p :: l') base)
    (hhead : (l ++ [p]).head? = some base) (hlt : (l ++ p :: l').Pairwise (· < ·))
    (hlo : ∀ y ∈ l ++ [p], y < bp) (hhi : ∀ y ∈ l', bp < y) (hx : x ∈ l ++ p :: l') {fuel : ℕ}
    (hf : (l ++ p :: l').length < fuel) : scan bp fuel x s = some p := by
  have hhd : l.headD p = base := by
    cases l with
    | nil => exact Option.some.inj hhead
    | cons y l => exact Option.some.inj hhead
  have hpre : (l ++ [p]).Pairwise (· < ·) := by
    have he : l ++ p :: l' = (l ++ [p]) ++ l' := by simp
    rw [he] at hlt
    exact (List.pairwise_append.1 hlt).1
  have hp := hlo p (by simp)
  have hstop : bp < s.ptr p ∨ s.ptr p ≤ p := by
    rw [(segment_append.1 hs).2.1]
    cases l' with
    | nil =>
      right
      rw [List.headD_nil, ← hhd]
      cases l with
      | nil => exact le_rfl
      | cons y l => exact ((List.pairwise_cons.1 hpre).1 p (by simp)).le
    | cons y l' => exact .inl (hhi y List.mem_cons_self)
  rw [List.length_append, List.length_cons] at hf
  rcases List.mem_append.1 hx with hx | hx
  · obtain ⟨l₁, l₂, rfl⟩ := List.append_of_mem hx
    rw [List.append_assoc] at hs hpre
    rw [List.length_append, List.length_cons] at hf
    exact scan_below (l := x :: l₂) (segment_append.1 hs).2 (List.pairwise_append.1 hpre).2.1
      (fun y hy => hlo y (by rw [List.append_assoc]; exact List.mem_append_right _ hy)) hstop
      (by rw [List.length_cons]; omega)
  rcases List.mem_cons.1 hx with rfl | hx
  · exact scan_below (l := []) (segment_append.1 hs).2 (List.pairwise_singleton ..)
      (fun y hy => hlo y (List.mem_append_right _ hy)) hstop (by simp; omega)
  · obtain ⟨l₁, l₂, rfl⟩ := List.append_of_mem hx
    have hs' : Segment s.ptr (x :: l₂) base := by
      have := (segment_append.1 hs).2.2
      exact (segment_append.1 this).2
    have hlt' : (x :: l₂).Pairwise (· < ·) := by
      have := (List.pairwise_cons.1 (List.pairwise_append.1 hlt).2.1).2
      exact (List.pairwise_append.1 this).2.1
    rw [List.length_append, List.length_cons] at hf
    obtain ⟨f, rfl⟩ : ∃ f, fuel = (x :: l₂).length + f :=
      ⟨fuel - (x :: l₂).length, by rw [List.length_cons]; omega⟩
    rw [List.length_cons] at hf
    have hbase : base < bp := by
      apply hlo
      rw [← hhd]
      cases l <;> simp
    have habove := scan_above f hs' hlt'
      (fun y hy => hhi y (List.mem_append_right _ hy)) hbase
    rw [List.headD_cons] at habove
    rw [habove, ← hhd]
    exact scan_below hs hpre hlo hstop (by omega)

end Scan

section Neighbours
variable {A : List ℕ}

theorem nodes_middle (hA : base :: starts false lo ts₁ = A ++ [p]) :
    nodes base lo (ts₁ ++ ts₂) = A ++ p :: starts false (lo + total ts₁) ts₂ := by
  rw [nodes, starts_append, ← List.cons_append, hA, List.append_assoc]
  rfl

theorem Repr.segments (h : Repr base lo s (ts₁ ++ ts₂))
    (hA : base :: starts false lo ts₁ = A ++ [p]) :
    Segment s.ptr A p ∧ s.ptr p = (starts false (lo + total ts₁) ts₂).headD base ∧
      Segment s.ptr (starts false (lo + total ts₁) ts₂) base := by
  have hcircle := h.circle
  rw [nodes_middle hA] at hcircle
  exact segment_append.1 hcircle

theorem Repr.node_lt (h : Repr base lo s (ts₁ ++ ts₂))
    (hA : base :: starts false lo ts₁ = A ++ [p]) {y : ℕ} (hy : y ∈ A ++ [p]) :
    y < lo + total ts₁ := by
  rw [← hA] at hy
  rcases List.mem_cons.1 hy with rfl | hy
  · have := h.base_lt
    omega
  · exact (starts_lt h.merged.append_left.pos hy).2

theorem Repr.node_ne (h : Repr base lo s (ts₁ ++ ts₂))
    (hA : base :: starts false lo ts₁ = A ++ [p]) {y : ℕ} (hy : y ∈ A) : y ≠ p := by
  have hpw := h.nodes_pairwise
  rw [nodes_middle hA] at hpw
  exact ((List.pairwise_append.1 hpw).2.2 y hy p (by simp)).ne

/-- The last node below a block ends where the block starts if it is the block before. -/
theorem Repr.ends_iff (h : Repr base lo s (ts₁ ++ ts₂))
    (hA : base :: starts false lo ts₁ = A ++ [p]) :
    p + s.size p = lo + total ts₁ ↔ ∃ ws k, ts₁ = ws ++ [⟨k, false⟩] := by
  have hsized := (sized_append.1 h.sized).1
  rcases ts₁.eq_nil_or_concat' with rfl | ⟨ws, ⟨k, live⟩, rfl⟩
  · obtain rfl : base = p := by simpa [starts] using congrArg List.getLast? hA
    have hb := h.base_lt
    rw [h.base_size, total]
    exact iff_of_false (by omega) (by simp)
  have hk := h.merged.append_left.pos ⟨k, live⟩ (by simp)
  change 0 < k at hk
  rw [total_append, total, total]
  change p + s.size p = lo + (total ws + (k + 0)) ↔ _
  cases live with
  | false =>
    rw [starts_append, starts_self, starts, ← List.cons_append] at hA
    obtain rfl : lo + total ws = p := (List.cons.inj (List.append_inj' hA rfl).2).1
    have hsize : s.size (lo + total ws) = k := hsized.mem
    rw [hsize]
    exact iff_of_true (by omega) ⟨ws, k, rfl⟩
  | true =>
    rw [starts_append, starts_other (by decide), starts, List.append_nil] at hA
    have hp : p ∈ base :: starts false lo ws := by
      rw [hA]
      simp
    refine iff_of_false ?_ (by simp)
    rcases List.mem_cons.1 hp with rfl | hp
    · have hb := h.base_lt
      rw [h.base_size]
      omega
    · have := ((sized_append.1 hsized).1.bounds hp).2
      omega

end Neighbours

section Free
variable {A : List ℕ} {n' : ℕ} {us : List Tile} {s' : Heap}

/-- Between the two `if`s of `free`: the block `bp`, of `n` units, ends where the blocks `us`
start, which do not start with a free one; `A` and `p` are the nodes before it. -/
structure Joined (base lo bp n : ℕ) (A : List ℕ) (p : ℕ) (us : List Tile) (s s' : Heap) :
    Prop where
  size_bp : s'.size bp = n
  ptr_bp : s'.ptr bp = (starts false (bp + n) us).headD base
  before : Segment s'.ptr A p
  after : Segment s'.ptr (starts false (bp + n) us) base
  sized : Sized s'.size (bp + n) us
  merged : Merged us
  live : ∀ t ∈ us.head?, t.live = true
  other : ∀ u ≠ bp, s'.ptr u = s.ptr u ∧ s'.size u = s.size u
  brk : s'.brk = s.brk

/-- The block after `bp` is free. -/
theorem joinNext_free {m : ℕ} (h : Repr base lo s (ts₁ ++ ⟨n, true⟩ :: ⟨m, false⟩ :: us))
    (hbp : bp = lo + total ts₁) (hA : base :: starts false lo ts₁ = A ++ [p]) :
    Joined base lo bp (n + m) A p us s (joinNext bp p s) := by
  obtain ⟨hbefore, hp, hafter⟩ := h.segments hA
  have hlt : ∀ {y}, y ∈ A ++ [p] → y < lo + total ts₁ := h.node_lt hA
  have hsized := (sized_append.1 h.sized).2
  have hm := (merged_middle.1 h.merged).2.1
  have hpos := h.merged.pos ⟨n, true⟩ (by simp)
  change 0 < n at hpos
  rw [starts_other (by decide), ← hbp, starts_self] at hp hafter
  rw [← hbp] at hsized hlt
  obtain ⟨hn, hm', hrest⟩ := hsized
  change s.size bp = n at hn
  change s.size (bp + n) = m at hm'
  change Sized s.size (bp + n + m) us at hrest
  rw [List.headD_cons] at hp
  have he : bp + (n + m) = bp + n + m := (Nat.add_assoc ..).symm
  rw [joinNext, hp, hn, if_pos rfl]
  refine ⟨?_, ?_, ?_, ?_, ?_, hm.tail, ?_, fun u hu => ⟨?_, ?_⟩, rfl⟩
  · rw [setPtr_size, setSize_size_self, hm']
  · rw [setPtr_ptr_self, hafter.1, he]
  · exact hbefore.congr fun y hy =>
      setPtr_ptr_of_ne _ _ _ (hlt (List.mem_append_left _ hy)).ne
  · rw [he]
    refine hafter.2.congr fun y hy => setPtr_ptr_of_ne _ _ _ ?_
    have := (starts_lt hm.tail.pos hy).1
    omega
  · rw [he]
    exact hrest.congr hm.tail.pos fun x hx _ => setSize_size_of_ne _ _ _ (by omega)
  · exact fun t ht => ((List.isChain_cons.1 hm.apart).1 t ht).resolve_left Bool.false_ne_true
  · exact setPtr_ptr_of_ne _ _ _ hu
  · exact setSize_size_of_ne _ _ _ hu

/-- The block after `bp` is live, or there is none. -/
theorem joinNext_live (h : Repr base lo s (ts₁ ++ ⟨n, true⟩ :: us)) (hbp : bp = lo + total ts₁)
    (hA : base :: starts false lo ts₁ = A ++ [p]) (hlive : ∀ t ∈ us.head?, t.live = true) :
    Joined base lo bp n A p us s (joinNext bp p s) := by
  obtain ⟨hbefore, hp, hafter⟩ := h.segments hA
  have hlt : ∀ {y}, y ∈ A ++ [p] → y < lo + total ts₁ := h.node_lt hA
  have hsized := (sized_append.1 h.sized).2
  have hm := (merged_middle.1 h.merged).2.1
  have hpos := h.merged.pos ⟨n, true⟩ (by simp)
  change 0 < n at hpos
  rw [starts_other (by decide), ← hbp] at hp hafter
  rw [← hbp] at hsized hlt
  obtain ⟨hn, hrest⟩ := hsized
  have hapart : ¬ bp + s.size bp = s.ptr p := by
    have hb := hlt (y := base) (by rw [← hA]; simp)
    rw [hn, hp, eq_comm, headD_starts_eq hm.pos (by omega)]
    rintro ⟨m, us', rfl⟩
    exact Bool.noConfusion (hlive _ rfl)
  rw [joinNext, if_neg hapart]
  refine ⟨hn, ?_, ?_, ?_, hrest, hm, hlive, fun u hu => ⟨setPtr_ptr_of_ne _ _ _ hu, rfl⟩, rfl⟩
  · rw [setPtr_ptr_self, hp]
  · exact hbefore.congr fun y hy =>
      setPtr_ptr_of_ne _ _ _ (hlt (List.mem_append_left _ hy)).ne
  · refine hafter.congr fun y hy => setPtr_ptr_of_ne _ _ _ ?_
    have := (starts_lt hm.pos hy).1
    omega

theorem joinNext_spec (h : Repr base lo s (ts₁ ++ ⟨n, true⟩ :: ts₂)) (hbp : bp = lo + total ts₁)
    (hA : base :: starts false lo ts₁ = A ++ [p]) :
    ∃ n' us, Joined base lo bp n' A p us s (joinNext bp p s) ∧ n ≤ n' ∧
      n' + total us = n + total ts₂ ∧ starts true (bp + n') us = starts true (bp + n) ts₂ := by
  by_cases hfree : ∃ m us, ts₂ = ⟨m, false⟩ :: us
  · obtain ⟨m, us, rfl⟩ := hfree
    refine ⟨n + m, us, joinNext_free h hbp hA, Nat.le_add_right .., ?_, ?_⟩
    · rw [total, Nat.add_assoc]
    · rw [starts_other (by decide), Nat.add_assoc]
  · refine ⟨n, ts₂, joinNext_live h hbp hA fun t ht => ?_, le_rfl, rfl, rfl⟩
    obtain ⟨us, rfl⟩ := List.head?_eq_some_iff.1 ht
    by_contra hl
    exact hfree ⟨t.size, us, by rw [← (Bool.not_eq_true _).mp hl]⟩

/-- After the second `if`: the blocks are `ts'`, and one of the free ones has `n` units or more. -/
structure Freed (base lo bp n p : ℕ) (s s' : Heap) (ts' : List Tile) : Prop where
  repr : Repr base lo { s' with freep := p } ts'
  fits : ∃ x ∈ starts false lo ts', n ≤ s'.size x
  other : ∀ u ≠ bp, u ≠ p → s'.ptr u = s.ptr u ∧ s'.size u = s.size u

section JoinPrev
variable (hj : Joined base lo bp n' A p us s s')
include hj

theorem Joined.brk_eq (h : Repr base lo s (ts₁ ++ ⟨n, true⟩ :: ts₂)) (hbp : bp = lo + total ts₁)
    (htotal : n' + total us = n + total ts₂) : s'.brk = bp + (n' + total us) := by
  rw [hj.brk, h.brk, total_middle, hbp, htotal, Nat.add_assoc]

theorem Joined.sized_before (h : Repr base lo s (ts₁ ++ ts₂)) (hbp : bp = lo + total ts₁) :
    Sized s'.size lo ts₁ := by
  refine (sized_append.1 h.sized).1.congr h.merged.append_left.pos fun x _ hx => ?_
  exact (hj.other x (by omega)).2

theorem Joined.node_ne_after (hpbp : p < bp) {y : ℕ} (hy : y ∈ starts false (bp + n') us) :
    y ≠ p := by
  have := (starts_lt hj.merged.pos hy).1
  omega

/-- The block before `bp` is live, or there is none. -/
theorem Joined.apart (h : Repr base lo s (ts₁ ++ ⟨n, true⟩ :: ts₂)) (hbp : bp = lo + total ts₁)
    (hA : base :: starts false lo ts₁ = A ++ [p]) (hn : n ≤ n')
    (htotal : n' + total us = n + total ts₂) (hlive : ∀ t ∈ ts₁.getLast?, t.live = true) :
    Freed base lo bp n p s (s'.setPtr p bp) (ts₁ ++ ⟨n', false⟩ :: us) := by
  have hpbp : p < bp := hbp ▸ h.node_lt hA (by simp)
  have hbase : base < bp := hbp ▸ h.node_lt hA (by rw [← hA]; simp)
  have hbrk := hj.brk_eq h hbp htotal
  obtain ⟨hm, -, hpos, -⟩ := merged_middle.1 h.merged
  have hnodes : nodes base lo (ts₁ ++ ⟨n', false⟩ :: us) =
      A ++ p :: bp :: starts false (bp + n') us := by
    rw [nodes_middle hA, starts_self, ← hbp]
  refine ⟨⟨h.base_pos, h.base_lt, ?_, ?_, ?_, ?_, ?_, ?_⟩, ⟨bp, ?_, hn.trans hj.size_bp.ge⟩,
    fun u hu hp => ⟨(setPtr_ptr_of_ne _ _ _ hp).trans (hj.other u hu).1, (hj.other u hu).2⟩⟩
  · rw [total_middle]
    change s'.brk = lo + (total ts₁ + (n' + total us))
    omega
  · rw [hnodes]
    simp
  · rw [hnodes, segment_append]
    exact ⟨hj.before.congr fun y hy => setPtr_ptr_of_ne _ _ _ (h.node_ne hA hy),
      setPtr_ptr_self _ _ _, (setPtr_ptr_of_ne _ _ _ hpbp.ne').trans hj.ptr_bp,
      hj.after.congr fun y hy => setPtr_ptr_of_ne _ _ _ (hj.node_ne_after hpbp hy)⟩
  · exact (hj.other base hbase.ne).2.trans h.base_size
  · rw [sized_append, ← hbp]
    exact ⟨hj.sized_before h hbp, hj.size_bp, hj.sized⟩
  · exact merged_middle.2 ⟨hm, hj.merged, Nat.lt_of_lt_of_le hpos hn,
      fun t ht => .inl (hlive t ht), fun t ht => .inr (hj.live t ht)⟩
  · rw [starts_append, ← hbp, starts_self]
    simp

/-- The block before `bp` is free. -/
theorem Joined.merge {ws : List Tile} {k : ℕ}
    (h : Repr base lo s ((ws ++ [⟨k, false⟩]) ++ ⟨n, true⟩ :: ts₂))
    (hbp : bp = lo + total (ws ++ [⟨k, false⟩]))
    (hA : base :: starts false lo (ws ++ [⟨k, false⟩]) = A ++ [p]) (hn : n ≤ n')
    (htotal : n' + total us = n + total ts₂) :
    Freed base lo bp n p s ((s'.setSize p (s'.size p + s'.size bp)).setPtr p (s'.ptr bp))
      (ws ++ ⟨k + n', false⟩ :: us) := by
  have hpbp : p < bp := hbp ▸ h.node_lt hA (by simp)
  have hbrk := hj.brk_eq h hbp htotal
  have hsized := sized_append.1 (hj.sized_before h hbp)
  have hne : ∀ {y}, y ∈ A → y ≠ p := h.node_ne hA
  obtain ⟨hm, -, hpos, -⟩ := merged_middle.1 h.merged
  obtain ⟨hws, -, hk, hlast, -⟩ := merged_middle.1 hm
  change 0 < n at hpos
  rw [starts_append, starts_self, starts, ← List.cons_append] at hA
  obtain ⟨rfl, hp⟩ := List.append_inj' hA rfl
  obtain rfl : lo + total ws = p := (List.cons.inj hp).1
  rw [total_middle, total] at hbp
  change bp = lo + (total ws + (k + 0)) at hbp
  have hsize : s'.size (lo + total ws) = k := hsized.2.1
  have hb := h.base_lt
  have he : lo + total ws + (k + n') = bp + n' := by omega
  have hnodes : nodes base lo (ws ++ ⟨k + n', false⟩ :: us) =
      (base :: starts false lo ws) ++ (lo + total ws) :: starts false (bp + n') us := by
    rw [nodes, starts_append, starts_self, he]
    rfl
  refine ⟨⟨h.base_pos, hb, ?_, ?_, ?_, ?_, ?_, ?_⟩, ⟨lo + total ws, ?_, ?_⟩,
    fun u hu hp => ⟨(setPtr_ptr_of_ne _ _ _ hp).trans (hj.other u hu).1,
      (setSize_size_of_ne _ _ _ hp).trans (hj.other u hu).2⟩⟩
  · rw [total_middle]
    change s'.brk = lo + (total ws + (k + n' + total us))
    omega
  · rw [hnodes]
    simp
  · rw [hnodes, segment_append]
    exact ⟨hj.before.congr fun y hy => setPtr_ptr_of_ne _ _ _ (hne hy),
      (setPtr_ptr_self _ _ _).trans hj.ptr_bp,
      hj.after.congr fun y hy => setPtr_ptr_of_ne _ _ _ (hj.node_ne_after hpbp hy)⟩
  · refine (setSize_size_of_ne _ _ _ (by omega)).trans ?_
    exact (hj.other base (by omega)).2.trans h.base_size
  · refine sized_append.2 ⟨hsized.1.congr hws.pos fun x _ hx => ?_, ?_, ?_⟩
    · exact setSize_size_of_ne _ _ _ (by omega)
    · exact (setSize_size_self _ _ _).trans (by rw [hsize, hj.size_bp])
    · change Sized _ (lo + total ws + (k + n')) us
      rw [he]
      exact hj.sized.congr hj.merged.pos fun x hx _ => setSize_size_of_ne _ _ _ (by omega)
  · exact merged_middle.2 ⟨hws, hj.merged, Nat.add_pos_left hk _, hlast,
      fun t ht => .inr (hj.live t ht)⟩
  · rw [starts_append, starts_self]
    simp
  · refine le_trans ?_ (setSize_size_self _ _ _).ge
    rw [hj.size_bp]
    omega

/-- The free block before `bp`, if there is one, is joined to it. -/
theorem joinPrev_spec (h : Repr base lo s (ts₁ ++ ⟨n, true⟩ :: ts₂)) (hbp : bp = lo + total ts₁)
    (hA : base :: starts false lo ts₁ = A ++ [p]) (hn : n ≤ n')
    (htotal : n' + total us = n + total ts₂) :
    ∃ ts', Freed base lo bp n p s (joinPrev bp p s') ts' ∧
      starts true lo ts' = starts true lo ts₁ ++ starts true (bp + n') us := by
  have hpbp : p < bp := hbp ▸ h.node_lt hA (by simp)
  have hiff : p + s'.size p = bp ↔ ∃ ws k, ts₁ = ws ++ [⟨k, false⟩] := by
    rw [(hj.other p hpbp.ne).2, hbp]
    exact h.ends_iff hA
  by_cases hfree : ∃ ws k, ts₁ = ws ++ [⟨k, false⟩]
  · rw [joinPrev, if_pos (hiff.2 hfree)]
    obtain ⟨ws, k, rfl⟩ := hfree
    refine ⟨_, hj.merge h hbp hA hn htotal, ?_⟩
    rw [total_middle, total] at hbp
    change bp = lo + (total ws + (k + 0)) at hbp
    have he : lo + total ws + (k + n') = bp + n' := by omega
    rw [starts_append, starts_append, starts_other (by decide), starts_other (by decide), starts,
      List.append_nil, he]
  · rw [joinPrev, if_neg fun he => hfree (hiff.1 he)]
    refine ⟨_, hj.apart h hbp hA hn htotal fun t ht => ?_, ?_⟩
    · obtain ⟨ws, rfl⟩ := List.getLast?_eq_some_iff.1 ht
      by_contra hl
      exact hfree ⟨ws, t.size, by rw [← (Bool.not_eq_true _).mp hl]⟩
    · rw [starts_append, ← hbp, starts_other (by decide)]

end JoinPrev

/-- `free` of a live block ends; the other live blocks stay, and only headers of the free list
and of the block are written. -/
theorem free_spec (h : Repr base lo s (ts₁ ++ ⟨n, true⟩ :: ts₂)) :
    ∃ s' ts', free (lo + total ts₁ + 1) s = some s' ∧ Repr base lo s' ts' ∧ s'.brk = s.brk ∧
      starts true lo ts' = starts true lo ts₁ ++ starts true (lo + total ts₁ + n) ts₂ ∧
      (∃ x ∈ starts false lo ts', n ≤ s'.size x) ∧
      ∀ b ∈ starts true lo (ts₁ ++ ⟨n, true⟩ :: ts₂), b ≠ lo + total ts₁ → Kept s s' b := by
  obtain ⟨A, p, hA⟩ := (base :: starts false lo ts₁).eq_nil_or_concat'.resolve_left
    (List.cons_ne_nil _ _)
  obtain ⟨n', us, hj, hn, htotal, hlive⟩ := joinNext_spec h rfl hA
  obtain ⟨ts', ⟨hr, hfit, hframe⟩, hst⟩ := joinPrev_spec hj h rfl hA hn htotal
  have hnodes : nodes base lo (ts₁ ++ ⟨n, true⟩ :: ts₂) =
      A ++ p :: starts false (lo + total ts₁ + n) ts₂ := by
    rw [nodes, starts_append, ← List.cons_append, hA, List.append_assoc, starts_other (by decide)]
    rfl
  have hm := h.merged
  have hpos : 0 < n := hm.pos ⟨n, true⟩ (by simp)
  have hcircle := h.circle
  have hpw := h.nodes_pairwise
  have hlen := h.length_nodes
  have hfree := h.freep
  rw [hnodes] at hcircle hpw hlen hfree
  have hscan : scan (lo + total ts₁) s.fuel s.freep s = some p := by
    refine scan_eq hcircle ?_ hpw (fun y hy => ?_) (fun y hy => ?_) hfree ?_
    · rw [← hA]
      rfl
    · rw [← hA] at hy
      rcases List.mem_cons.1 hy with rfl | hy
      · have := h.base_lt
        omega
      · exact (starts_lt hm.append_left.pos hy).2
    · have := (starts_lt hm.append_right.tail.pos hy).1
      omega
    · unfold Heap.fuel
      omega
  have hbrk : (joinPrev (lo + total ts₁) p (joinNext (lo + total ts₁) p s)).brk = s.brk := by
    rw [← hj.brk, joinPrev]
    split <;> rfl
  refine ⟨_, ts', ?_, hr, hbrk, hst.trans (by rw [hlive]), hfit, fun b hb hne u hbu hub => ?_⟩
  · rw [free, Nat.add_sub_cancel]
    dsimp only
    rw [hscan]
    rfl
  · refine hframe u ?_ ?_
    · rintro rfl
      have hbp : lo + total ts₁ ∈ starts true lo (ts₁ ++ ⟨n, true⟩ :: ts₂) :=
        mem_starts.2 ⟨ts₁, _, ts₂, rfl, rfl, rfl⟩
      have := h.sized.disjoint hb hbp (by omega)
      omega
    · rintro rfl
      exact h.not_mem_nodes hb ⟨hbu, hub⟩ (by rw [hnodes]; simp)

end Free

section Search

theorem search_skip (grants : Bool) (fuel : ℕ) {l : List ℕ} {prevp b : ℕ}
    (hs : Segment s.ptr (prevp :: l) b)
    (hsmall : ∀ x ∈ l, s.size x < nunits) (hne : s.freep ∉ l) :
    search grants nunits (l.length + fuel) prevp (s.ptr prevp) s =
      search grants nunits fuel (l.getLastD prevp) b s := by
  induction l generalizing prevp with
  | nil =>
    rw [List.length_nil, Nat.zero_add, hs.1]
    rfl
  | cons x l ih =>
    rw [List.length_cons, Nat.succ_add, hs.1, List.headD_cons]
    change (if _ then _ else _) = _
    rw [if_neg (Nat.not_le.2 (hsmall x List.mem_cons_self)),
      if_neg fun he : x = s.freep => hne (he ▸ List.mem_cons_self), List.getLastD_cons]
    exact ih hs.2 (fun y hy => hsmall y (List.mem_cons_of_mem _ hy))
      fun hm => hne (List.mem_cons_of_mem _ hm)

theorem Repr.exists_circle (h : Repr base lo s ts) :
    ∃ l, Segment s.ptr (s.freep :: l) s.freep ∧ (s.freep :: l).Perm (nodes base lo ts) := by
  obtain ⟨l₁, l₂, he⟩ := List.append_of_mem h.freep
  refine ⟨l₂ ++ l₁, h.circle.rotate he, ?_⟩
  rw [he, ← List.cons_append]
  exact List.perm_append_comm

/-- A block that is large enough is found and taken, with the node before it. -/
theorem search_found (grants : Bool) (fuel : ℕ) (h : Repr base lo s ts) (hpos : 0 < nunits) {x : ℕ}
    (hx : x ∈ starts false lo ts) (hfit : nunits ≤ s.size x)
    (hf : (nodes base lo ts).length < fuel) :
    ∃ prevp ∈ nodes base lo ts, s.ptr prevp ∈ starts false lo ts ∧
      nunits ≤ s.size (s.ptr prevp) ∧
      search grants nunits fuel s.freep (s.ptr s.freep) s =
        some (take nunits prevp (s.ptr prevp) s) := by
  obtain ⟨l, hl, hperm⟩ := h.exists_circle
  have hmem : x ∈ l ++ [s.freep] := by
    have := hperm.mem_iff.2 (List.mem_cons_of_mem base hx)
    simpa [or_comm] using this
  obtain ⟨z, hz⟩ := Option.isSome_iff_exists.1
    (List.find?_isSome (p := fun y => decide (nunits ≤ s.size y)).2 ⟨x, hmem, by simpa using hfit⟩)
  obtain ⟨hzfit, l₁, l₂, he, hsmall⟩ := List.find?_eq_some_iff_append.1 hz
  have hzfit' : nunits ≤ s.size z := by simpa using hzfit
  have hsmall' : ∀ y ∈ l₁, s.size y < nunits := fun y hy => by simpa using hsmall y hy
  -- up to the first such block the segment leads to it, and does not come by `freep` again
  have hseg : Segment s.ptr (s.freep :: l₁) z ∧ l₁.length ≤ l.length ∧ ∀ y ∈ l₁, y ∈ l := by
    rcases l₂.eq_nil_or_concat' with rfl | ⟨ws, w, rfl⟩
    · obtain ⟨rfl, hz'⟩ := List.append_inj' he rfl
      obtain rfl : s.freep = z := (List.cons.inj hz').1
      exact ⟨hl, le_rfl, fun _ hy => hy⟩
    · rw [← List.cons_append, ← List.append_assoc] at he
      obtain ⟨rfl, -⟩ := List.append_inj' he rfl
      rw [← List.cons_append, segment_append] at hl
      refine ⟨hl.1, ?_, fun y hy => List.mem_append_left _ hy⟩
      rw [List.length_append]
      omega
  obtain ⟨hseg, hlen, hsub⟩ := hseg
  have hnd : (s.freep :: l).Nodup := hperm.nodup_iff.2 h.nodes_nodup
  have hlen' := hperm.length_eq
  rw [List.length_cons] at hlen'
  obtain ⟨f, rfl⟩ : ∃ f, fuel = l₁.length + (f + 1) := ⟨fuel - l₁.length - 1, by omega⟩
  have hskip := search_skip grants (f + 1) hseg hsmall' fun hm =>
    (List.nodup_cons.1 hnd).1 (hsub _ hm)
  have hprev : l₁.getLastD s.freep ∈ nodes base lo ts := by
    rw [← hperm.mem_iff]
    rcases l₁.eq_nil_or_concat' with rfl | ⟨ws, w, rfl⟩
    · exact List.mem_cons_self
    · rw [List.getLastD_concat]
      exact List.mem_cons_of_mem _ (hsub w (by simp))
  have hptr := hseg.ptr_getLastD
  refine ⟨_, hprev, ?_, ?_, hskip.trans ?_⟩
  · rw [hptr]
    have hz' : z ∈ nodes base lo ts := by
      rw [← hperm.mem_iff]
      have : z ∈ l ++ [s.freep] := by
        rw [he]
        simp
      simpa [or_comm] using this
    rcases List.mem_cons.1 hz' with rfl | hz'
    · rw [h.base_size] at hzfit'
      omega
    · exact hz'
  · rw [hptr]
    exact hzfit'
  · rw [hptr]
    exact if_pos hzfit'

theorem search_none (h : Repr base lo s ts) (hpos : 0 < nunits)
    (hsmall : ∀ x ∈ starts false lo ts, s.size x < nunits) (fuel : ℕ) :
    search grants nunits ((nodes base lo ts).length + fuel) s.freep (s.ptr s.freep) s =
      (morecore grants nunits s).bind fun r =>
        if r.1 = 0 then some (0, r.2)
        else search grants nunits fuel r.1 (r.2.ptr r.1) r.2 := by
  obtain ⟨l, hl, hperm⟩ := h.exists_circle
  have hsmall' : ∀ x ∈ nodes base lo ts, s.size x < nunits := by
    intro x hx
    rcases List.mem_cons.1 hx with rfl | hx
    · rw [h.base_size]
      exact hpos
    · exact hsmall x hx
  have hnd : (s.freep :: l).Nodup := hperm.nodup_iff.2 h.nodes_nodup
  rw [← hperm.length_eq, List.length_cons, Nat.add_assoc, Nat.add_comm 1 fuel,
    search_skip _ _ hl (fun x hx => hsmall' x (hperm.mem_iff.1 (List.mem_cons_of_mem _ hx)))
      (List.nodup_cons.1 hnd).1]
  change (if _ then _ else _) = _
  rw [if_neg (Nat.not_le.2 (hsmall' _ h.freep)), if_pos rfl]

end Search

section Take

/-- What a call that hands out the block `a` of `n` units does to the heap `s`. -/
structure Handed (base lo : ℕ) (s : Heap) (ts : List Tile) (n a : ℕ) (s' : Heap)
    (ts' : List Tile) : Prop where
  repr : Repr base lo s' ts'
  live : (starts true lo ts').Perm (a :: starts true lo ts)
  size : s'.size a = n
  kept : ∀ b ∈ starts true lo ts, Kept s s' b

theorem Repr.kept_inside (h : Repr base lo s (ts₁ ++ ⟨n, false⟩ :: ts₂)) {a : ℕ} {s' : Heap}
    (hla : lo + total ts₁ ≤ a) (hal : a < lo + total ts₁ + n)
    (hframe : ∀ u ≠ a, u ∉ nodes base lo (ts₁ ++ ⟨n, false⟩ :: ts₂) →
      s'.ptr u = s.ptr u ∧ s'.size u = s.size u) :
    ∀ b ∈ starts true lo (ts₁ ++ ⟨n, false⟩ :: ts₂), Kept s s' b := by
  intro b hb u hbu hub
  have hx : lo + total ts₁ ∈ starts false lo (ts₁ ++ ⟨n, false⟩ :: ts₂) :=
    mem_starts.2 ⟨ts₁, _, ts₂, rfl, rfl, rfl⟩
  refine hframe u ?_ (h.not_mem_nodes hb ⟨hbu, hub⟩)
  rintro rfl
  refine h.outside hx hb ⟨hbu, hub⟩ ⟨hla, ?_⟩
  rw [h.sized.mem]
  exact hal

/-- A block of the size that is asked for is taken out of the list. -/
theorem take_whole {prevp : ℕ} (h : Repr base lo s (ts₁ ++ ⟨n, false⟩ :: ts₂))
    (hprev : prevp ∈ nodes base lo (ts₁ ++ ⟨n, false⟩ :: ts₂))
    (hx : s.ptr prevp = lo + total ts₁) :
    Handed base lo s (ts₁ ++ ⟨n, false⟩ :: ts₂) n (lo + total ts₁)
      { s.setPtr prevp (s.ptr (lo + total ts₁)) with freep := prevp }
      (ts₁ ++ ⟨n, true⟩ :: ts₂) := by
  obtain ⟨A, p, hA⟩ := (base :: starts false lo ts₁).eq_nil_or_concat'.resolve_left
    (List.cons_ne_nil _ _)
  have hnodes : nodes base lo (ts₁ ++ ⟨n, false⟩ :: ts₂) =
      A ++ p :: (lo + total ts₁) :: starts false (lo + total ts₁ + n) ts₂ := by
    rw [nodes_middle hA, starts_self]
  have hnodes' : nodes base lo (ts₁ ++ ⟨n, true⟩ :: ts₂) =
      A ++ p :: starts false (lo + total ts₁ + n) ts₂ := by
    rw [nodes_middle hA, starts_other (by decide)]
  have hnd := h.nodes_nodup
  -- no other node leads to the block
  obtain rfl : prevp = p := by
    refine Segment.ptr_inj h.circle hnd hprev ?_ (hx.trans ?_)
    · change p ∈ nodes base lo _
      rw [hnodes]
      simp
    · rw [(h.segments hA).2.1, starts_self, List.headD_cons]
  have hcircle := h.circle
  obtain ⟨hm₁, hm₂, hpos, -⟩ := merged_middle.1 h.merged
  refine ⟨⟨h.base_pos, h.base_lt, ?_, ?_, ?_, h.base_size, ?_, ?_⟩, ?_, h.sized.mem,
    h.kept_inside le_rfl (Nat.lt_add_of_pos_right hpos) fun u _ hu =>
      ⟨setPtr_ptr_of_ne _ _ _ ?_, rfl⟩⟩
  · rw [total_middle]
    exact h.brk.trans (by rw [total_middle])
  · rw [hnodes']
    simp
  · rw [hnodes']
    rw [hnodes] at hcircle hnd
    refine hcircle.remove (setPtr_ptr_self _ _ _) fun y hy => setPtr_ptr_of_ne _ _ _ ?_
    rintro rfl
    refine (List.nodup_cons.1 (List.nodup_middle.1 hnd)).1 ?_
    rcases List.mem_append.1 hy with hy | hy <;> simp [hy]
  · have hsized := sized_append.1 h.sized
    exact sized_append.2 ⟨hsized.1, hsized.2⟩
  · exact merged_middle.2 ⟨hm₁, hm₂, hpos, fun _ _ => .inr rfl, fun _ _ => .inl rfl⟩
  · rw [starts_middle, starts_middle, if_pos rfl, if_neg (by decide), List.append_nil,
      List.append_assoc]
    exact List.perm_middle
  · rintro rfl
    exact hu hprev

/-- Of a larger block the end is handed out. -/
theorem take_end {prevp : ℕ} (h : Repr base lo s (ts₁ ++ ⟨n, false⟩ :: ts₂))
    (hprev : prevp ∈ nodes base lo (ts₁ ++ ⟨n, false⟩ :: ts₂)) (hpos : 0 < nunits)
    (hlt : nunits < n) :
    Handed base lo s (ts₁ ++ ⟨n, false⟩ :: ts₂) nunits (lo + total ts₁ + (n - nunits))
      { (s.setSize (lo + total ts₁) (n - nunits)).setSize
          (lo + total ts₁ + (n - nunits)) nunits with freep := prevp }
      (ts₁ ++ ⟨n - nunits, false⟩ :: ⟨nunits, true⟩ :: ts₂) := by
  have hb := h.base_lt
  have hbrk := h.brk
  have hsized := sized_append.1 h.sized
  obtain ⟨hm₁, hm₂, -, hlast, -⟩ := merged_middle.1 h.merged
  have he : lo + total ts₁ + (n - nunits) + nunits = lo + total ts₁ + n := by omega
  have hnodes : nodes base lo (ts₁ ++ ⟨n - nunits, false⟩ :: ⟨nunits, true⟩ :: ts₂) =
      nodes base lo (ts₁ ++ ⟨n, false⟩ :: ts₂) := by
    rw [nodes, nodes, starts_append, starts_append, starts_self, starts_self,
      starts_other (by decide), he]
  refine ⟨⟨h.base_pos, hb, ?_, ?_, ?_, ?_, ?_, ?_⟩, ?_, setSize_size_self _ _ _,
    h.kept_inside (a := lo + total ts₁ + (n - nunits)) (Nat.le_add_right ..) (by omega)
      fun u hu hun => ⟨rfl, ?_⟩⟩
  · rw [total_middle] at hbrk ⊢
    rw [total]
    change s.brk = lo + (total ts₁ + (n + total ts₂)) at hbrk
    change s.brk = lo + (total ts₁ + (n - nunits + (nunits + total ts₂)))
    omega
  · rw [hnodes]
    exact hprev
  · rw [hnodes]
    exact h.circle
  · exact (setSize_size_of_ne _ _ _ (by omega)).trans
      ((setSize_size_of_ne _ _ _ (by omega)).trans h.base_size)
  · refine sized_append.2 ⟨hsized.1.congr hm₁.pos fun x _ hx => ?_, ?_, ?_, ?_⟩
    · exact (setSize_size_of_ne _ _ _ (by omega)).trans (setSize_size_of_ne _ _ _ (by omega))
    · exact (setSize_size_of_ne _ _ _ (by omega)).trans (setSize_size_self _ _ _)
    · exact setSize_size_self _ _ _
    · change Sized _ (lo + total ts₁ + (n - nunits) + nunits) ts₂
      rw [he]
      refine hsized.2.2.congr hm₂.pos fun x hx _ => ?_
      change lo + total ts₁ + n ≤ x at hx
      exact (setSize_size_of_ne _ _ _ (by omega)).trans (setSize_size_of_ne _ _ _ (by omega))
  · have hm₂' : Merged ([] ++ (⟨nunits, true⟩ : Tile) :: ts₂) :=
      merged_middle.2 ⟨⟨by simp, .nil⟩, hm₂, hpos, by simp, fun _ _ => .inl rfl⟩
    refine merged_middle.2 ⟨hm₁, hm₂', Nat.sub_pos_of_lt hlt, hlast, fun t ht => .inr ?_⟩
    exact Option.some.inj ht ▸ rfl
  · rw [starts_middle, starts_self, starts_middle, if_neg (by decide), List.append_nil, he]
    exact List.perm_middle
  · refine (setSize_size_of_ne _ _ _ hu).trans (setSize_size_of_ne _ _ _ ?_)
    rintro rfl
    exact hun (List.mem_cons_of_mem _ (mem_starts.2 ⟨ts₁, _, ts₂, rfl, rfl, rfl⟩))

theorem take_spec (h : Repr base lo s ts) (hpos : 0 < nunits) {prevp : ℕ}
    (hprev : prevp ∈ nodes base lo ts) (hx : s.ptr prevp ∈ starts false lo ts)
    (hfit : nunits ≤ s.size (s.ptr prevp)) :
    ∃ a s' ts', take nunits prevp (s.ptr prevp) s = (a + 1, s') ∧
      Handed base lo s ts nunits a s' ts' := by
  obtain ⟨ts₁, ⟨n, live⟩, ts₂, rfl, hlive, hxe⟩ := mem_starts.1 hx
  obtain rfl : live = false := hlive
  have hsize : s.size (lo + total ts₁) = n := h.sized.mem
  rw [hxe, hsize] at hfit
  rw [hxe, take, hsize]
  by_cases hn : n = nunits
  · subst hn
    rw [if_pos rfl]
    exact ⟨_, _, _, rfl, take_whole h hprev hxe⟩
  · rw [if_neg hn]
    exact ⟨_, _, _, rfl, take_end h hprev hpos (Nat.lt_of_le_of_ne hfit (Ne.symm hn))⟩

end Take

section Calls

/-- The memory that the kernel grants, as a live block that is then freed. -/
theorem Repr.grow (h : Repr base lo s ts) (nu : ℕ) (hnu : 0 < nu) :
    Repr base lo ({ s with brk := s.brk + nu }.setSize s.brk nu) (ts ++ [⟨nu, true⟩]) := by
  have hb := h.base_lt
  have hbrk := h.brk
  have hnodes : nodes base lo (ts ++ [⟨nu, true⟩]) = nodes base lo ts := by
    rw [nodes, starts_append, starts_other (by decide), starts, List.append_nil]
    rfl
  refine ⟨h.base_pos, hb, ?_, ?_, ?_, ?_, ?_, ?_⟩
  · rw [total_append, total, total]
    change s.brk + nu = lo + (total ts + (nu + 0))
    omega
  · rw [hnodes]
    exact h.freep
  · rw [hnodes]
    exact h.circle
  · exact (setSize_size_of_ne _ _ _ (by omega)).trans h.base_size
  · refine sized_append.2 ⟨h.sized.congr h.merged.pos fun x _ hx => ?_, ?_, trivial⟩
    · exact setSize_size_of_ne _ _ _ (by omega)
    · rw [← hbrk]
      exact setSize_size_self _ _ _
  · exact merged_middle.2 ⟨h.merged, ⟨by simp, .nil⟩, hnu, fun _ _ => .inr rfl, by simp⟩

/-- What `malloc` returns: a block, or null when no free block is large enough and the kernel
grants no more memory. -/
theorem search_spec (grants : Bool) (h : Repr base lo s ts) (hpos : 0 < nunits)
    (hcap : 8 * nunits < 2147483648) {fuel : ℕ} (hf : s.fuel + nunits + 4096 ≤ fuel) :
    (∃ a s' ts', search grants nunits fuel s.freep (s.ptr s.freep) s = some (a + 1, s') ∧
      Handed base lo s ts nunits a s' ts') ∨
    (search grants nunits fuel s.freep (s.ptr s.freep) s = some (0, s) ∧ grants = false ∧
      ∀ x ∈ starts false lo ts, s.size x < nunits) := by
  have hlen := h.length_nodes
  unfold Heap.fuel at hf
  by_cases hfit : ∃ x ∈ starts false lo ts, nunits ≤ s.size x
  · obtain ⟨x, hx, hxn⟩ := hfit
    obtain ⟨prevp, hprev, hpx, hpn, hsearch⟩ :=
      search_found grants fuel h hpos hx hxn (by omega)
    obtain ⟨a, s', ts', htake, hh⟩ := take_spec h hpos hprev hpx hpn
    exact .inl ⟨a, s', ts', hsearch.trans (congrArg some htake), hh⟩
  have hsmall : ∀ x ∈ starts false lo ts, s.size x < nunits := fun x hx =>
    Nat.not_le.1 fun hn => hfit ⟨x, hx, hn⟩
  obtain ⟨f, rfl⟩ : ∃ f, fuel = (nodes base lo ts).length + f :=
    ⟨fuel - (nodes base lo ts).length, by omega⟩
  rw [search_none h hpos hsmall]
  obtain ⟨nu, hnu, hle, hint⟩ : ∃ nu, (if nunits < 4096 then 4096 else nunits) = nu ∧
      (nunits ≤ nu ∧ nu ≤ nunits + 4096) ∧ ¬ 2147483648 ≤ 8 * nu := by
    refine ⟨_, rfl, ?_⟩
    split <;> omega
  cases grants with
  | false =>
    right
    unfold morecore
    dsimp only
    rw [hnu, if_neg hint]
    exact ⟨rfl, rfl, hsmall⟩
  | true =>
    left
    obtain ⟨s₂, ts₂, hfree, hr₂, hbrk₂, hlive, ⟨x, hx, hxn⟩, hkept⟩ :=
      free_spec (h.grow nu (by omega))
    rw [← h.brk] at hfree hkept
    rw [starts, List.append_nil] at hlive
    have hmore : morecore true nunits s = some (s₂.freep, s₂) := by
      unfold morecore
      dsimp only
      rw [hnu, if_neg hint, if_pos rfl, hfree]
      rfl
    have hne : s₂.freep ≠ 0 := (hr₂.mem_nodes hr₂.freep).1.ne'
    have hlen₂ := hr₂.length_nodes
    change s₂.brk = s.brk + nu at hbrk₂
    obtain ⟨prevp, hprev, hpx, hpn, hsearch⟩ :=
      search_found true f hr₂ hpos hx (hle.1.trans hxn) (by omega)
    obtain ⟨a, s₃, ts₃, htake, hh⟩ := take_spec hr₂ hpos hprev hpx hpn
    refine ⟨a, s₃, ts₃, ?_, hh.repr, ?_, hh.size, fun b hb u hbu hub => ?_⟩
    · rw [hmore, Option.bind_some, if_neg hne, hsearch, htake]
    · rw [← hlive]
      exact hh.live
    · have hblt : b + s.size b ≤ s.brk := h.brk ▸ (h.sized.bounds hb).2
      have hs₁ : ∀ u < s.brk, ({ s with brk := s.brk + nu }.setSize s.brk nu).size u = s.size u :=
        fun u hu => setSize_size_of_ne _ _ _ hu.ne
      have hbpos := h.size_pos hb
      have hk := hkept b (by
        rw [starts_append]
        exact List.mem_append_left _ hb) (by omega) u hbu (by rwa [hs₁ b (by omega)])
      have hkb := hkept b (by
        rw [starts_append]
        exact List.mem_append_left _ hb) (by omega) b le_rfl (by
          rw [hs₁ b (by omega)]
          omega)
      have hb₂ : s₂.size b = s.size b := hkb.2.trans (hs₁ b (by omega))
      have hk₃ := hh.kept b (hlive ▸ hb) u hbu (by rwa [hb₂])
      exact ⟨hk₃.1.trans hk.1, hk₃.2.trans (hk.2.trans (hs₁ u (by omega)))⟩

end Calls

end Malloc
