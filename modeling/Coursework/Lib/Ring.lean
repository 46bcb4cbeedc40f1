import Mathlib.Data.List.Cycle

/-! Circular doubly linked lists: the two link functions run around a list of nodes. Segments of
singly linked lists. -/
namespace Ring

variable {ι : Type*} {next prev next' prev' : ι → Option ι} {l : List ι} {a i n p x : ι}

/-- The links between `a` and its successor `b`. -/
def Link (next prev : ι → Option ι) (a b : ι) : Prop := next a = some b ∧ prev b = some a

/-- The links run around `l`, from its last node back to its first. -/
def Linked (next prev : ι → Option ι) (l : List ι) : Prop :=
  Cycle.Chain (Link next prev) (l : Cycle ι)

theorem linked_nil : Linked next prev [] := Cycle.Chain.nil _

theorem linked_cons : Linked next prev (a :: l) ↔ (a :: (l ++ [a])).IsChain (Link next prev) :=
  Iff.rfl

theorem linked_singleton : Linked next prev [a] ↔ next a = some a ∧ prev a = some a :=
  Cycle.chain_singleton _ a

theorem Linked.rotate {l' : List ι} (h : Linked next prev l) (hr : l ~r l') :
    Linked next prev l' := by
  have e : (l : Cycle ι) = (l' : Cycle ι) := Cycle.coe_eq_coe.2 hr
  unfold Linked
  rw [← e]
  exact h

theorem isRotated_cons_of_append {l₁ l₂ : List ι} : (l₁ ++ i :: l₂) ~r (i :: (l₂ ++ l₁)) :=
  List.isRotated_append

theorem Linked.isChain (h : Linked next prev l) : l.IsChain (Link next prev) := by
  cases l with
  | nil => exact List.isChain_nil
  | cons a l =>
    rw [linked_cons, ← List.cons_append] at h
    exact h.left_of_append

theorem Linked.exists_next (h : Linked next prev l) (hi : i ∈ l) :
    ∃ n ∈ l, next i = some n ∧ prev n = some i := by
  obtain ⟨l₁, l₂, rfl⟩ := List.append_of_mem hi
  have hc := h.rotate isRotated_cons_of_append
  rw [linked_cons] at hc
  rcases hl : l₂ ++ l₁ with - | ⟨n, t⟩
  · rw [hl] at hc
    have hl : Link next prev i i := List.isChain_pair.1 hc
    exact ⟨i, hi, hl⟩
  · rw [hl] at hc
    have hn : n ∈ l₂ ++ l₁ := hl ▸ List.mem_cons_self
    refine ⟨n, ?_, (List.isChain_cons_cons.1 hc).1⟩
    rcases List.mem_append.1 hn with hn | hn
    · exact List.mem_append_right _ (List.mem_cons_of_mem _ hn)
    · exact List.mem_append_left _ hn

theorem Linked.link_head {t t' : List ι} (h : Linked next prev (t ++ [p]))
    (ht : t ++ [p] = a :: t') : Link next prev p a := by
  have hc := h.rotate (List.isRotated_concat p t)
  rw [linked_cons] at hc
  cases t with
  | nil =>
    have e : p = a := (List.cons.inj ht).1
    exact e ▸ List.isChain_pair.1 hc
  | cons b t =>
    have e : b = a := (List.cons.inj ht).1
    exact e ▸ (List.isChain_cons_cons.1 hc).1

theorem Linked.exists_prev (h : Linked next prev l) (hi : i ∈ l) :
    ∃ p ∈ l, next p = some i ∧ prev i = some p := by
  obtain ⟨l₁, l₂, rfl⟩ := List.append_of_mem hi
  have hr : (l₁ ++ i :: l₂) ~r (i :: (l₂ ++ l₁)) := isRotated_cons_of_append
  have hc := h.rotate hr
  obtain ⟨t, p, ht⟩ := (i :: (l₂ ++ l₁)).eq_nil_or_concat'.resolve_left (List.cons_ne_nil _ _)
  rw [ht] at hc
  refine ⟨p, hr.mem_iff.2 ?_, hc.link_head ht.symm⟩
  rw [ht]
  exact List.mem_append_right _ List.mem_cons_self

theorem Linked.next_ne (h : Linked next prev l) (hnd : l.Nodup) (hi : i ∈ l) (hne : l ≠ [i])
    (hn : next i = some n) : n ≠ i := by
  obtain ⟨l₁, l₂, rfl⟩ := List.append_of_mem hi
  have hr : (l₁ ++ i :: l₂) ~r (i :: (l₂ ++ l₁)) := isRotated_cons_of_append
  have hc := h.rotate hr
  have hnd' := hr.nodup_iff.1 hnd
  rcases hl : l₂ ++ l₁ with - | ⟨b, t⟩
  · rw [List.append_eq_nil_iff] at hl
    exact absurd (by rw [hl.1, hl.2, List.nil_append]) hne
  · rw [hl] at hc hnd'
    have hb := (List.isChain_cons_cons.1 hc.isChain).1.1
    rw [hn] at hb
    rintro rfl
    exact (List.nodup_cons.1 hnd').1 (Option.some.inj hb ▸ List.mem_cons_self)

theorem Linked.prev_ne (h : Linked next prev l) (hnd : l.Nodup) (hi : i ∈ l) (hne : l ≠ [i])
    (hp : prev i = some p) : p ≠ i := by
  rintro rfl
  obtain ⟨q, -, hn, hq⟩ := h.exists_prev hi
  rw [hp] at hq
  rw [← Option.some.inj hq] at hn
  exact h.next_ne hnd hi hne hn rfl

/-- The `k`-th node from a pointer on. -/
def follow (next : ι → Option ι) : ℕ → Option ι → Option ι
  | 0, q => q
  | k + 1, q => (follow next k q).bind next

theorem Linked.next_getElem (h : Linked next prev l) {k : ℕ} (hk : k < l.length) :
    next l[k] = l[(k + 1) % l.length]? := by
  by_cases hlast : k + 1 < l.length
  · have hc := (List.isChain_iff_getElem.1 h.isChain) k hlast
    rw [Nat.mod_eq_of_lt hlast, List.getElem?_eq_getElem hlast]
    exact hc.1
  · have hlen : l.length = k + 1 := by omega
    obtain ⟨t, p, rfl⟩ := l.eq_nil_or_concat'.resolve_left (List.ne_nil_of_length_pos (by omega))
    obtain ⟨a, t', ht⟩ := List.exists_cons_of_ne_nil (List.append_ne_nil_of_right_ne_nil t
      (List.cons_ne_nil p []))
    have hkt : k = t.length := by
      rw [List.length_append, List.length_singleton] at hlen
      omega
    subst hkt
    rw [hlen, Nat.mod_self, List.getElem_concat_length rfl, ht, List.getElem?_cons_zero]
    exact (h.link_head ht).1

theorem Linked.follow_eq (h : Linked next prev l) (k : ℕ) :
    follow next k l.head? = l[k % l.length]? := by
  induction k with
  | zero => rw [follow, Nat.zero_mod, List.head?_eq_getElem?]
  | succ k ih =>
    rw [follow, ih]
    cases l with
    | nil => rfl
    | cons a l =>
      have hlt : k % (a :: l).length < (a :: l).length := Nat.mod_lt _ (Nat.succ_pos _)
      rw [List.getElem?_eq_getElem hlt, Option.bind_some, h.next_getElem hlt, Nat.mod_add_mod]

theorem Linked.congr (h : Linked next prev l) (hn : ∀ a ∈ l, next' a = next a)
    (hp : ∀ a ∈ l, prev' a = prev a) : Linked next' prev' l := by
  cases l with
  | nil => exact linked_nil
  | cons a l =>
    rw [linked_cons] at h ⊢
    apply h.imp_of_mem_imp
    intro b c hb hc hl
    have hm : ∀ {b}, b ∈ a :: (l ++ [a]) → b ∈ a :: l := by
      intro b hb
      simpa [or_comm] using hb
    exact ⟨(hn b (hm hb)).trans hl.1, (hp c (hm hc)).trans hl.2⟩

/-- A node put in after the first one, from where the list is then read. -/
theorem Linked.insert {t : List ι} (h : Linked next prev (a :: t)) (hnd : (a :: t).Nodup)
    (hx : x ∉ a :: t) (hn : next a = some n) (h1 : next' a = some x) (h2 : next' x = some n)
    (h3 : prev' x = some a) (h4 : prev' n = some x)
    (hnext : ∀ b ∈ t, next' b = next b) (hprev : ∀ b ∈ a :: t, b ≠ n → prev' b = prev b) :
    Linked next' prev' (x :: (t ++ [a])) := by
  rw [linked_cons] at h
  obtain ⟨t', ht⟩ : ∃ t', t ++ [a] = n :: t' := by
    rcases hl : t ++ [a] with - | ⟨b, t'⟩
    · exact absurd hl (by simp)
    · rw [hl] at h
      have hb := (List.isChain_cons_cons.1 h).1.1
      rw [hn] at hb
      exact ⟨t', by rw [Option.some.inj hb]⟩
  have hnd' : (n :: t').Nodup := by
    rw [← ht]
    exact (List.isRotated_concat a t).nodup_iff.2 hnd
  have hmem : ∀ {b}, b ∈ n :: t' → b ∈ a :: t := by
    intro b hb
    rw [← ht] at hb
    exact (List.isRotated_concat a t).mem_iff.1 hb
  rw [ht] at h
  have hchain : (n :: t').IsChain (Link next' prev') := by
    apply List.IsChain.imp_of_mem_tail_imp _ (List.isChain_cons_cons.1 h).2
    intro b c hb hc hl
    have hcn : c ≠ n := by
      rintro rfl
      exact (List.nodup_cons.1 hnd').1 hc
    have hba : b ≠ a := by
      rintro rfl
      rw [Link, hn] at hl
      exact hcn (Option.some.inj hl.1).symm
    have hbt : b ∈ t := (List.mem_cons.1 (hmem hb)).resolve_left hba
    exact ⟨(hnext b hbt).trans hl.1,
      (hprev c (hmem (List.mem_cons_of_mem _ hc)) hcn).trans hl.2⟩
  have hlast : ((t ++ [a]) ++ [x]).IsChain (Link next' prev') := by
    rw [List.append_assoc, List.singleton_append, List.isChain_split, ht]
    exact ⟨hchain, List.isChain_pair.2 ⟨h1, h3⟩⟩
  rw [linked_cons]
  rw [ht] at hlast ⊢
  exact List.isChain_cons_cons.2 ⟨⟨h2, h4⟩, hlast⟩

/-- The first node taken out. -/
theorem Linked.tail (h : Linked next prev (i :: l)) (hnd : (i :: l).Nodup) (hl : l ≠ [])
    (hn : next i = some n) (hp : prev i = some p) (h1 : next' p = some n)
    (h2 : prev' n = some p) (hnext : ∀ b ∈ l, b ≠ p → next' b = next b)
    (hprev : ∀ b ∈ l, b ≠ n → prev' b = prev b) : Linked next' prev' l := by
  rw [linked_cons] at h
  obtain ⟨hi, hnd⟩ := List.nodup_cons.1 hnd
  obtain ⟨t, z, rfl⟩ := l.eq_nil_or_concat'.resolve_left hl
  have hz : p = z := by
    have hc : ((t ++ [z]) ++ [i]).IsChain (Link next prev) := by
      rw [← List.cons_append] at h
      exact (List.isChain_cons.1 h).2
    rw [List.append_assoc, List.singleton_append, List.isChain_split] at hc
    have hzi := (List.isChain_pair.1 hc.2).2
    rw [hp] at hzi
    exact Option.some.inj hzi
  subst hz
  obtain ⟨b, u, hu⟩ : ∃ b u, t ++ [p] = b :: u := List.exists_cons_of_ne_nil hl
  rw [hu, List.cons_append] at h
  have hbn : b = n := by
    have hb := (List.isChain_cons_cons.1 h).1.1
    rw [hn] at hb
    exact (Option.some.inj hb).symm
  subst hbn
  have hchain : (t ++ [p]).IsChain (Link next' prev') := by
    have hc := (List.isChain_cons_cons.1 h).2
    rw [← List.cons_append, ← hu] at hc
    apply List.IsChain.imp_of_mem_tail_imp _ hc.left_of_append
    intro c d hc' hd hcd
    have hdt : d ∈ t ++ [p] := List.mem_of_mem_tail hd
    have hdb : d ≠ b := by
      rintro rfl
      rw [hu] at hd hnd
      exact (List.nodup_cons.1 hnd).1 hd
    have hcp : c ≠ p := by
      rintro rfl
      rw [List.append_assoc, List.singleton_append, List.isChain_split] at hc
      have hci := (List.isChain_pair.1 hc.2).1
      have e : i = d := Option.some.inj (hci.symm.trans hcd.1)
      exact hi (e ▸ hdt)
    exact ⟨(hnext c hc' hcp).trans hcd.1, (hprev d hdt hdb).trans hcd.2⟩
  rw [hu, linked_cons, ← List.cons_append, ← hu, List.append_assoc, List.singleton_append,
    List.isChain_split]
  exact ⟨hchain, List.isChain_pair.2 ⟨h1, h2⟩⟩

/-- A node taken out. -/
theorem Linked.erase [DecidableEq ι] (h : Linked next prev l) (hnd : l.Nodup) (hi : i ∈ l)
    (hne : l ≠ [i]) (hn : next i = some n) (hp : prev i = some p) (h1 : next' p = some n)
    (h2 : prev' n = some p) (hnext : ∀ b ∈ l, b ≠ i → b ≠ p → next' b = next b)
    (hprev : ∀ b ∈ l, b ≠ i → b ≠ n → prev' b = prev b) :
    Linked next' prev' (l.erase i) := by
  obtain ⟨l₁, l₂, rfl⟩ := List.append_of_mem hi
  have hrot : (l₁ ++ i :: l₂) ~r (i :: (l₂ ++ l₁)) := isRotated_cons_of_append
  have hnd' := hrot.nodup_iff.1 hnd
  have hi' : i ∉ l₂ ++ l₁ := (List.nodup_cons.1 hnd').1
  have herase : (l₁ ++ i :: l₂).erase i = l₁ ++ l₂ := by
    have hi₁ : i ∉ l₁ := fun h => hi' (List.mem_append_right _ h)
    rw [List.erase_append_right _ hi₁, List.erase_cons_head]
  have hmem : ∀ {b}, b ∈ l₂ ++ l₁ → b ∈ l₁ ++ i :: l₂ ∧ b ≠ i := by
    intro b hb
    exact ⟨hrot.mem_iff.2 (List.mem_cons_of_mem _ hb), fun e => hi' (e ▸ hb)⟩
  have hl : l₂ ++ l₁ ≠ [] := by
    intro e
    rw [List.append_eq_nil_iff] at e
    exact hne (by rw [e.1, e.2, List.nil_append])
  rw [herase]
  refine ((h.rotate hrot).tail hnd' hl hn hp h1 h2 ?_ ?_).rotate List.isRotated_append
  · exact fun b hb => hnext b (hmem hb).1 (hmem hb).2
  · exact fun b hb => hprev b (hmem hb).1 (hmem hb).2

section Segments
variable {ptr ptr' : ι → ι} {b : ι} {l₁ l₂ : List ι}

/-- The pointers lead along the list, and from its last node to `b`. -/
def Segment (ptr : ι → ι) : List ι → ι → Prop
  | [], _ => True
  | x :: l, b => ptr x = l.headD b ∧ Segment ptr l b

theorem segment_append : Segment ptr (l₁ ++ l₂) b ↔
    Segment ptr l₁ (l₂.headD b) ∧ Segment ptr l₂ b := by
  induction l₁ with
  | nil => exact ⟨fun h => ⟨trivial, h⟩, And.right⟩
  | cons x l₁ ih =>
    rw [List.cons_append, Segment, Segment, ih, and_assoc]
    cases l₁ <;> rfl

theorem Segment.congr (h : Segment ptr l b) (he : ∀ x ∈ l, ptr' x = ptr x) :
    Segment ptr' l b := by
  induction l with
  | nil => trivial
  | cons x l ih =>
    exact ⟨(he x List.mem_cons_self).trans h.1,
      ih h.2 fun y hy => he y (List.mem_cons_of_mem _ hy)⟩

theorem Segment.map_ptr (h : Segment ptr (x :: l) b) : (x :: l).map ptr = l ++ [b] := by
  induction l generalizing x with
  | nil => exact congrArg ([·]) h.1
  | cons y l ih =>
    rw [List.map_cons, ih h.2, h.1]
    rfl

theorem Segment.ptr_getLastD (h : Segment ptr (x :: l) b) : ptr (l.getLastD x) = b := by
  induction l generalizing x with
  | nil => exact h.1
  | cons y l ih =>
    rw [List.getLastD_cons]
    exact ih h.2

theorem Segment.rotate {y : ι} (h : Segment ptr (x :: l) x) (hy : x :: l = l₁ ++ y :: l₂) :
    Segment ptr (y :: (l₂ ++ l₁)) y := by
  rw [hy, segment_append] at h
  rw [← List.cons_append, segment_append]
  cases l₁ with
  | nil =>
    obtain rfl := (List.cons.inj hy).1
    exact ⟨h.2, trivial⟩
  | cons z l₁ =>
    obtain rfl := (List.cons.inj hy).1
    exact ⟨h.2, h.1⟩

theorem Segment.ptr_inj (h : Segment ptr (x :: l) x) (hnd : (x :: l).Nodup) {y z : ι}
    (hy : y ∈ x :: l) (hz : z ∈ x :: l) (he : ptr y = ptr z) : y = z := by
  have hmap : ((x :: l).map ptr).Nodup := by
    rw [h.map_ptr]
    exact (List.isRotated_concat x l).nodup_iff.2 hnd
  exact List.inj_on_of_nodup_map hmap hy hz he

theorem Segment.remove (h : Segment ptr (l₁ ++ p :: x :: l₂) b) (hp : ptr' p = ptr x)
    (he : ∀ y ∈ l₁ ++ l₂, ptr' y = ptr y) : Segment ptr' (l₁ ++ p :: l₂) b := by
  rw [segment_append] at h ⊢
  exact ⟨h.1.congr fun y hy => he y (List.mem_append_left _ hy), hp.trans h.2.2.1,
    h.2.2.2.congr fun y hy => he y (List.mem_append_right _ hy)⟩

end Segments

end Ring
