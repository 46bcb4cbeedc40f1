import Mathlib.Data.List.Chain
import Mathlib.Data.List.Basic

/-! An interval of addresses cut into tiles, each of them free or live. -/
namespace Tiling

structure Tile where
  size : ℕ
  live : Bool

/-- The length of the interval. -/
def total : List Tile → ℕ
  | [] => 0
  | t :: ts => t.size + total ts

/-- Where the live tiles start, or the free ones, if the first tile starts at `a`. -/
def starts (live : Bool) : ℕ → List Tile → List ℕ
  | _, [] => []
  | a, t :: ts =>
    if t.live = live then a :: starts live (a + t.size) ts else starts live (a + t.size) ts

/-- `size` tells how long the tile is that starts at an address. -/
def Sized (size : ℕ → ℕ) : ℕ → List Tile → Prop
  | _, [] => True
  | a, t :: ts => size a = t.size ∧ Sized size (a + t.size) ts

/-- There are no empty tiles, and no free ones side by side. -/
structure Merged (ts : List Tile) : Prop where
  pos : ∀ t ∈ ts, 0 < t.size
  apart : ts.IsChain fun t u => t.live = true ∨ u.live = true

variable {ts ts' us : List Tile} {t : Tile} {live b : Bool} {a x y n k : ℕ} {size size' : ℕ → ℕ}

theorem total_append : total (ts ++ us) = total ts + total us := by
  induction ts with
  | nil => exact (Nat.zero_add _).symm
  | cons t ts ih => rw [List.cons_append, total, total, ih, Nat.add_assoc]

theorem starts_append :
    starts live a (ts ++ us) = starts live a ts ++ starts live (a + total ts) us := by
  induction ts generalizing a with
  | nil => rfl
  | cons t ts ih =>
    rw [List.cons_append, starts, starts, ih, total, Nat.add_assoc]
    split <;> rfl

theorem sized_append :
    Sized size a (ts ++ us) ↔ Sized size a ts ∧ Sized size (a + total ts) us := by
  induction ts generalizing a with
  | nil => exact ⟨fun h => ⟨trivial, h⟩, And.right⟩
  | cons t ts ih => rw [List.cons_append, Sized, Sized, ih, total, Nat.add_assoc, and_assoc]

theorem total_middle : total (ts ++ t :: us) = total ts + (t.size + total us) := by
  rw [total_append, total]

theorem starts_self : starts b a (⟨n, b⟩ :: ts) = a :: starts b (a + n) ts := if_pos rfl

theorem starts_other (h : b ≠ live) : starts live a (⟨n, b⟩ :: ts) = starts live (a + n) ts :=
  if_neg h

theorem starts_middle : starts live a (ts ++ ⟨n, b⟩ :: us) = starts live a ts ++
    (if b = live then [a + total ts] else []) ++ starts live (a + total ts + n) us := by
  rw [starts_append, starts]
  split <;> simp

/-- A start is the start of a tile. -/
theorem mem_starts : x ∈ starts live a ts ↔
    ∃ us t us', ts = us ++ t :: us' ∧ t.live = live ∧ x = a + total us := by
  induction ts generalizing a with
  | nil =>
    refine iff_of_false List.not_mem_nil ?_
    rintro ⟨us, t, us', h, -⟩
    exact List.append_ne_nil_of_right_ne_nil us (List.cons_ne_nil t us') h.symm
  | cons t ts ih =>
    have hstep : x ∈ starts live a (t :: ts) ↔
        (t.live = live ∧ x = a) ∨ x ∈ starts live (a + t.size) ts := by
      rw [starts]
      split
      next h => simp [h]
      next h => simp [h]
    rw [hstep, ih]
    constructor
    · rintro (⟨hl, rfl⟩ | ⟨us, u, us', rfl, hl, rfl⟩)
      · exact ⟨[], t, ts, rfl, hl, rfl⟩
      · exact ⟨t :: us, u, us', rfl, hl, by rw [total, Nat.add_assoc]⟩
    · rintro ⟨us, u, us', h, hl, rfl⟩
      cases us with
      | nil =>
        obtain ⟨rfl, rfl⟩ := List.cons.inj h
        exact .inl ⟨hl, rfl⟩
      | cons v us =>
        obtain ⟨rfl, rfl⟩ := List.cons.inj h
        exact .inr ⟨us, u, us', rfl, hl, by rw [total, Nat.add_assoc]⟩

theorem Sized.mem (h : Sized size a (ts ++ t :: us)) : size (a + total ts) = t.size :=
  (sized_append.1 h).2.1

theorem Sized.bounds (h : Sized size a ts) (hx : x ∈ starts live a ts) :
    a ≤ x ∧ x + size x ≤ a + total ts := by
  obtain ⟨us, t, us', rfl, -, rfl⟩ := mem_starts.1 hx
  rw [h.mem, total_append, total]
  omega

theorem Sized.disjoint (h : Sized size a ts) (hx : x ∈ starts live a ts)
    (hy : y ∈ starts b a ts) (hlt : x < y) : x + size x ≤ y := by
  obtain ⟨us, t, us', rfl, -, rfl⟩ := mem_starts.1 hx
  obtain ⟨vs, v, vs', he, -, rfl⟩ := mem_starts.1 hy
  rw [h.mem]
  rcases List.append_eq_append_iff.1 he with ⟨ws, rfl, hw⟩ | ⟨ws, rfl, -⟩
  · cases ws with
    | nil => exact absurd hlt (by simp)
    | cons w ws =>
      obtain ⟨rfl, -⟩ := List.cons.inj hw
      rw [total_append, total]
      omega
  · rw [total_append] at hlt
    omega

/-- No address starts both a live and a free tile. -/
theorem Merged.starts_ne (h : Merged ts) (hx : x ∈ starts true a ts) (hy : y ∈ starts false a ts) :
    x ≠ y := by
  obtain ⟨us, t, us', rfl, hl, rfl⟩ := mem_starts.1 hx
  obtain ⟨vs, v, vs', he, hl', rfl⟩ := mem_starts.1 hy
  intro hxy
  rcases List.append_eq_append_iff.1 he with ⟨ws, rfl, hw⟩ | ⟨ws, rfl, hw⟩
  all_goals
    rw [total_append] at hxy
    cases ws with
    | nil =>
      obtain ⟨rfl, -⟩ := List.cons.inj hw
      rw [hl] at hl'
      cases hl'
    | cons w ws =>
      rw [total] at hxy
      have hw' : w = t ∨ w = v := by
        first
          | exact .inl (List.cons.inj hw).1.symm
          | exact .inr (List.cons.inj hw).1.symm
      have hpos : 0 < w.size := by
        rcases hw' with rfl | rfl
        · exact h.pos _ (by simp)
        · apply h.pos
          rw [he]
          simp
      omega

theorem Merged.append_left (h : Merged (ts ++ us)) : Merged ts :=
  ⟨fun t ht => h.pos t (List.mem_append_left _ ht), h.apart.left_of_append⟩

theorem Merged.append_right (h : Merged (ts ++ us)) : Merged us :=
  ⟨fun t ht => h.pos t (List.mem_append_right _ ht), h.apart.right_of_append⟩

theorem Merged.tail {t : Tile} (h : Merged (t :: ts)) : Merged ts :=
  ⟨fun u hu => h.pos u (List.mem_cons_of_mem _ hu), h.apart.tail⟩

theorem starts_lt (h : ∀ t ∈ ts, 0 < t.size) (hx : x ∈ starts live a ts) :
    a ≤ x ∧ x < a + total ts := by
  obtain ⟨us, t, us', rfl, -, rfl⟩ := mem_starts.1 hx
  have := h t (by simp)
  rw [total_append, total]
  omega

theorem starts_pairwise (h : ∀ t ∈ ts, 0 < t.size) : (starts live a ts).Pairwise (· < ·) := by
  induction ts generalizing a with
  | nil => exact .nil
  | cons t ts ih =>
    have ht := h t List.mem_cons_self
    have hts : ∀ t ∈ ts, 0 < t.size := fun u hu => h u (List.mem_cons_of_mem _ hu)
    rw [starts]
    split
    · refine List.pairwise_cons.2 ⟨fun y hy => ?_, ih hts⟩
      have := (starts_lt hts hy).1
      omega
    · exact ih hts

theorem headD_starts_eq (h : ∀ t ∈ ts, 0 < t.size) (hx : x ≠ a) :
    (starts live a ts).headD x = a ↔ ∃ n us, ts = ⟨n, live⟩ :: us := by
  rcases ts with - | ⟨⟨n, b⟩, us⟩
  · simpa [starts] using hx
  by_cases hb : b = live
  · subst hb
    simp [starts_self]
  · have hn := h ⟨n, b⟩ List.mem_cons_self
    change 0 < n at hn
    rw [starts_other hb]
    refine iff_of_false (fun he => ?_) fun ⟨m, vs, he⟩ => ?_
    · rcases hl : starts live (a + n) us with - | ⟨y, l⟩
      · exact hx (by rwa [hl, List.headD_nil] at he)
      · have hy := starts_lt (fun t ht => h t (List.mem_cons_of_mem _ ht))
          (hl ▸ List.mem_cons_self : y ∈ starts live (a + n) us)
        rw [hl, List.headD_cons] at he
        omega
    · exact hb (Tile.mk.inj (List.cons.inj he).1).2

theorem Sized.congr_starts (h : Sized size a ts)
    (he : ∀ live, ∀ x ∈ starts live a ts, size' x = size x) : Sized size' a ts := by
  induction ts generalizing a with
  | nil => trivial
  | cons t ts ih =>
    refine ⟨(he t.live a ?_).trans h.1, ih h.2 fun live x hx => he live x ?_⟩
    · rw [starts, if_pos rfl]
      exact List.mem_cons_self
    · rw [starts]
      split
      · exact List.mem_cons_of_mem _ hx
      · exact hx

theorem Sized.congr (h : Sized size a ts) (hpos : ∀ t ∈ ts, 0 < t.size)
    (he : ∀ x, a ≤ x → x < a + total ts → size' x = size x) : Sized size' a ts :=
  h.congr_starts fun _ _ hx => he _ (starts_lt hpos hx).1 (starts_lt hpos hx).2

theorem merged_middle : Merged (ts ++ t :: us) ↔ Merged ts ∧ Merged us ∧ 0 < t.size ∧
    (∀ u ∈ ts.getLast?, u.live = true ∨ t.live = true) ∧
      ∀ u ∈ us.head?, t.live = true ∨ u.live = true := by
  constructor
  · intro h
    have happ := List.isChain_append.1 h.apart
    exact ⟨h.append_left, h.append_right.tail, h.pos t (by simp),
      fun u hu => happ.2.2 u hu t rfl, (List.isChain_cons.1 happ.2.1).1⟩
  · rintro ⟨h, h', hpos, hl, hr⟩
    refine ⟨fun u hu => ?_, List.isChain_append.2 ⟨h.apart,
      List.isChain_cons.2 ⟨hr, h'.apart⟩, fun u hu v hv => ?_⟩⟩
    · rcases List.mem_append.1 hu with hu | hu
      · exact h.pos u hu
      · rcases List.mem_cons.1 hu with rfl | hu
        · exact hpos
        · exact h'.pos u hu
    · obtain rfl : t = v := Option.some.inj hv
      exact hl u hu

/-- Without live tiles there is at most one tile. -/
theorem Merged.eq_single (h : Merged ts) (hl : starts true a ts = []) :
    ts = [] ∨ ∃ n, ts = [⟨n, false⟩] := by
  have hfree : ∀ t ∈ ts, t.live = false := by
    intro t ht
    obtain ⟨us, us', rfl⟩ := List.append_of_mem ht
    by_contra hlive
    have hmem : a + total us ∈ starts true a (us ++ t :: us') :=
      mem_starts.2 ⟨us, t, us', rfl, (Bool.not_eq_false _).mp hlive, rfl⟩
    rw [hl] at hmem
    cases hmem
  cases ts with
  | nil => exact .inl rfl
  | cons t ts =>
    cases ts with
    | nil => exact .inr ⟨t.size, by rw [← hfree t List.mem_cons_self]⟩
    | cons u us =>
      rcases (List.isChain_cons_cons.1 h.apart).1 with hc | hc
      · rw [hfree t (by simp)] at hc
        cases hc
      · rw [hfree u (by simp)] at hc
        cases hc

theorem length_starts_le (live : Bool) (a : ℕ) (h : ∀ t ∈ ts, 0 < t.size) :
    (starts live a ts).length ≤ total ts := by
  induction ts generalizing a with
  | nil => exact le_rfl
  | cons t ts ih =>
    have ht := h t List.mem_cons_self
    have hts := ih (a + t.size) fun u hu => h u (List.mem_cons_of_mem _ hu)
    rw [starts, total]
    split
    · rw [List.length_cons]
      omega
    · omega

end Tiling
