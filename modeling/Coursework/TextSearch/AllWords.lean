import Coursework.TextSearch.SingleWord

/-! `operate_2`: only the marks of the first two tokens of the query are cleared from line to
line, and an empty token of the query asks for an empty token of the line. -/
namespace TextSearch
open Tokens

theorem foldl_mark {β : Type} (p : β → Bool) (key : β → ℕ) (l : List β) (v : ℕ → ℤ) :
    l.foldl (fun v b => if p b then Function.update v (key b) 1 else v) v =
      fun j => if l.any fun b => p b && key b == j then 1 else v j := by
  induction l generalizing v with
  | nil => simp
  | cons b l ih =>
    rw [List.foldl_cons, ih]
    funext j
    rw [List.any_cons]
    by_cases hrest : (l.any fun b => p b && key b == j) = true
    · rw [if_pos hrest, if_pos (by rw [hrest, Bool.or_true])]
    · rw [if_neg hrest, eq_false_of_ne_true hrest, Bool.or_false]
      by_cases hp : p b = true
      · rw [if_pos hp, hp, Bool.true_and]
        by_cases hj : key b = j
        · rw [hj, Function.update_self, if_pos (beq_self_eq_true j)]
        · rw [Function.update_of_ne (Ne.symm hj), if_neg (by simpa using hj)]
      · rw [if_neg hp, eq_false_of_ne_true hp, Bool.false_and, if_neg Bool.false_ne_true]

theorem foldl_or {β : Type} (g : β → ℕ → Bool) (l : List β) (v : ℕ → ℤ) :
    l.foldl (fun v b => fun j => if g b j then 1 else v j) v =
      fun j => if l.any fun b => g b j then 1 else v j := by
  induction l generalizing v with
  | nil => simp
  | cons b l ih =>
    rw [List.foldl_cons, ih]
    funext j
    rw [List.any_cons]
    by_cases hrest : (l.any fun b => g b j) = true
    · rw [if_pos hrest, if_pos (by rw [hrest, Bool.or_true])]
    · rw [if_neg hrest, eq_false_of_ne_true hrest, Bool.or_false]

theorem foldlM_eq_some {σ β : Type} {step : σ → β → Option σ} {ok : β → Prop} {f : σ → β → σ}
    (hstep : ∀ s b r, step s b = some r ↔ ok b ∧ r = f s b) (l : List β) {s r : σ} :
    l.foldlM step s = some r ↔ (∀ b ∈ l, ok b) ∧ r = l.foldl f s := by
  induction l generalizing s with
  | nil =>
    rw [List.foldlM_nil, List.foldl_nil]
    exact ⟨fun h => ⟨fun _ hb => absurd hb List.not_mem_nil, (Option.some.inj h).symm⟩,
      fun h => congrArg some h.2.symm⟩
  | cons b l ih =>
    rw [List.foldlM_cons, List.foldl_cons, List.forall_mem_cons, Option.bind_eq_bind,
      Option.bind_eq_some_iff]
    constructor
    · rintro ⟨s', hs', hrest⟩
      obtain ⟨hb, rfl⟩ := (hstep s b s').1 hs'
      obtain ⟨hl, hr⟩ := ih.1 hrest
      exact ⟨⟨hb, hl⟩, hr⟩
    · rintro ⟨⟨hb, hl⟩, hr⟩
      exact ⟨f s b, (hstep s b _).2 ⟨hb, rfl⟩, ih.2 ⟨hl, hr⟩⟩

/-- The marks are set if all of them are in the block. -/
theorem markVisited_eq_some {room : ℕ} {m : Mem} {texts queries : List Ptr} {v v' : ℕ → ℤ} :
    markVisited room m texts queries v = some v' ↔
      (∀ t ∈ texts, ∀ u ∈ queries.zipIdx, m.same t u.1 = true → u.2 < room) ∧
      v' = fun j => if texts.any fun t => queries.zipIdx.any fun u => m.same t u.1 && u.2 == j
        then 1 else v j := by
  have hset : ∀ (t : Ptr) (v : ℕ → ℤ) (u : Ptr × ℕ) (r : ℕ → ℤ),
      (if m.same t u.1 then setVisited room v u.2 else some v) = some r ↔
        (m.same t u.1 = true → u.2 < room) ∧
          r = if m.same t u.1 then Function.update v u.2 1 else v := by
    intro t v u r
    unfold setVisited
    by_cases hsame : m.same t u.1 = true
    · rw [if_pos hsame, if_pos hsame]
      by_cases hroom : u.2 < room
      · rw [if_pos hroom, Option.some.injEq]
        exact ⟨fun h => ⟨fun _ => hroom, h.symm⟩, fun h => h.2.symm⟩
      · rw [if_neg hroom]
        exact iff_of_false (fun h => by cases h) fun h => hroom (h.1 hsame)
    · rw [if_neg hsame, if_neg hsame, Option.some.injEq]
      exact ⟨fun h => ⟨fun e => absurd e hsame, h.symm⟩, fun h => h.2.symm⟩
  have hinner : ∀ (v : ℕ → ℤ) (t : Ptr) (r : ℕ → ℤ),
      (queries.zipIdx.foldlM (fun v (u : Ptr × ℕ) =>
        if m.same t u.1 then setVisited room v u.2 else some v) v) = some r ↔
        (∀ u ∈ queries.zipIdx, m.same t u.1 = true → u.2 < room) ∧
          r = fun j => if queries.zipIdx.any fun u => m.same t u.1 && u.2 == j then 1 else v j := by
    intro v t r
    rw [foldlM_eq_some (fun v u r => hset t v u r),
      foldl_mark (fun u : Ptr × ℕ => m.same t u.1) Prod.snd]
  unfold markVisited
  rw [← foldl_or fun t j => queries.zipIdx.any fun u => m.same t u.1 && u.2 == j]
  exact foldlM_eq_some hinner texts

/-- The loop over the marks ends in the block if the marks do, or one of them in it is 0. -/
theorem isMatched_eq_some {room : ℕ} {v : ℕ → ℤ} {a n : ℕ} {b : Bool} :
    isMatched room v (List.range' a n) = some b ↔
      (n = 0 ∨ a + n ≤ room ∨ ∃ j, a ≤ j ∧ j < room ∧ v j = 0) ∧
        b = (List.range' a n).all fun j => v j ≠ 0 := by
  induction n generalizing a with
  | zero =>
    rw [List.range'_zero, isMatched, List.all_nil, Option.some.injEq, and_iff_right (.inl rfl)]
    exact eq_comm
  | succ n ih =>
    rw [List.range'_succ, isMatched, List.all_cons]
    by_cases hroom : a < room
    · rw [if_pos hroom]
      by_cases hv : v a = 0
      · rw [if_pos hv, Option.some.injEq,
          and_iff_right (.inr (.inr ⟨a, le_rfl, hroom, hv⟩))]
        simp [hv, eq_comm]
      · have hdec : decide (v a ≠ 0) = true := decide_eq_true hv
        rw [if_neg hv, ih, hdec, Bool.true_and]
        refine and_congr_left fun _ => ?_
        constructor
        · rintro (rfl | hn | ⟨j, hj, h⟩)
          · exact .inr (.inl hroom)
          · exact .inr (.inl (by omega))
          · exact .inr (.inr ⟨j, by omega, h⟩)
        · rintro (h | hn | ⟨j, hj, hlt, hj0⟩)
          · cases h
          · exact .inr (.inl (by omega))
          · have hne : j ≠ a := fun e => hv (e ▸ hj0)
            exact .inr (.inr ⟨j, by omega, hlt, hj0⟩)
    · rw [if_neg hroom]
      refine iff_of_false (fun h => by cases h) ?_
      rintro ⟨h | hn | ⟨j, hj, hlt, -⟩, -⟩
      · cases h
      · omega
      · omega

/-- Token `j` of the query is a token of the line. -/
def seen (q line : List ℕ) (j : ℕ) : Bool :=
  ((tokens isBlank q)[j]?).any fun u => (tokens isBlank line).any fun t => decide (Same t.2 u.2)

theorem seen_iff {q line : List ℕ} {j : ℕ} : seen q line j = true ↔
    ∃ u, (tokens isBlank q)[j]? = some u ∧ ∃ t ∈ tokens isBlank line, Same t.2 u.2 := by
  unfold seen
  rw [Option.any_eq_true]
  refine exists_congr fun u => and_congr_right fun _ => ?_
  rw [List.any_eq_true]
  exact exists_congr fun t => and_congr_right fun _ => decide_eq_true_iff

/-- The marks after a line. -/
def marks (q : List ℕ) (v : ℕ → ℤ) (line : List ℕ) : ℕ → ℤ :=
  fun j => if seen q line j then 1 else if j < 2 then 0 else v j

theorem marks_ne_zero {q : List ℕ} {v : ℕ → ℤ} {line : List ℕ} {j : ℕ} :
    marks q v line j ≠ 0 ↔ seen q line j = true ∨ 2 ≤ j ∧ v j ≠ 0 := by
  unfold marks
  by_cases hs : seen q line j = true
  · simp [hs]
  · by_cases hj : j < 2
    · have hle : ¬ 2 ≤ j := by omega
      simp [hs, hj, hle]
    · have hle : 2 ≤ j := by omega
      simp [hs, hj, hle]

/-- What `operate_2` does with a line. -/
def lineMarks (q : List ℕ) (v : ℕ → ℤ) (row : ℕ) (line : List ℕ) : (ℕ → ℤ) × List ℕ :=
  (marks q v line,
    if (List.range (tokens isBlank q).length).all fun j => marks q v line j ≠ 0 then [row] else [])

/-- The loops touch only marks that are in the block, and the line has no more tokens than its list
has room for. `left` are the marks that are left over when the line is read. -/
structure Room (A : Allocator) (q : List ℕ) (left : ℕ → Prop) (line : List ℕ) : Prop where
  cleared : 2 ≤ A.ints (tokens isBlank q).length
  listed : (tokens isBlank line).length ≤ A.pointers maxByte
  marked : ∀ j, seen q line j = true → j < A.ints (tokens isBlank q).length
  stopped : (tokens isBlank q).length ≤ A.ints (tokens isBlank q).length ∨
    ∃ j < A.ints (tokens isBlank q).length, ¬ (seen q line j = true ∨ left j)

theorem Room.of_le {A : Allocator} {q line : List ℕ} {left : ℕ → Prop}
    (hclear : 2 ≤ A.ints (tokens isBlank q).length)
    (hq : (tokens isBlank q).length ≤ A.ints (tokens isBlank q).length)
    (hline : (tokens isBlank line).length ≤ A.pointers maxByte) : Room A q left line := by
  refine ⟨hclear, hline, fun j hj => ?_, .inl hq⟩
  obtain ⟨u, hu, -⟩ := seen_iff.1 hj
  exact lt_of_lt_of_le (List.getElem?_eq_some_iff.1 hu).1 hq

/-- Where the pointers of a line and a query point at their tokens, the comparisons say which
tokens of the query are seen. -/
theorem any_same_eq_seen {m : Mem} {q line : List ℕ}
    (hsame : ∀ t ∈ tokens isBlank line, ∀ u ∈ tokens isBlank q,
      m.same ⟨.textLine, t.1⟩ ⟨.query, u.1⟩ = decide (Same t.2 u.2)) (j : ℕ) :
    (((tokens isBlank line).map fun t => (⟨.textLine, t.1⟩ : Ptr)).any fun t =>
      ((tokens isBlank q).map fun u => (⟨.query, u.1⟩ : Ptr)).zipIdx.any fun u =>
        m.same t u.1 && u.2 == j) = seen q line j := by
  rw [Bool.eq_iff_iff, seen_iff, List.any_map, List.any_eq_true]
  constructor
  · rintro ⟨t, ht, h⟩
    obtain ⟨⟨p, i⟩, hmem, hp⟩ := List.any_eq_true.1 h
    obtain ⟨hp, hi⟩ := Bool.and_eq_true_iff.1 hp
    have hij : i = j := eq_of_beq hi
    rw [List.mem_zipIdx_iff_getElem?, List.getElem?_map, Option.map_eq_some_iff] at hmem
    obtain ⟨u, hu, rfl⟩ := hmem
    rw [hij] at hu
    refine ⟨u, hu, t, ht, ?_⟩
    exact of_decide_eq_true ((hsame t ht u (List.mem_of_getElem? hu)).symm.trans hp)
  · rintro ⟨u, hu, t, ht, h⟩
    refine ⟨t, ht, List.any_eq_true.2 ⟨(⟨.query, u.1⟩, j), ?_, ?_⟩⟩
    · rw [List.mem_zipIdx_iff_getElem?, List.getElem?_map, hu]
      rfl
    · rw [Bool.and_eq_true_iff]
      refine ⟨?_, beq_self_eq_true j⟩
      exact (hsame t ht u (List.mem_of_getElem? hu)).trans (decide_eq_true h)

theorem clearVisited_eq_some {room : ℕ} {v v' : ℕ → ℤ} : clearVisited room v = some v' ↔
    2 ≤ room ∧ v' = fun j => if j < 2 then 0 else v j := by
  unfold clearVisited
  by_cases h : 2 ≤ room
  · rw [if_pos h, Option.some.injEq, and_iff_right h]
    exact eq_comm
  · rw [if_neg h]
    exact iff_of_false (fun h' => by cases h') fun h' => h h'.1

theorem operate2Body_eq {m : Mem} {q line junk junk' : List ℕ} (A : Allocator) (v : ℕ → ℤ)
    (row : ℕ) (hne : line ≠ []) (h0 : 0 ∉ line) (hq : 0 ∉ q)
    (hquery : m.bytes .query = mask blanks q ++ 0 :: junk')
    (hbytes : m.bytes .textLine = line ++ 0 :: junk) :
    ∃ m', m'.bytes .query = mask blanks q ++ 0 :: junk' ∧ ∀ x,
      operate2Body A ((tokens isBlank q).map fun u => ⟨.query, u.1⟩) v m row = some x ↔
        Room A q (fun j => 2 ≤ j ∧ v j ≠ 0) line ∧
        x = ((lineMarks q v row line).1, m', (lineMarks q v row line).2) := by
  obtain ⟨m', hcall, hquery', hsame⟩ :=
    tokenList_line (A.pointers maxByte) hne h0 hbytes hq hquery
  refine ⟨m', hquery', fun x => ?_⟩
  have hseen := any_same_eq_seen hsame
  have hmarked : (∀ t ∈ (tokens isBlank line).map fun t => (⟨.textLine, t.1⟩ : Ptr),
      ∀ u ∈ ((tokens isBlank q).map fun u => (⟨.query, u.1⟩ : Ptr)).zipIdx,
        m'.same t u.1 = true → u.2 < A.ints (tokens isBlank q).length) ↔
      ∀ j, seen q line j = true → j < A.ints (tokens isBlank q).length := by
    constructor
    · intro h j hj
      rw [← hseen j] at hj
      obtain ⟨t, ht, hany⟩ := List.any_eq_true.1 hj
      obtain ⟨u, hu, hboth⟩ := List.any_eq_true.1 hany
      obtain ⟨hp, hi⟩ := Bool.and_eq_true_iff.1 hboth
      exact eq_of_beq hi ▸ h t ht u hu hp
    · intro h t ht u hu hp
      refine h u.2 ?_
      rw [← hseen u.2]
      refine List.any_eq_true.2 ⟨t, ht, List.any_eq_true.2 ⟨u, hu, ?_⟩⟩
      rw [hp, beq_self_eq_true, Bool.and_true]
  have hstopped : ∀ n room : ℕ, (n = 0 ∨ 0 + n ≤ room ∨
      ∃ j, 0 ≤ j ∧ j < room ∧ marks q v line j = 0) ↔
        n ≤ room ∨ ∃ j < room, ¬ (seen q line j = true ∨ 2 ≤ j ∧ v j ≠ 0) := by
    intro n room
    simp only [← marks_ne_zero, not_not, Nat.zero_add, Nat.zero_le, true_and]
    exact ⟨fun h => h.elim (fun h => .inl (by omega)) id, .inr⟩
  unfold operate2Body
  rw [hcall, List.range_eq_range', List.length_map]
  simp only [Option.bind_eq_bind, Option.bind_eq_some_iff, clearVisited_eq_some,
    Option.ite_none_right_eq_some]
  constructor
  · rintro ⟨v₁, ⟨hclear, rfl⟩, ⟨m₁, texts⟩, ⟨hlisted, htexts⟩, v₂, hv₂, matched, hmatched, hx⟩
    cases htexts
    obtain ⟨hhits, rfl⟩ := markVisited_eq_some.1 hv₂
    simp only [hseen] at hmatched
    obtain ⟨hstop, rfl⟩ := isMatched_eq_some.1 hmatched
    refine ⟨⟨hclear, hlisted, hmarked.1 hhits, (hstopped _ _).1 hstop⟩, ?_⟩
    simp only [hseen] at hx
    rw [← Option.some.inj hx, lineMarks, List.range_eq_range']
    rfl
  · rintro ⟨hroom, rfl⟩
    refine ⟨_, ⟨hroom.cleared, rfl⟩, _, ⟨hroom.listed, rfl⟩, marks q v line, ?_, _, ?_, rfl⟩
    · refine markVisited_eq_some.2 ⟨hmarked.2 hroom.marked, ?_⟩
      simp only [hseen]
      rfl
    · rw [List.range_eq_range']
      exact isMatched_eq_some.2 ⟨(hstopped _ _).2 hroom.stopped, rfl⟩

/-- Token `j` of the query is marked when line `k` is read: the mark is not cleared, and an earlier
line has set it or the memory held something there. -/
def LeftOver (q : List ℕ) (v : ℕ → ℤ) (lines : List (List ℕ)) (k j : ℕ) : Prop :=
  2 ≤ j ∧ (v j ≠ 0 ∨
    ∃ k' < k, ∃ line, lines[k']? = some line ∧ line.headD 0 ≠ 10 ∧ seen q line j = true)

theorem leftOver_succ {q : List ℕ} {v : ℕ → ℤ} {line : List ℕ} {rest : List (List ℕ)} {k j : ℕ}
    (hline : line.headD 0 ≠ 10) :
    LeftOver q v (line :: rest) (k + 1) j ↔ LeftOver q (marks q v line) rest k j := by
  unfold LeftOver
  refine and_congr_right fun hj => ?_
  rw [marks_ne_zero]
  constructor
  · rintro (hv | ⟨k', hk', line', hget, hne, hs⟩)
    · exact .inl (.inr ⟨hj, hv⟩)
    · cases k' with
      | zero =>
        cases hget
        exact .inl (.inl hs)
      | succ k' => exact .inr ⟨k', Nat.lt_of_succ_lt_succ hk', line', hget, hne, hs⟩
  · rintro ((hs | ⟨-, hv⟩) | ⟨k', hk', line', hget, hne, hs⟩)
    · exact .inr ⟨0, Nat.succ_pos k, line, rfl, hline, hs⟩
    · exact .inl hv
    · exact .inr ⟨k' + 1, Nat.succ_lt_succ hk', line', hget, hne, hs⟩

theorem leftOver_blank {q : List ℕ} {v : ℕ → ℤ} {line : List ℕ} {rest : List (List ℕ)} {k j : ℕ}
    (hline : line.headD 0 = 10) :
    LeftOver q v (line :: rest) (k + 1) j ↔ LeftOver q v rest k j := by
  unfold LeftOver
  refine and_congr_right fun _ => or_congr_right ?_
  constructor
  · rintro ⟨k', hk', line', hget, hne, hs⟩
    cases k' with
    | zero =>
      cases hget
      exact absurd hline hne
    | succ k' => exact ⟨k', Nat.lt_of_succ_lt_succ hk', line', hget, hne, hs⟩
  · rintro ⟨k', hk', line', hget, hne, hs⟩
    exact ⟨k' + 1, Nat.succ_lt_succ hk', line', hget, hne, hs⟩

/-- Every token of the query is in the line or has a mark left over. -/
def AllMarked (q : List ℕ) (v : ℕ → ℤ) (lines : List (List ℕ)) (k : ℕ) (line : List ℕ) : Prop :=
  ∀ j < (tokens isBlank q).length, seen q line j = true ∨ LeftOver q v lines k j

/-- A line is reported if all tokens are marked. -/
theorem mem_runLines {q : List ℕ} {v : ℕ → ℤ} {row r : ℕ} {lines : List (List ℕ)} :
    r ∈ runLines (lineMarks q) v row lines ↔ ∃ k line, r = row + k + 1 ∧
      lines[k]? = some line ∧ line.headD 0 ≠ 10 ∧ AllMarked q v lines k line := by
  induction lines generalizing v row with
  | nil => simp [runLines]
  | cons line rest ih =>
    have hsucc : ∀ k, row + 1 + k + 1 = row + (k + 1) + 1 := fun k => by omega
    rw [runLines]
    by_cases hline : line.headD 0 = 10
    · rw [if_pos hline, ih]
      constructor
      · rintro ⟨k, line', hr, hget, hne, hall⟩
        refine ⟨k + 1, line', hr.trans (hsucc k), hget, hne, fun j hj => ?_⟩
        exact (hall j hj).imp_right (leftOver_blank hline).2
      · rintro ⟨k, line', hr, hget, hne, hall⟩
        cases k with
        | zero =>
          cases hget
          exact absurd hline hne
        | succ k =>
          refine ⟨k, line', hr.trans (hsucc k).symm, hget, hne, fun j hj => ?_⟩
          exact (hall j hj).imp_right (leftOver_blank hline).1
    · have hhere : r ∈ (lineMarks q v (row + 1) line).2 ↔
          r = row + 1 ∧ AllMarked q v (line :: rest) 0 line := by
        have hall : ((List.range (tokens isBlank q).length).all fun j => marks q v line j ≠ 0) =
            true ↔ AllMarked q v (line :: rest) 0 line := by
          rw [List.all_eq_true]
          refine forall_congr' fun j => ?_
          rw [List.mem_range, decide_eq_true_iff, marks_ne_zero]
          refine imp_congr_right fun _ => or_congr_right ?_
          simp [LeftOver]
        unfold lineMarks
        dsimp only
        rw [← hall]
        by_cases hmarked :
            ((List.range (tokens isBlank q).length).all fun j => marks q v line j ≠ 0) = true
        · rw [if_pos hmarked, List.mem_singleton, and_iff_left hmarked]
        · rw [if_neg hmarked]
          exact iff_of_false List.not_mem_nil fun h => hmarked h.2
      rw [if_neg hline, List.mem_append, hhere, ih]
      constructor
      · rintro (⟨hr, hall⟩ | ⟨k, line', hr, hget, hne, hall⟩)
        · exact ⟨0, line, hr, rfl, hline, hall⟩
        · refine ⟨k + 1, line', hr.trans (hsucc k), hget, hne, fun j hj => ?_⟩
          exact (hall j hj).imp_right (leftOver_succ hline).2
      · rintro ⟨k, line', hr, hget, hne, hall⟩
        cases k with
        | zero =>
          cases hget
          exact .inl ⟨hr, hall⟩
        | succ k =>
          refine .inr ⟨k, line', hr.trans (hsucc k).symm, hget, hne, fun j hj => ?_⟩
          exact (hall j hj).imp_right (leftOver_succ hline).1

theorem pairwise_runLines (q : List ℕ) (v : ℕ → ℤ) (row : ℕ) (lines : List (List ℕ)) :
    (runLines (lineMarks q) v row lines).Pairwise (· < ·) := by
  induction lines generalizing v row with
  | nil => exact List.Pairwise.nil
  | cons line rest ih =>
    rw [runLines]
    by_cases hline : line.headD 0 = 10
    · rw [if_pos hline]
      exact ih v (row + 1)
    · rw [if_neg hline, List.pairwise_append]
      have hhere : ∀ r ∈ (lineMarks q v (row + 1) line).2, r = row + 1 := by
        intro r hr
        unfold lineMarks at hr
        split at hr
        · exact List.mem_singleton.1 hr
        · cases hr
      refine ⟨?_, ih _ _, fun r hr r' hr' => ?_⟩
      · unfold lineMarks
        split
        · exact List.pairwise_singleton _ _
        · exact List.Pairwise.nil
      · obtain ⟨k, line', hrow, -⟩ := mem_runLines.1 hr'
        rw [hhere r hr, hrow]
        omega

theorem length_runLines_le (q : List ℕ) (v : ℕ → ℤ) (row : ℕ) (lines : List (List ℕ)) :
    (runLines (lineMarks q) v row lines).length ≤ lines.length := by
  induction lines generalizing v row with
  | nil => exact Nat.le_refl 0
  | cons line rest ih =>
    rw [runLines, List.length_cons]
    by_cases hline : line.headD 0 = 10
    · rw [if_pos hline]
      exact Nat.le_succ_of_le (ih v (row + 1))
    · have hhere : (lineMarks q v (row + 1) line).2.length ≤ 1 := by
        unfold lineMarks
        split
        · exact Nat.le_refl 1
        · exact Nat.zero_le 1
      have hrest := ih (lineMarks q v (row + 1) line).1 (row + 1)
      rw [if_neg hline, List.length_append]
      omega

/-- When line `k` comes, what is left over is what earlier lines and the memory left. -/
theorem served_lineMarks {A : Allocator} {q : List ℕ} {v : ℕ → ℤ} {row : ℕ}
    {lines : List (List ℕ)} :
    Served (lineMarks q) (fun v line => Room A q (fun j => 2 ≤ j ∧ v j ≠ 0) line) v row lines ↔
      ∀ k line, lines[k]? = some line → line.headD 0 ≠ 10 →
        Room A q (LeftOver q v lines k) line := by
  induction lines generalizing v row with
  | nil => exact ⟨fun _ k line h => (by cases h), fun _ => trivial⟩
  | cons line rest ih =>
    rw [Served]
    by_cases hline : line.headD 0 = 10
    · rw [if_pos hline, ih]
      have hleft : ∀ k, LeftOver q v (line :: rest) (k + 1) = LeftOver q v rest k := fun k =>
        funext fun j => propext (leftOver_blank hline)
      constructor
      · intro h k line' hk hne
        cases k with
        | zero =>
          cases hk
          exact absurd hline hne
        | succ k => exact hleft k ▸ h k line' hk hne
      · exact fun h k line' hk hne => hleft k ▸ h (k + 1) line' hk hne
    · rw [if_neg hline, ih]
      have hhere : LeftOver q v (line :: rest) 0 = fun j => 2 ≤ j ∧ v j ≠ 0 :=
        funext fun j => propext (by simp [LeftOver])
      have hleft : ∀ k, LeftOver q v (line :: rest) (k + 1) = LeftOver q (marks q v line) rest k :=
        fun k => funext fun j => propext (leftOver_succ hline)
      constructor
      · rintro ⟨hroom, h⟩ k line' hk hne
        cases k with
        | zero =>
          cases hk
          exact hhere ▸ hroom
        | succ k => exact hleft k ▸ h k line' hk hne
      · intro h
        exact ⟨hhere ▸ h 0 line rfl hline,
          fun k line' hk hne => hleft k ▸ h (k + 1) line' hk hne⟩

theorem operate2_eq_some (A : Allocator) (t q : Text) (m : Mem) (v : ℕ → ℤ) (hq : q.bytes ≠ [])
    (out : List ℕ) : operate2 A v t.bytes (m.load q.bytes) = some out ↔
      ((tokens isBlank q.bytes).length ≤ A.pointers maxByte ∧
        (rawLines t.bytes).length < 2 ^ 31 ∧
        ∀ k line, (rawLines t.bytes)[k]? = some line → line.headD 0 ≠ 10 →
          Room A q.bytes (LeftOver q.bytes v (rawLines t.bytes) k) line) ∧
      out = runLines (lineMarks q.bytes) v 0 (rawLines t.bytes) := by
  have hload : (m.load q.bytes).bytes .query = q.bytes ++ 0 :: [] := Mem.setBytes_self _ _ _
  obtain ⟨m', hcall, hquery, -⟩ :=
    tokenList_eq (A.pointers maxByte) null_notMem_blanks hq q.no_null hload
  unfold operate2 queryStart
  rw [hcall, Option.bind_eq_bind]
  by_cases hroom : (tokens isBlank q.bytes).length ≤ A.pointers maxByte
  · have hloop := @lineLoop_eq_some _ _
      (operate2Body A ((tokens isBlank q.bytes).map fun u => ⟨.query, u.1⟩)) (lineMarks q.bytes)
      (fun v line => Room A q.bytes (fun j => 2 ≤ j ∧ v j ≠ 0) line)
      (fun m => m.bytes .query = mask blanks q.bytes ++ 0 :: [])
      (fun m l hm => by rw [Mem.setBytes_of_ne m l (by decide), hm])
      (fun v m row line junk hne h0 hm hbytes =>
        operate2Body_eq A v row hne h0 q.no_null hm hbytes)
      _ _ m' v 0 0 out (Nat.lt_succ_self t.bytes.length) t.no_null hquery (by decide) (by decide)
    have hlen := length_runLines_le q.bytes v 0 (rawLines t.bytes)
    rw [if_pos hroom, Option.bind_some, and_iff_right hroom, ← served_lineMarks]
    refine hloop.trans ?_
    rw [Nat.zero_add, Nat.zero_add]
    constructor
    · rintro ⟨hrows, hserved, -, hout⟩
      exact ⟨⟨hrows, hserved⟩, hout⟩
    · rintro ⟨⟨hrows, hserved⟩, hout⟩
      exact ⟨hrows, hserved, lt_of_le_of_lt hlen hrows, hout⟩
  · rw [if_neg hroom, Option.bind_none]
    exact iff_of_false (fun h => by cases h) fun h => hroom h.1.1

/-- Every word of the query is one of the words. -/
def AllWords (q : List ℕ) (ws : List (ℕ × List ℕ)) : Prop :=
  ∀ u ∈ words isBlank q, ∃ t ∈ ws, Same t.2 u.2

theorem allWords_iff {q line : List ℕ} : AllWords q (words isBlank line) ↔
    ∀ i w, WordAt isBlank q i w → ∃ c w', WordAt isBlank line c w' ∧ Same w' w := by
  constructor
  · intro h i w hw
    obtain ⟨⟨c, w'⟩, ht, hsame⟩ := h (i, w) (mem_words.2 hw)
    exact ⟨c, w', mem_words.1 ht, hsame⟩
  · rintro h ⟨i, w⟩ hu
    obtain ⟨c, w', ht, hsame⟩ := h i w (mem_words.1 hu)
    exact ⟨(c, w'), mem_words.2 ht, hsame⟩

theorem seen_word {q line : List ℕ} {j : ℕ} {u : ℕ × List ℕ}
    (hu : (tokens isBlank q)[j]? = some u) (hne : u.2 ≠ []) :
    seen q line j = true ↔ ∃ t ∈ words isBlank line, Same t.2 u.2 := by
  rw [seen_iff]
  constructor
  · rintro ⟨u', hu', t, ht, hsame⟩
    rw [hu] at hu'
    cases hu'
    refine ⟨t, List.mem_filter.2 ⟨ht, ?_⟩, hsame⟩
    have ht' : t.2 ≠ [] := fun e => hne (hsame.nil_iff.1 e)
    simpa using ht'
  · rintro ⟨t, ht, hsame⟩
    exact ⟨u, hu, t, (List.mem_filter.1 ht).1, hsame⟩

/-- Word `j` of the query is not in line `k` but has a mark left over, and no other token of the
query keeps the line from being reported. -/
structure Stale (q : List ℕ) (v : ℕ → ℤ) (lines : List (List ℕ)) (k : ℕ) (line : List ℕ) (j : ℕ) :
    Prop where
  word : ∃ u, (tokens isBlank q)[j]? = some u ∧ u.2 ≠ []
  missing : seen q line j = false
  leftOver : LeftOver q v lines k j
  others : ∀ i < (tokens isBlank q).length, i ≠ j → seen q line i = true ∨ LeftOver q v lines k i

/-- All words of the query are in line `k`, but token `j` of the query is empty, and neither has
the line an empty token nor is a mark left over. -/
structure Unmet (q : List ℕ) (v : ℕ → ℤ) (lines : List (List ℕ)) (k : ℕ) (line : List ℕ) (j : ℕ) :
    Prop where
  empty : ∃ u, (tokens isBlank q)[j]? = some u ∧ u.2 = []
  missing : seen q line j = false
  cleared : ¬ LeftOver q v lines k j
  words : AllWords q (words isBlank line)

theorem allMarked_iff {q : List ℕ} {v : ℕ → ℤ} {lines : List (List ℕ)} {k : ℕ} {line : List ℕ} :
    (AllMarked q v lines k line ↔ AllWords q (words isBlank line)) ↔
      ∀ j, ¬ Stale q v lines k line j ∧ ¬ Unmet q v lines k line j := by
  constructor
  · refine fun h j => ⟨fun hst => ?_, fun hun => ?_⟩
    · obtain ⟨u, hu, hne⟩ := hst.word
      have hall : AllMarked q v lines k line := by
        intro i hi
        by_cases hij : i = j
        · exact .inr (hij ▸ hst.leftOver)
        · exact hst.others i hi hij
      have hmem : u ∈ words isBlank q :=
        List.mem_filter.2 ⟨List.mem_of_getElem? hu, by simpa using hne⟩
      have hseen := (seen_word hu hne).2 (h.1 hall u hmem)
      rw [hst.missing] at hseen
      cases hseen
    · obtain ⟨u, hu, -⟩ := hun.empty
      have hlt : j < (tokens isBlank q).length := (List.getElem?_eq_some_iff.1 hu).1
      obtain hseen | hleft := h.2 hun.words j hlt
      · rw [hun.missing] at hseen
        cases hseen
      · exact hun.cleared hleft
  · intro h
    constructor
    · intro hall u hu
      obtain ⟨hmem, hne⟩ := List.mem_filter.1 hu
      obtain ⟨j, hj⟩ := List.mem_iff_getElem?.1 hmem
      have hne' : u.2 ≠ [] := by simpa using hne
      have hlt : j < (tokens isBlank q).length := (List.getElem?_eq_some_iff.1 hj).1
      rw [← seen_word hj hne']
      by_contra hmiss
      exact (h j).1 ⟨⟨u, hj, hne'⟩, eq_false_of_ne_true hmiss,
        (hall j hlt).resolve_left hmiss, fun i hi _ => hall i hi⟩
    · intro hwords j hlt
      have hj : (tokens isBlank q)[j]? = some (tokens isBlank q)[j] := List.getElem?_eq_getElem hlt
      by_cases hne : (tokens isBlank q)[j].2 = []
      · by_contra hmark
        obtain ⟨hmiss, hleft⟩ := not_or.1 hmark
        exact (h j).2 ⟨⟨_, hj, hne⟩, eq_false_of_ne_true hmiss, hleft, hwords⟩
      · refine .inl ((seen_word hj hne).2 (hwords _ (List.mem_filter.2 ⟨?_, ?_⟩)))
        · exact List.getElem_mem hlt
        · simpa using hne

/-- All words of the query are in row `r` of the text. -/
def HoldsAll (t q : Text) (r : ℕ) : Prop :=
  ∃ k line, r = k + 1 ∧ t.lines[k]? = some line ∧
    ∀ i w, WordAt isBlank q.bytes i w → ∃ c w', WordAt isBlank line c w' ∧ Same w' w

/-- `operate_2` reports the lines that hold all words of the query if and only if the lines can be
counted, tokens and marks fit the blocks for them, and no line is reached with a stale mark that
decides, or lacks only the empty tokens of the query. -/
theorem operate2_reports_iff (A : Allocator) (t q : Text) (m : Mem) (v : ℕ → ℤ)
    (hq : words isBlank q.bytes ≠ []) :
    (∃ out, operate2 A v t.bytes (m.load q.bytes) = some out ∧
      ReportsRows out (HoldsAll t q)) ↔
      (rawLines t.bytes).length < 2 ^ 31 ∧
        (tokens isBlank q.bytes).length ≤ A.pointers maxByte ∧
        ∀ k line, (rawLines t.bytes)[k]? = some line → line.headD 0 ≠ 10 →
          Room A q.bytes (LeftOver q.bytes v (rawLines t.bytes) k) line ∧
            ∀ j, ¬ Stale q.bytes v (rawLines t.bytes) k line j ∧
              ¬ Unmet q.bytes v (rawLines t.bytes) k line j := by
  have hbytes : q.bytes ≠ [] := by
    intro e
    rw [e] at hq
    exact hq rfl
  have hnone : ¬ AllWords q.bytes [] := by
    intro h
    obtain ⟨u, hu⟩ := List.exists_mem_of_ne_nil _ hq
    obtain ⟨t, ht, -⟩ := h u hu
    cases ht
  have hspec : ∀ k : ℕ, (∃ line, t.lines[k]? = some line ∧ ∀ i w, WordAt isBlank q.bytes i w →
      ∃ c w', WordAt isBlank line c w' ∧ Same w' w) ↔
        ∃ raw, (rawLines t.bytes)[k]? = some raw ∧ AllWords q.bytes (words isBlank raw) := by
    intro k
    rw [← exists_line_iff (by decide) hnone]
    exact exists_congr fun line => and_congr_right fun _ => allWords_iff.symm
  have hiff : (∀ r, r ∈ runLines (lineMarks q.bytes) v 0 (rawLines t.bytes) ↔ HoldsAll t q r) ↔
      ∀ k raw, (rawLines t.bytes)[k]? = some raw →
        (raw.headD 0 ≠ 10 ∧ AllMarked q.bytes v (rawLines t.bytes) k raw ↔
          AllWords q.bytes (words isBlank raw)) := by
    rw [← rows_iff]
    refine forall_congr' fun r => iff_congr ?_ (exists_congr fun k => ?_)
    · rw [mem_runLines]
      simp only [Nat.zero_add]
    · rw [exists_and_left, exists_and_left]
      exact and_congr_right fun _ => hspec k
  constructor
  · rintro ⟨out, hout, -, hmem⟩
    obtain ⟨⟨htokens, hrows, hroom⟩, rfl⟩ := (operate2_eq_some A t q m v hbytes out).1 hout
    refine ⟨hrows, htokens, fun k line hk hne => ⟨hroom k line hk hne, ?_⟩⟩
    have hline := hiff.1 hmem k line hk
    exact allMarked_iff.1 ⟨fun hall => hline.1 ⟨hne, hall⟩, fun hwords => (hline.2 hwords).2⟩
  · rintro ⟨hrows, htokens, h⟩
    refine ⟨_, (operate2_eq_some A t q m v hbytes _).2
      ⟨⟨htokens, hrows, fun k line hk hne => (h k line hk hne).1⟩, rfl⟩,
      pairwise_runLines _ _ _ _, hiff.2 fun k raw hk => ?_⟩
    constructor
    · rintro ⟨hne, hall⟩
      exact (allMarked_iff.2 (h k raw hk hne).2).1 hall
    · intro hwords
      have hne : raw.headD 0 ≠ 10 := by
        intro hhead
        rw [words_of_blank (by decide) (List.mem_of_getElem? hk) hhead] at hwords
        exact hnone hwords
      exact ⟨hne, (allMarked_iff.2 (h k raw hk hne).2).2 hwords⟩

/-- With these blocks a query of at most six tokens touches no other place, whatever the lines
before. -/
theorem room_gnuMalloc {q line : List ℕ} {left : ℕ → Prop} (hq : (tokens isBlank q).length ≤ 6)
    (hline : (tokens isBlank line).length ≤ 16384) : Room gnuMalloc q left line := by
  have hints : gnuMalloc.ints (tokens isBlank q).length = 6 := by
    change (if (tokens isBlank q).length ≤ 24 then 24 else _) / 4 = 6
    rw [if_pos (by omega)]
  have hblock : maxByte ≤ gnuMalloc.usable maxByte := gnuMalloc.le_usable maxByte
  have hpointers : maxByte / 8 ≤ gnuMalloc.pointers maxByte := Nat.div_le_div_right hblock
  refine .of_le (by omega) (by omega) (hline.trans hpointers)

/-- "a b c" and then "a b". -/
def abcAb : Text := ⟨[97, 32, 98, 32, 99, 10, 97, 32, 98, 10], by decide⟩

/-- "a b c". -/
def threeWords : Text := ⟨[97, 32, 98, 32, 99], by decide⟩

theorem operate2_reports_abcAb :
    (∃ out, operate2 gnuMalloc (fun _ => 0) abcAb.bytes (Mem.init.load threeWords.bytes) =
      some out ∧ ReportsRows out (HoldsAll abcAb threeWords)) ↔
      (rawLines abcAb.bytes).length < 2 ^ 31 ∧
        (tokens isBlank threeWords.bytes).length ≤ gnuMalloc.pointers maxByte ∧
        ∀ k line, (rawLines abcAb.bytes)[k]? = some line → line.headD 0 ≠ 10 →
          Room gnuMalloc threeWords.bytes
              (LeftOver threeWords.bytes (fun _ => 0) (rawLines abcAb.bytes) k) line ∧
            ∀ j, ¬ Stale threeWords.bytes (fun _ => 0) (rawLines abcAb.bytes) k line j ∧
              ¬ Unmet threeWords.bytes (fun _ => 0) (rawLines abcAb.bytes) k line j :=
  operate2_reports_iff gnuMalloc abcAb threeWords Mem.init (fun _ => 0) (by decide)

/-- The mark of "c" is still set when the second line is read. -/
theorem operate2_stale_mark :
    ¬ ∃ out, operate2 gnuMalloc (fun _ => 0) abcAb.bytes (Mem.init.load threeWords.bytes) =
      some out ∧ ReportsRows out (HoldsAll abcAb threeWords) := by
  rintro ⟨out, hout, -, hmem⟩
  have hrun : operate2 gnuMalloc (fun _ => 0) abcAb.bytes (Mem.init.load threeWords.bytes) =
      some [1, 2] := by decide +kernel
  rw [hrun] at hout
  cases hout
  obtain ⟨k, line, hk, hline, hwords⟩ := (hmem 2).1 (by decide)
  cases Nat.succ_injective hk
  have hget : abcAb.lines[1]? = some [97, 32, 98] := by decide +kernel
  rw [hget] at hline
  cases hline
  have hc : WordAt isBlank threeWords.bytes 4 [99] := mem_words.1 (by decide +kernel)
  obtain ⟨c, w', hw', hsame⟩ := hwords 4 [99] hc
  have hmem' := mem_words.2 hw'
  have hlist : words isBlank [97, 32, 98] = [(0, [97]), (2, [98])] := by decide +kernel
  rw [hlist] at hmem'
  have hno : ∀ t ∈ [(0, [97]), (2, [98])], ¬ Same t.2 [99] := by decide
  exact hno (c, w') hmem' hsame

end TextSearch
