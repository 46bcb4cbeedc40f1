import Coursework.TextSearch.SingleWord
import Mathlib.Algebra.Order.BigOperators.Group.List
import Mathlib.Data.List.GetD
import Mathlib.Data.List.Nodup

/-! `operate_4`: a line is reported once for every pair of the two words with another token between
them, and this token may be empty. -/
namespace TextSearch
open Tokens

/-- A word that can stand on a side of the `'*'` in a query. -/
structure Word where
  bytes : List ℕ
  ne_nil : bytes ≠ []
  plain : ∀ c ∈ bytes, c ≠ 0 ∧ c ≠ 42 ∧ isBlank c = false

/-- The query with a `'*'` between two words. -/
def gapQuery (w₁ w₂ : Word) : List ℕ := w₁.bytes ++ 42 :: w₂.bytes

/-- The query is cut at `'*'` and newlines. -/
abbrev isStar : ℕ → Bool := isDelimiter [42, 10]

theorem Word.not_isStar (w : Word) : ∀ c ∈ w.bytes, isStar c = false := by
  intro c hc
  obtain ⟨-, hstar, hblank⟩ := w.plain c hc
  have hnl : c ≠ 10 := by
    rintro rfl
    exact absurd hblank (by decide)
  refine decide_eq_false fun hmem => ?_
  obtain rfl | hmem := List.mem_cons.1 hmem
  · exact hstar rfl
  · exact hnl (List.mem_singleton.1 hmem)

theorem tokens_gapQuery (w₁ w₂ : Word) :
    tokens isStar (gapQuery w₁ w₂) = [(0, w₁.bytes), (w₁.bytes.length + 1, w₂.bytes)] := by
  unfold tokens gapQuery
  rw [tokensFrom_delim w₁.not_isStar (by decide), tokensFrom_last w₂.not_isStar w₂.ne_nil,
    Nat.zero_add]

theorem null_notMem_gapQuery (w₁ w₂ : Word) : 0 ∉ gapQuery w₁ w₂ := by
  have hword : ∀ w : Word, 0 ∉ w.bytes := fun w h => (w.plain 0 h).1 rfl
  unfold gapQuery
  rw [List.mem_append, List.mem_cons]
  rintro (h | h | h)
  · exact hword w₁ h
  · cases h
  · exact hword w₂ h

/-- Token `a` of the line is the first word, token `b` the second, and there is a token between
them. -/
structure GapPair (w₁ w₂ line : List ℕ) (a b : ℕ) : Prop where
  apart : a + 2 ≤ b
  first : ∃ t, (tokens isBlank line)[a]? = some t ∧ Same t.2 w₁
  second : ∃ t, (tokens isBlank line)[b]? = some t ∧ Same t.2 w₂

/-- The pairs in the order of the two loops. -/
def gapPairs (w₁ w₂ line : List ℕ) : List (ℕ × ℕ) :=
  let texts := tokens isBlank line
  (List.range (texts.length - 2)).flatMap fun a =>
    if Same (texts.getD a (0, [])).2 w₁ then
      ((List.range' (a + 2) (texts.length - (a + 2))).filter fun b =>
        decide (Same (texts.getD b (0, [])).2 w₂)).map fun b => (a, b)
    else []

theorem mem_gapPairs {w₁ w₂ line : List ℕ} {a b : ℕ} :
    (a, b) ∈ gapPairs w₁ w₂ line ↔ GapPair w₁ w₂ line a b := by
  unfold gapPairs
  dsimp only
  rw [List.mem_flatMap]
  constructor
  · rintro ⟨a', ha', hmem⟩
    by_cases hsame : Same ((tokens isBlank line).getD a' (0, [])).2 w₁
    · rw [if_pos hsame, List.mem_map] at hmem
      obtain ⟨b', hb', he⟩ := hmem
      cases he
      obtain ⟨hrange, hsame'⟩ := List.mem_filter.1 hb'
      rw [List.mem_range'_1] at hrange
      have hb : b < (tokens isBlank line).length := by omega
      have ha : a < (tokens isBlank line).length := by omega
      rw [List.getD_eq_getElem _ _ ha] at hsame
      rw [List.getD_eq_getElem _ _ hb] at hsame'
      exact ⟨hrange.1, ⟨_, List.getElem?_eq_getElem ha, hsame⟩,
        ⟨_, List.getElem?_eq_getElem hb, of_decide_eq_true hsame'⟩⟩
    · rw [if_neg hsame] at hmem
      cases hmem
  · rintro ⟨hab, ⟨t, ht, hsame⟩, ⟨u, hu, hsame'⟩⟩
    obtain ⟨ha, rfl⟩ := List.getElem?_eq_some_iff.1 ht
    obtain ⟨hb, rfl⟩ := List.getElem?_eq_some_iff.1 hu
    refine ⟨a, List.mem_range.2 (by omega), ?_⟩
    rw [List.getD_eq_getElem _ _ ha, if_pos hsame, List.mem_map]
    refine ⟨b, List.mem_filter.2 ⟨?_, ?_⟩, rfl⟩
    · rw [List.mem_range'_1]
      omega
    · rw [List.getD_eq_getElem _ _ hb]
      exact decide_eq_true hsame'

theorem nodup_gapPairs (w₁ w₂ line : List ℕ) : (gapPairs w₁ w₂ line).Nodup := by
  unfold gapPairs
  dsimp only
  rw [List.nodup_flatMap]
  constructor
  · intro a _
    split
    · refine List.Nodup.map ?_ (List.Nodup.filter _ List.nodup_range')
      intro b b' h
      exact (Prod.mk.injEq _ _ _ _ ▸ h).2
    · exact List.nodup_nil
  · refine List.nodup_range.imp ?_
    intro a a' hne
    have hfst : ∀ a x, x ∈ (if Same ((tokens isBlank line).getD a (0, [])).2 w₁ then
        ((List.range' (a + 2) ((tokens isBlank line).length - (a + 2))).filter fun b =>
          decide (Same ((tokens isBlank line).getD b (0, [])).2 w₂)).map fun b => (a, b)
        else []) → x.1 = a := by
      intro a x hx
      split at hx
      · obtain ⟨b, -, rfl⟩ := List.mem_map.1 hx
        rfl
      · cases hx
    intro x hx hx'
    exact hne ((hfst a x hx).symm.trans (hfst a' x hx'))

/-- The report of as many rows as `g` finds pairs in each line. -/
def collectRows (g : List ℕ → List (ℕ × ℕ)) (lines : List (List ℕ)) : List ℕ :=
  lines.zipIdx.flatMap fun (line, k) => (g line).map fun _ => k + 1

theorem mem_collectRows {g : List ℕ → List (ℕ × ℕ)} {lines : List (List ℕ)} {r : ℕ} :
    r ∈ collectRows g lines ↔ ∃ k line, r = k + 1 ∧ lines[k]? = some line ∧ g line ≠ [] := by
  unfold collectRows
  rw [List.mem_flatMap]
  constructor
  · rintro ⟨⟨line, k⟩, hmem, hr⟩
    obtain ⟨x, hx, rfl⟩ := List.mem_map.1 hr
    exact ⟨k, line, rfl, List.mem_zipIdx_iff_getElem?.1 hmem, List.ne_nil_of_mem hx⟩
  · rintro ⟨k, line, rfl, hline, hne⟩
    obtain ⟨x, hx⟩ := List.exists_mem_of_ne_nil _ hne
    exact ⟨(line, k), List.mem_zipIdx_iff_getElem?.2 hline, List.mem_map.2 ⟨x, hx, rfl⟩⟩

/-- The rows come each once if no line has two pairs. -/
theorem pairwise_collectRows {g : List ℕ → List (ℕ × ℕ)} {lines : List (List ℕ)} :
    (collectRows g lines).Pairwise (· < ·) ↔ ∀ line ∈ lines, (g line).length ≤ 1 := by
  have hrow : ∀ line k, ((g line).map fun _ => k + 1).Pairwise (· < ·) ↔ (g line).length ≤ 1 := by
    intro line k
    rw [List.pairwise_map]
    match g line with
    | [] => simp
    | [x] => simp
    | x :: y :: l =>
      constructor
      · intro h
        exact absurd ((List.pairwise_cons.1 h).1 y List.mem_cons_self) (Nat.lt_irrefl _)
      · intro h
        simp at h
  have hlater : lines.zipIdx.Pairwise fun x y =>
      ∀ r ∈ (g x.1).map fun _ => x.2 + 1, ∀ r' ∈ (g y.1).map fun _ => y.2 + 1, r < r' := by
    refine (pairwise_zipIdx lines).imp fun hlt r hr r' hr' => ?_
    obtain ⟨_, -, rfl⟩ := List.mem_map.1 hr
    obtain ⟨_, -, rfl⟩ := List.mem_map.1 hr'
    exact Nat.succ_lt_succ hlt
  unfold collectRows
  rw [List.pairwise_flatMap, and_iff_left hlater]
  constructor
  · intro h line hline
    obtain ⟨k, hk⟩ := List.mem_iff_getElem?.1 hline
    exact (hrow line k).1 (h (line, k) (List.mem_zipIdx_iff_getElem?.2 hk))
  · rintro h ⟨line, k⟩ hmem
    exact (hrow line k).2 (h line (List.mem_of_getElem? (List.mem_zipIdx_iff_getElem?.1 hmem)))

theorem length_collectRows_le {g : List ℕ → List (ℕ × ℕ)} {lines : List (List ℕ)}
    (h : ∀ line ∈ lines, (g line).length ≤ 1) : (collectRows g lines).length ≤ lines.length := by
  have hsum := List.sum_le_card_nsmul (lines.zipIdx.map fun x => (g x.1).length) 1 (by
    rintro _ hx
    obtain ⟨⟨line, k⟩, hmem, rfl⟩ := List.mem_map.1 hx
    exact h line (List.mem_of_getElem? (List.mem_zipIdx_iff_getElem?.1 hmem)))
  rw [List.length_map, List.length_zipIdx, Nat.nsmul_eq_mul, Nat.mul_one] at hsum
  unfold collectRows
  rw [List.length_flatMap]
  simpa using hsum

theorem operate4Body_eq {m : Mem} {line junk junk' : List ℕ} (A : Allocator) (w₁ w₂ : Word)
    (row : ℕ) (hne : line ≠ []) (h0 : 0 ∉ line)
    (hquery : m.bytes .query = mask [42, 10] (gapQuery w₁ w₂) ++ 0 :: junk')
    (hbytes : m.bytes .textLine = line ++ 0 :: junk) :
    ∃ m', m'.bytes .query = mask [42, 10] (gapQuery w₁ w₂) ++ 0 :: junk' ∧ ∀ x,
      operate4Body A ((tokens isStar (gapQuery w₁ w₂)).map fun u => ⟨.query, u.1⟩) () m row =
        some x ↔ (tokens isBlank line).length ≤ A.pointers maxByte ∧
          x = ((), m', (gapPairs w₁.bytes w₂.bytes line).map fun _ => row) := by
  obtain ⟨m', hcall, hquery', hsame⟩ :=
    tokenList_line (A.pointers maxByte) hne h0 hbytes (null_notMem_gapQuery w₁ w₂) hquery
  have hword : ∀ u ∈ tokens isStar (gapQuery w₁ w₂), ∀ a < (tokens isBlank line).length, m'.same
      (((tokens isBlank line).map fun t => ⟨.textLine, t.1⟩).getD a textStart) ⟨.query, u.1⟩ =
        decide (Same ((tokens isBlank line).getD a (0, [])).2 u.2) := by
    intro u hu a ha
    rw [getD_textLine ha, List.getD_eq_getElem _ _ ha]
    exact hsame _ (List.getElem_mem ha) u hu
  rw [tokens_gapQuery] at hword
  have hfirst := hword _ List.mem_cons_self
  have hsecond := hword _ (List.mem_cons_of_mem _ List.mem_cons_self)
  refine ⟨m', hquery', fun x => ?_⟩
  unfold operate4Body
  rw [hcall, Option.bind_eq_bind, bind_ite_eq_some]
  refine and_congr_right fun _ => ?_
  rw [tokens_gapQuery]
  refine (Option.some_inj.trans eq_comm).trans (Eq.congr_right ?_)
  refine congrArg (fun out => ((), m', out)) ?_
  rw [List.length_map, gapPairs, List.map_flatMap]
  refine List.flatMap_congr fun a ha => ?_
  have hlt : a < (tokens isBlank line).length :=
    lt_of_lt_of_le (List.mem_range.1 ha) (Nat.sub_le _ _)
  rw [hfirst a hlt]
  by_cases hw : Same ((tokens isBlank line).getD a (0, [])).2 w₁.bytes
  · rw [if_pos (decide_eq_true hw), if_pos hw, List.map_map]
    have hinner : ∀ l : List ℕ, (∀ b ∈ l, b < (tokens isBlank line).length) →
        (l.flatMap fun b => if m'.same
            (((tokens isBlank line).map fun t => ⟨.textLine, t.1⟩).getD b textStart)
              ⟨.query, w₁.bytes.length + 1⟩ then [row] else []) =
          (l.filter fun b => decide (Same ((tokens isBlank line).getD b (0, [])).2 w₂.bytes)).map
            fun _ => row := by
      intro l hl
      induction l with
      | nil => rfl
      | cons b l ih =>
        rw [List.flatMap_cons, ih fun x hx => hl x (List.mem_cons_of_mem _ hx),
          hsecond b (hl b List.mem_cons_self), List.filter_cons]
        split <;> rfl
    refine hinner _ fun b hb => ?_
    obtain ⟨-, hb⟩ := List.mem_range'_1.1 hb
    change b < a + 2 + ((tokens isBlank line).length - (a + 2)) at hb
    change a ∈ List.range ((tokens isBlank line).length - 2) at ha
    rw [List.mem_range] at ha
    omega
  · rw [if_neg (by simpa using hw), if_neg hw, List.map_nil]

theorem gapPairs_of_words {w₁ line : List ℕ} (hw : w₁ ≠ []) (hline : words isBlank line = [])
    (w₂ : List ℕ) : gapPairs w₁ w₂ line = [] := by
  refine List.eq_nil_iff_forall_not_mem.2 ?_
  rintro ⟨a, b⟩ hmem
  obtain ⟨t, ht, hsame⟩ := (mem_gapPairs.1 hmem).first
  have hne : t.2 ≠ [] := fun e => hw (hsame.nil_iff.1 e)
  have hword : t ∈ words isBlank line := mem_words_iff.2 ⟨List.mem_of_getElem? ht, hne⟩
  rw [hline] at hword
  cases hword

theorem operate4_eq_some (A : Allocator) (t : Text) (w₁ w₂ : Word) (m : Mem) (out : List ℕ) :
    operate4 A t.bytes (m.load (gapQuery w₁ w₂)) = some out ↔
      (2 ≤ A.pointers 2 ∧ (rawLines t.bytes).length < 2 ^ 31 ∧
        ∀ line ∈ rawLines t.bytes, line.headD 0 ≠ 10 →
          (tokens isBlank line).length ≤ A.pointers maxByte) ∧
      (collectRows (gapPairs w₁.bytes w₂.bytes) (rawLines t.bytes)).length < 2 ^ 31 ∧
      out = collectRows (gapPairs w₁.bytes w₂.bytes) (rawLines t.bytes) := by
  have hne : gapQuery w₁ w₂ ≠ [] := by simp [gapQuery]
  have hload : (m.load (gapQuery w₁ w₂)).bytes .query = gapQuery w₁ w₂ ++ 0 :: [] :=
    Mem.setBytes_self _ _ _
  obtain ⟨m', hcall, hquery, -⟩ := tokenList_eq (A.pointers 2) (show 0 ∉ [42, 10] by decide) hne
    (null_notMem_gapQuery w₁ w₂) hload
  have htwo : (tokens isStar (gapQuery w₁ w₂)).length = 2 := by rw [tokens_gapQuery]; rfl
  unfold operate4 queryStart
  rw [hcall, Option.bind_eq_bind, htwo]
  by_cases hroom : 2 ≤ A.pointers 2
  · have hloop := @lineLoop_eq_some _ _
      (operate4Body A ((tokens isStar (gapQuery w₁ w₂)).map fun u => ⟨.query, u.1⟩))
      (fun _ row line => ((), (gapPairs w₁.bytes w₂.bytes line).map fun _ => row))
      (fun _ line => (tokens isBlank line).length ≤ A.pointers maxByte)
      (fun m => m.bytes .query = mask [42, 10] (gapQuery w₁ w₂) ++ 0 :: [])
      (fun m l hm => by rw [Mem.setBytes_of_ne m l (by decide), hm])
      (fun _ m row line junk hne h0 hm hbytes => operate4Body_eq A w₁ w₂ row hne h0 hm hbytes)
      _ _ m' () 0 0 out (Nat.lt_succ_self t.bytes.length) t.no_null hquery (by decide) (by decide)
    rw [runLines_words (p := isBlank) (by decide)
      (fun row line => (gapPairs w₁.bytes w₂.bytes line).map fun _ => row)
      (fun row line hline => by rw [gapPairs_of_words w₁.ne_nil hline]; rfl),
      served_iff, Nat.zero_add, Nat.zero_add] at hloop
    rw [if_pos hroom, Option.bind_some, and_iff_right hroom, and_assoc]
    exact hloop
  · rw [if_neg hroom, Option.bind_none]
    exact iff_of_false (fun h => by cases h) fun h => hroom h.1.1

/-- Two of the words have another word between them. -/
def WordsApart (w₁ w₂ : List ℕ) (ws : List (ℕ × List ℕ)) : Prop :=
  ∃ x ∈ ws, ∃ y ∈ ws, ∃ z ∈ ws, x.1 < y.1 ∧ y.1 < z.1 ∧ Same x.2 w₁ ∧ Same z.2 w₂

theorem wordsApart_iff {w₁ w₂ line : List ℕ} : WordsApart w₁ w₂ (words isBlank line) ↔
    ∃ i₁ u₁ i₂ u₂ i₃ u₃, i₁ < i₂ ∧ i₂ < i₃ ∧ WordAt isBlank line i₁ u₁ ∧
      WordAt isBlank line i₂ u₂ ∧ WordAt isBlank line i₃ u₃ ∧ Same u₁ w₁ ∧ Same u₃ w₂ := by
  constructor
  · rintro ⟨⟨i₁, u₁⟩, h₁, ⟨i₂, u₂⟩, h₂, ⟨i₃, u₃⟩, h₃, hlt, hlt', hs, hs'⟩
    exact ⟨i₁, u₁, i₂, u₂, i₃, u₃, hlt, hlt', mem_words.1 h₁, mem_words.1 h₂, mem_words.1 h₃,
      hs, hs'⟩
  · rintro ⟨i₁, u₁, i₂, u₂, i₃, u₃, hlt, hlt', h₁, h₂, h₃, hs, hs'⟩
    exact ⟨(i₁, u₁), mem_words.2 h₁, (i₂, u₂), mem_words.2 h₂, (i₃, u₃), mem_words.2 h₃, hlt, hlt',
      hs, hs'⟩

/-- A token between two others is a word. -/
def WordBetween (line : List ℕ) (a b : ℕ) : Prop :=
  ∃ c u, a < c ∧ c < b ∧ (tokens isBlank line)[c]? = some u ∧ u.2 ≠ []

theorem wordsApart_iff_pair {w₁ w₂ line : List ℕ} (hw₁ : w₁ ≠ []) (hw₂ : w₂ ≠ []) :
    WordsApart w₁ w₂ (words isBlank line) ↔
      ∃ a b, GapPair w₁ w₂ line a b ∧ WordBetween line a b := by
  constructor
  · rintro ⟨x, hx, y, hy, z, hz, hxy, hyz, hs, hs'⟩
    obtain ⟨a, ha⟩ := List.mem_iff_getElem?.1 (mem_words_iff.1 hx).1
    obtain ⟨c, hc⟩ := List.mem_iff_getElem?.1 (mem_words_iff.1 hy).1
    obtain ⟨b, hb⟩ := List.mem_iff_getElem?.1 (mem_words_iff.1 hz).1
    have hac := (offset_lt_iff ha hc).1 hxy
    have hcb := (offset_lt_iff hc hb).1 hyz
    exact ⟨a, b, ⟨by omega, ⟨x, ha, hs⟩, ⟨z, hb, hs'⟩⟩, c, y, hac, hcb, hc, (mem_words_iff.1 hy).2⟩
  · rintro ⟨a, b, ⟨-, ⟨x, hx, hs⟩, ⟨z, hz, hs'⟩⟩, c, y, hac, hcb, hy, hne⟩
    refine ⟨x, mem_words_iff.2 ⟨List.mem_of_getElem? hx, fun e => hw₁ (hs.nil_iff.1 e)⟩,
      y, mem_words_iff.2 ⟨List.mem_of_getElem? hy, hne⟩,
      z, mem_words_iff.2 ⟨List.mem_of_getElem? hz, fun e => hw₂ (hs'.nil_iff.1 e)⟩,
      (offset_lt_iff hx hy).2 hac, (offset_lt_iff hy hz).2 hcb, hs, hs'⟩

theorem length_gapPairs_le {w₁ w₂ line : List ℕ} : (gapPairs w₁ w₂ line).length ≤ 1 ↔
    ∀ a b a' b', GapPair w₁ w₂ line a b → GapPair w₁ w₂ line a' b' → a = a' ∧ b = b' := by
  have hnodup := nodup_gapPairs w₁ w₂ line
  have hmem : ∀ a b, (a, b) ∈ gapPairs w₁ w₂ line ↔ GapPair w₁ w₂ line a b :=
    fun _ _ => mem_gapPairs
  constructor
  · intro h a b a' b' hp hp'
    rw [← hmem] at hp hp'
    cases hl : gapPairs w₁ w₂ line with
    | nil =>
      rw [hl] at hp
      cases hp
    | cons x l =>
      rw [hl, List.length_cons] at h
      have hnil : l = [] := List.length_eq_zero_iff.1 (by omega)
      rw [hl, hnil, List.mem_singleton] at hp hp'
      rw [← Prod.mk.injEq, hp, hp']
  · intro h
    cases hl : gapPairs w₁ w₂ line with
    | nil => simp
    | cons x l =>
      cases l with
      | nil => simp
      | cons y l =>
        rw [hl, List.nodup_cons] at hnodup
        have hx : GapPair w₁ w₂ line x.1 x.2 := (hmem _ _).1 (hl ▸ List.mem_cons_self)
        have hy : GapPair w₁ w₂ line y.1 y.2 :=
          (hmem _ _).1 (hl ▸ List.mem_cons_of_mem _ List.mem_cons_self)
        have hxy : x = y := Prod.ext_iff.2 (h _ _ _ _ hx hy)
        exact absurd (hxy ▸ List.mem_cons_self) hnodup.1

/-- In row `r` of the text the two words have a word between them. -/
def HoldsApart (t : Text) (w₁ w₂ : Word) (r : ℕ) : Prop :=
  ∃ k line, r = k + 1 ∧ t.lines[k]? = some line ∧
    ∃ i₁ u₁ i₂ u₂ i₃ u₃, i₁ < i₂ ∧ i₂ < i₃ ∧ WordAt isBlank line i₁ u₁ ∧
      WordAt isBlank line i₂ u₂ ∧ WordAt isBlank line i₃ u₃ ∧ Same u₁ w₁.bytes ∧
        Same u₃ w₂.bytes

/-- `operate_4` reports the lines in which the two words have a word between them if and only if
the lines can be counted, the tokens fit the blocks for them, and in each line the words are a pair
in at most one way, and then with a word between them. -/
theorem operate4_reports_iff (A : Allocator) (t : Text) (w₁ w₂ : Word) (m : Mem) :
    (∃ out, operate4 A t.bytes (m.load (gapQuery w₁ w₂)) = some out ∧
      ReportsRows out (HoldsApart t w₁ w₂)) ↔
      (rawLines t.bytes).length < 2 ^ 31 ∧ 2 ≤ A.pointers 2 ∧
        ∀ line ∈ rawLines t.bytes,
          (line.headD 0 ≠ 10 → (tokens isBlank line).length ≤ A.pointers maxByte) ∧
          (∀ a b a' b', GapPair w₁.bytes w₂.bytes line a b →
            GapPair w₁.bytes w₂.bytes line a' b' → a = a' ∧ b = b') ∧
          ∀ a b, GapPair w₁.bytes w₂.bytes line a b → WordBetween line a b := by
  have hnone : ¬ WordsApart w₁.bytes w₂.bytes [] := by
    rintro ⟨x, hx, -⟩
    cases hx
  have hspec : ∀ k : ℕ, (∃ line, t.lines[k]? = some line ∧
      ∃ i₁ u₁ i₂ u₂ i₃ u₃, i₁ < i₂ ∧ i₂ < i₃ ∧ WordAt isBlank line i₁ u₁ ∧
        WordAt isBlank line i₂ u₂ ∧ WordAt isBlank line i₃ u₃ ∧ Same u₁ w₁.bytes ∧
          Same u₃ w₂.bytes) ↔ ∃ raw, (rawLines t.bytes)[k]? = some raw ∧
            ∃ a b, GapPair w₁.bytes w₂.bytes raw a b ∧ WordBetween raw a b := by
    intro k
    have hraw := exists_line_iff (p := isBlank) (by decide) hnone t k
    simp only [wordsApart_iff] at hraw
    rw [hraw]
    refine exists_congr fun raw => and_congr_right fun _ => ?_
    rw [← wordsApart_iff, wordsApart_iff_pair w₁.ne_nil w₂.ne_nil]
  have hiff : (∀ r, r ∈ collectRows (gapPairs w₁.bytes w₂.bytes) (rawLines t.bytes) ↔
      HoldsApart t w₁ w₂ r) ↔
      ∀ (k : ℕ) raw, (rawLines t.bytes)[k]? = some raw → (gapPairs w₁.bytes w₂.bytes raw ≠ [] ↔
        ∃ a b, GapPair w₁.bytes w₂.bytes raw a b ∧ WordBetween raw a b) := by
    rw [← rows_iff]
    refine forall_congr' fun r => iff_congr mem_collectRows (exists_congr fun k => ?_)
    rw [exists_and_left, exists_and_left]
    exact and_congr_right fun _ => hspec k
  constructor
  · rintro ⟨out, hout, horder, hmem⟩
    obtain ⟨⟨hblock, hrows, htokens⟩, -, rfl⟩ := (operate4_eq_some A t w₁ w₂ m out).1 hout
    refine ⟨hrows, hblock, fun line hline => ?_⟩
    have hone := length_gapPairs_le.1 (pairwise_collectRows.1 horder line hline)
    refine ⟨htokens line hline, hone, fun a b hpair => ?_⟩
    obtain ⟨k, hk⟩ := List.mem_iff_getElem?.1 hline
    obtain ⟨a', b', hpair', hbetween⟩ :=
      (hiff.1 hmem k line hk).1 (List.ne_nil_of_mem (mem_gapPairs.2 hpair))
    obtain ⟨rfl, rfl⟩ := hone a b a' b' hpair hpair'
    exact hbetween
  · rintro ⟨hrows, hblock, h⟩
    have hone : ∀ line ∈ rawLines t.bytes, (gapPairs w₁.bytes w₂.bytes line).length ≤ 1 :=
      fun line hline => length_gapPairs_le.2 (h line hline).2.1
    have hrun := (operate4_eq_some A t w₁ w₂ m _).2
      ⟨⟨hblock, hrows, fun line hline => (h line hline).1⟩,
        lt_of_le_of_lt (length_collectRows_le hone) hrows, rfl⟩
    refine ⟨_, hrun, pairwise_collectRows.2 hone, hiff.2 fun k raw hk => ?_⟩
    constructor
    · intro hne
      obtain ⟨⟨a, b⟩, hx⟩ := List.exists_mem_of_ne_nil _ hne
      have hpair := mem_gapPairs.1 hx
      exact ⟨a, b, hpair, (h raw (List.mem_of_getElem? hk)).2.2 a b hpair⟩
    · rintro ⟨a, b, hpair, -⟩
      exact List.ne_nil_of_mem (mem_gapPairs.2 hpair)

/-- "a" and "b" with two blanks between them. -/
def twoBlanks : Text := ⟨[97, 32, 32, 98], by decide⟩

def letterA : Word := ⟨[97], by decide, by decide⟩
def letterB : Word := ⟨[98], by decide, by decide⟩

/-- The empty token between two blanks counts as a word. -/
theorem operate4_empty_token :
    ¬ ∃ out, operate4 gnuMalloc twoBlanks.bytes (Mem.init.load (gapQuery letterA letterB)) =
      some out ∧ ReportsRows out (HoldsApart twoBlanks letterA letterB) := by
  rintro ⟨out, hout, -, hmem⟩
  have hrun : operate4 gnuMalloc twoBlanks.bytes (Mem.init.load (gapQuery letterA letterB)) =
      some [1] := by decide +kernel
  rw [hrun] at hout
  cases hout
  obtain ⟨k, line, hk, hline, i₁, u₁, i₂, u₂, i₃, u₃, hlt, hlt', h₁, h₂, h₃, -⟩ :=
    (hmem 1).1 (by decide)
  cases Nat.succ_injective hk
  have hget : twoBlanks.lines[0]? = some [97, 32, 32, 98] := by decide +kernel
  rw [hget] at hline
  cases hline
  have hlist : words isBlank [97, 32, 32, 98] = [(0, [97]), (3, [98])] := by decide +kernel
  have hoff : ∀ i u, WordAt isBlank [97, 32, 32, 98] i u → i = 0 ∨ i = 3 := by
    intro i u hw
    have hw' := mem_words.2 hw
    rw [hlist] at hw'
    simp only [List.mem_cons, Prod.mk.injEq, List.not_mem_nil, or_false] at hw'
    exact hw'.imp And.left And.left
  have := hoff i₁ u₁ h₁
  have := hoff i₂ u₂ h₂
  have := hoff i₃ u₃ h₃
  omega

end TextSearch
