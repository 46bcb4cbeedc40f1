import Coursework.Lib.Beginnings
import Coursework.TextSearch.SingleWord
import Mathlib.Data.List.GetD

/-! `operate_3`: the tokens of a line are compared with those of the phrase one by one, so that
blanks have to match blank for blank. -/
namespace TextSearch
open Tokens Beginnings

/-- The tokens are the same string. -/
abbrev SameToken (t u : ℕ × List ℕ) : Prop := Same t.2 u.2

/-- The columns in which `operate_3` finds the tokens of the phrase. -/
def phraseColumns (phrase line : List ℕ) : List ℕ :=
  let texts := tokens isBlank line
  let queries := tokens isBlank phrase
  ((List.range (texts.length + 1 - queries.length)).filter fun a =>
    (List.range queries.length).all fun b =>
      decide (Same (texts.getD (a + b) (0, [])).2 (queries.getD b (0, [])).2)).map fun a =>
        (texts.getD a (0, [])).1

theorem all_same_iff {texts queries : List (ℕ × List ℕ)} {a : ℕ}
    (ha : a + queries.length ≤ texts.length) :
    ((List.range queries.length).all fun b =>
      decide (Same (texts.getD (a + b) (0, [])).2 (queries.getD b (0, [])).2)) = true ↔
        Begins SameToken (texts.drop a) queries := by
  rw [List.all_eq_true, begins_drop_iff]
  constructor
  · intro h b u hu
    obtain ⟨hb, rfl⟩ := List.getElem?_eq_some_iff.1 hu
    have hlt : a + b < texts.length := by omega
    have hsame := of_decide_eq_true (h b (List.mem_range.2 hb))
    rw [List.getD_eq_getElem _ _ hlt, List.getD_eq_getElem _ _ hb] at hsame
    exact ⟨_, List.getElem?_eq_getElem hlt, hsame⟩
  · intro h b hb
    rw [List.mem_range] at hb
    obtain ⟨t, ht, hsame⟩ := h b _ (List.getElem?_eq_getElem hb)
    obtain ⟨hlt, rfl⟩ := List.getElem?_eq_some_iff.1 ht
    rw [List.getD_eq_getElem _ _ hlt, List.getD_eq_getElem _ _ hb]
    exact decide_eq_true hsame

theorem mem_phraseColumns {phrase line : List ℕ} (hphrase : tokens isBlank phrase ≠ []) {c : ℕ} :
    c ∈ phraseColumns phrase line ↔ ∃ a u, (tokens isBlank line)[a]? = some (c, u) ∧
      Begins SameToken ((tokens isBlank line).drop a) (tokens isBlank phrase) := by
  have hpos := List.length_pos_iff.2 hphrase
  unfold phraseColumns
  dsimp only
  rw [List.mem_map]
  constructor
  · rintro ⟨a, ha, rfl⟩
    obtain ⟨hrange, hall⟩ := List.mem_filter.1 ha
    rw [List.mem_range] at hrange
    have hlt : a < (tokens isBlank line).length := by omega
    rw [List.getD_eq_getElem _ _ hlt]
    exact ⟨a, _, List.getElem?_eq_getElem hlt, (all_same_iff (by omega)).1 hall⟩
  · rintro ⟨a, u, hget, hbegins⟩
    obtain ⟨hlt, he⟩ := List.getElem?_eq_some_iff.1 hget
    have hle := hbegins.length_le
    rw [List.length_drop] at hle
    refine ⟨a, List.mem_filter.2 ⟨List.mem_range.2 (by omega), ?_⟩, ?_⟩
    · exact (all_same_iff (by omega)).2 hbegins
    · rw [List.getD_eq_getElem _ _ hlt, he]

theorem pairwise_phraseColumns {phrase : List ℕ} (hphrase : tokens isBlank phrase ≠ [])
    (line : List ℕ) : (phraseColumns phrase line).Pairwise (· < ·) := by
  have hpos := List.length_pos_iff.2 hphrase
  unfold phraseColumns
  dsimp only
  rw [List.pairwise_map]
  refine List.Pairwise.imp_of_mem ?_ (List.pairwise_lt_range.filter _)
  intro a b ha hb hab
  have ha' := List.mem_range.1 (List.mem_filter.1 ha).1
  have hb' := List.mem_range.1 (List.mem_filter.1 hb).1
  have hlta : a < (tokens isBlank line).length := by omega
  have hltb : b < (tokens isBlank line).length := by omega
  rw [List.getD_eq_getElem _ _ hlta, List.getD_eq_getElem _ _ hltb]
  exact (offset_lt_iff (List.getElem?_eq_getElem hlta) (List.getElem?_eq_getElem hltb)).2 hab

theorem operate3Body_eq {m : Mem} {phrase line junk junk' : List ℕ} (A : Allocator) (row : ℕ)
    (hphrase : tokens isBlank phrase ≠ []) (hne : line ≠ []) (h0 : 0 ∉ line) (hp : 0 ∉ phrase)
    (hquery : m.bytes .query = mask blanks phrase ++ 0 :: junk')
    (hbytes : m.bytes .textLine = line ++ 0 :: junk) :
    ∃ m', m'.bytes .query = mask blanks phrase ++ 0 :: junk' ∧ ∀ x,
      operate3Body A ((tokens isBlank phrase).map fun u => ⟨.query, u.1⟩) () m row = some x ↔
        (tokens isBlank line).length ≤ A.pointers maxByte ∧
          x = ((), m', (phraseColumns phrase line).map fun c => (row, c)) := by
  have hpos := List.length_pos_iff.2 hphrase
  obtain ⟨m', hcall, hquery', hsame⟩ :=
    tokenList_line (A.pointers maxByte) hne h0 hbytes hp hquery
  refine ⟨m', hquery', fun x => ?_⟩
  unfold operate3Body
  rw [hcall, Option.bind_eq_bind, bind_ite_eq_some]
  refine and_congr_right fun _ => ?_
  refine (Option.some_inj.trans eq_comm).trans (Eq.congr_right ?_)
  refine congrArg (fun out => ((), m', out)) ?_
  rw [List.length_map, List.length_map, phraseColumns, List.map_map]
  have hfilter : ((List.range ((tokens isBlank line).length + 1 -
      (tokens isBlank phrase).length)).filter fun a =>
        (List.range (tokens isBlank phrase).length).all fun b =>
          m'.same (((tokens isBlank line).map fun t => ⟨.textLine, t.1⟩).getD (a + b) textStart)
            (((tokens isBlank phrase).map fun u => ⟨.query, u.1⟩).getD b queryStart)) =
      (List.range ((tokens isBlank line).length + 1 -
        (tokens isBlank phrase).length)).filter fun a =>
          (List.range (tokens isBlank phrase).length).all fun b =>
            decide (Same ((tokens isBlank line).getD (a + b) (0, [])).2
              ((tokens isBlank phrase).getD b (0, [])).2) := by
    refine List.filter_congr fun a ha => ?_
    rw [List.mem_range] at ha
    rw [Bool.eq_iff_iff, List.all_eq_true, List.all_eq_true]
    refine forall₂_congr fun b hb => ?_
    rw [List.mem_range] at hb
    have hlt : a + b < (tokens isBlank line).length := by omega
    rw [getD_textLine hlt, List.getD_eq_getElem _ _ hlt, List.getD_eq_getElem _ _ hb,
      List.getD_eq_getElem _ _ (by rw [List.length_map]; exact hb), List.getElem_map]
    rw [hsame _ (List.getElem_mem hlt) _ (List.getElem_mem hb)]
  refine (congrArg _ hfilter).trans (List.map_congr_left fun a ha => ?_)
  have hlt := List.mem_range.1 (List.mem_filter.1 ha).1
  have hlt' : a < (tokens isBlank line).length := by omega
  rw [getD_textLine hlt']
  rfl

/-- The words from place `i` of the line on begin with those of the phrase. -/
def PhraseFrom (phrase line : List ℕ) (i : ℕ) : Prop :=
  ∀ j w, (words isBlank phrase)[j]? = some w →
    ∃ x, (words isBlank line)[i + j]? = some x ∧ Same x.2 w.2

theorem phraseFrom_iff {phrase line : List ℕ} {i : ℕ} : PhraseFrom phrase line i ↔
    Begins SameToken ((words isBlank line).drop i) (words isBlank phrase) :=
  begins_drop_iff.symm

/-- Token `a` of the line is its word `i`. -/
structure Stands (line : List ℕ) (a i : ℕ) (x : ℕ × List ℕ) : Prop where
  token : (tokens isBlank line)[a]? = some x
  word : (words isBlank line)[i]? = some x

theorem index_unique {line : List ℕ} {a b : ℕ} {t u : ℕ × List ℕ}
    (ha : (tokens isBlank line)[a]? = some t) (hb : (tokens isBlank line)[b]? = some u)
    (h : t.1 = u.1) : a = b := by
  have hab := offset_lt_iff ha hb
  have hba := offset_lt_iff hb ha
  omega

theorem exists_stands {line : List ℕ} {i : ℕ} {x : ℕ × List ℕ}
    (h : (words isBlank line)[i]? = some x) : ∃ a, Stands line a i x ∧
      ((tokens isBlank line).drop a).filter (fun t => !t.2.isEmpty) =
        (words isBlank line).drop i := by
  obtain ⟨a, ha, hdrop⟩ := exists_drop_of_filter h
  exact ⟨a, ⟨ha, h⟩, hdrop⟩

/-- Where a phrase stands in a line, the tokens of the line are empty where those of the phrase
are. -/
def SameBlanks (phrase line : List ℕ) : Prop :=
  ∀ a i x, Stands line a i x → PhraseFrom phrase line i →
    ∀ b v, (tokens isBlank phrase)[b]? = some v →
      ∃ y, (tokens isBlank line)[a + b]? = some y ∧ (y.2 = [] ↔ v.2 = [])

theorem begins_tokens_iff {phrase line : List ℕ} {a : ℕ} :
    Begins SameToken ((tokens isBlank line).drop a) (tokens isBlank phrase) ↔
      Begins SameToken (((tokens isBlank line).drop a).filter fun t => !t.2.isEmpty)
        (words isBlank phrase) ∧
      ∀ b v, (tokens isBlank phrase)[b]? = some v →
        ∃ y, (tokens isBlank line)[a + b]? = some y ∧ (y.2 = [] ↔ v.2 = []) := by
  have hempty : ∀ t u : ℕ × List ℕ, ((!t.2.isEmpty) = !u.2.isEmpty) ↔ (t.2 = [] ↔ u.2 = []) := by
    intro t u
    rw [Bool.not_inj_iff, Bool.eq_iff_iff, List.isEmpty_iff, List.isEmpty_iff]
  have hskip : ∀ t u : ℕ × List ℕ, (!t.2.isEmpty) = false → (!u.2.isEmpty) = false →
      SameToken t u := by
    intro t u ht hu
    have ht' : t.2 = [] := by simpa using ht
    have hu' : u.2 = [] := by simpa using hu
    rw [SameToken, ht', hu']
    rfl
  rw [begins_iff_filter (fun t u h => (hempty t u).2 h.nil_iff) hskip]
  refine and_congr_right fun _ => ?_
  rw [begins_drop_iff]
  simp only [hempty]

theorem tokens_ne_nil {l : List ℕ} (h : words isBlank l ≠ []) : tokens isBlank l ≠ [] := by
  intro e
  rw [words, e] at h
  exact h rfl

/-- In a line `operate_3` finds the places of the phrase if and only if the blanks are the same
there. -/
theorem phraseColumns_iff {phrase line : List ℕ} (hwords : words isBlank phrase ≠ []) :
    (∀ c, c ∈ phraseColumns phrase line ↔
      ∃ i u, (words isBlank line)[i]? = some (c, u) ∧ PhraseFrom phrase line i) ↔
      SameBlanks phrase line := by
  have hphrase := tokens_ne_nil hwords
  constructor
  · intro h a i x hst hfrom
    have hmem := (h x.1).2 ⟨i, x.2, hst.word, hfrom⟩
    obtain ⟨a', u, ha', hbegins⟩ := (mem_phraseColumns hphrase).1 hmem
    have haa : a = a' := index_unique hst.token ha' rfl
    rw [haa]
    exact (begins_tokens_iff.1 hbegins).2
  · intro h c
    rw [mem_phraseColumns hphrase]
    constructor
    · rintro ⟨a, u, ha, hbegins⟩
      obtain ⟨hkept, -⟩ := begins_tokens_iff.1 hbegins
      -- the first word from token `a` on
      have hi := filter_drop (fun t : ℕ × List ℕ => !t.2.isEmpty) (tokens isBlank line) a
      obtain ⟨w, hw⟩ : ∃ w, (words isBlank phrase)[0]? = some w :=
        ⟨_, List.getElem?_eq_getElem (List.length_pos_iff.2 hwords)⟩
      rw [hi] at hkept
      obtain ⟨x, hx, -⟩ := begins_drop_iff.1 hkept 0 w hw
      obtain ⟨a', hst, -⟩ := exists_stands hx
      have hpattern := h a' _ x hst (phraseFrom_iff.2 hkept)
      obtain ⟨v, hv⟩ : ∃ v, (tokens isBlank phrase)[0]? = some v :=
        ⟨_, List.getElem?_eq_getElem (List.length_pos_iff.2 hphrase)⟩
      obtain ⟨y, hy, hyv⟩ := hpattern 0 v hv
      rw [Nat.add_zero, hst.token] at hy
      cases hy
      have hxne : x.2 ≠ [] := (mem_words_iff.1 (List.mem_of_getElem? hst.word)).2
      have hvne : v.2 ≠ [] := fun e => hxne (hyv.2 e)
      obtain ⟨z, hz, hsame⟩ := begins_drop_iff.1 hbegins 0 v hv
      rw [Nat.add_zero, ha] at hz
      cases hz
      have hune : u ≠ [] := fun e => hvne (hsame.nil_iff.1 e)
      have hfirst : ((tokens isBlank line).drop a).filter (fun t => !t.2.isEmpty) =
          (c, u) :: ((tokens isBlank line).drop (a + 1)).filter (fun t => !t.2.isEmpty) := by
        obtain ⟨hlt, he⟩ := List.getElem?_eq_some_iff.1 ha
        rw [List.drop_eq_getElem_cons hlt, he, List.filter_cons, if_pos (by simpa using hune)]
      rw [hi] at hfirst
      refine ⟨_, u, ?_, phraseFrom_iff.2 hkept⟩
      have hget := congrArg (fun l => l[0]?) hfirst
      rwa [List.getElem?_drop, Nat.add_zero] at hget
    · rintro ⟨i, u, hword, hfrom⟩
      obtain ⟨a, hst, hdrop⟩ := exists_stands hword
      refine ⟨a, u, hst.token, begins_tokens_iff.2 ⟨?_, h a i _ hst hfrom⟩⟩
      rw [hdrop]
      exact phraseFrom_iff.1 hfrom

theorem phraseColumns_of_words {phrase line : List ℕ} (hphrase : words isBlank phrase ≠ [])
    (hline : words isBlank line = []) : phraseColumns phrase line = [] := by
  refine List.eq_nil_iff_forall_not_mem.2 fun c hc => ?_
  obtain ⟨a, u, -, hbegins⟩ := (mem_phraseColumns (tokens_ne_nil hphrase)).1 hc
  have hkept := (begins_tokens_iff.1 hbegins).1.length_le
  have hpos := List.length_pos_iff.2 hphrase
  have hnil := filter_drop (fun t : ℕ × List ℕ => !t.2.isEmpty) (tokens isBlank line) a
  rw [hnil, ← words, hline, List.drop_nil, List.length_nil] at hkept
  omega

theorem operate3_eq_some (A : Allocator) (t phrase : Text) (m : Mem)
    (hphrase : words isBlank phrase.bytes ≠ []) (out : List (ℕ × ℕ)) :
    operate3 A t.bytes (34 :: phrase.bytes ++ [34]) m = some out ↔
      ((tokens isBlank phrase.bytes).length ≤ A.pointers maxByte ∧
        (rawLines t.bytes).length < 2 ^ 31 ∧
        ∀ line ∈ rawLines t.bytes, line.headD 0 ≠ 10 →
          (tokens isBlank line).length ≤ A.pointers maxByte) ∧
      (collect (phraseColumns phrase.bytes) (rawLines t.bytes)).length < 2 ^ 31 ∧
      out = collect (phraseColumns phrase.bytes) (rawLines t.bytes) := by
  have htokens := tokens_ne_nil hphrase
  have hbytes : phrase.bytes ≠ [] := by
    intro e
    rw [e] at htokens
    exact htokens rfl
  have hstring : (phrase.bytes ++ [34]).take ((phrase.bytes ++ [34]).length - 1) ++ [0, 0] =
      phrase.bytes ++ 0 :: [0] := by
    rw [List.length_append, List.length_singleton, Nat.add_sub_cancel, List.take_left]
  obtain ⟨m', hcall, hquery, -⟩ := tokenList_eq (A.pointers maxByte) null_notMem_blanks hbytes
    phrase.no_null (Mem.setBytes_self m .query (phrase.bytes ++ 0 :: [0]))
  unfold operate3 queryStart
  dsimp only
  rw [List.cons_append, List.drop_succ_cons, List.drop_zero, hstring, hcall, Option.bind_eq_bind]
  by_cases hroom : (tokens isBlank phrase.bytes).length ≤ A.pointers maxByte
  · have hloop := @lineLoop_eq_some _ _
      (operate3Body A ((tokens isBlank phrase.bytes).map fun u => ⟨.query, u.1⟩))
      (fun _ row line => ((), (phraseColumns phrase.bytes line).map fun c => (row, c)))
      (fun _ line => (tokens isBlank line).length ≤ A.pointers maxByte)
      (fun m => m.bytes .query = mask blanks phrase.bytes ++ 0 :: [0])
      (fun m l hm => by rw [Mem.setBytes_of_ne m l (by decide), hm])
      (fun _ m row line junk hne h0 hm hbytes =>
        operate3Body_eq A row htokens hne h0 phrase.no_null hm hbytes)
      _ _ m' () 0 0 out (Nat.lt_succ_self t.bytes.length) t.no_null hquery (by decide) (by decide)
    rw [runLines_words (p := isBlank) (by decide)
      (fun row line => (phraseColumns phrase.bytes line).map fun c => (row, c))
      (fun row line hline => by rw [phraseColumns_of_words hphrase hline]; rfl),
      served_iff, Nat.zero_add, Nat.zero_add] at hloop
    rw [if_pos hroom, Option.bind_some, and_iff_right hroom, and_assoc]
    exact hloop
  · rw [if_neg hroom, Option.bind_none]
    exact iff_of_false (fun h => by cases h) fun h => hroom h.1.1

/-- The phrase stands in row `r` of the text from byte `c` on. -/
def PhraseAt (t phrase : Text) (r c : ℕ) : Prop :=
  ∃ k line i u, r = k + 1 ∧ t.lines[k]? = some line ∧ (words isBlank line)[i]? = some (c, u) ∧
    PhraseFrom phrase.bytes line i

/-- `operate_3` reports exactly the places of the phrase if and only if lines and places can be
counted, the tokens fit the blocks for them, and, wherever the phrase is, the blanks between its
words are as many as in the query. -/
theorem operate3_reports_iff (A : Allocator) (t phrase : Text) (m : Mem)
    (hphrase : words isBlank phrase.bytes ≠ []) :
    (∃ out, operate3 A t.bytes (34 :: phrase.bytes ++ [34]) m = some out ∧
      Reports out (PhraseAt t phrase)) ↔
      ((tokens isBlank phrase.bytes).length ≤ A.pointers maxByte ∧
        (rawLines t.bytes).length < 2 ^ 31 ∧
        ∀ line ∈ rawLines t.bytes, line.headD 0 ≠ 10 →
          (tokens isBlank line).length ≤ A.pointers maxByte) ∧
      {x : ℕ × ℕ | PhraseAt t phrase x.1 x.2}.ncard < 2 ^ 31 ∧
      ∀ line ∈ rawLines t.bytes, SameBlanks phrase.bytes line := by
  rw [exists_reports_iff (operate3_eq_some A t phrase m hphrase)
    (collect_reports (pairwise_phraseColumns (tokens_ne_nil hphrase)) (rawLines t.bytes))]
  refine and_congr_right fun _ => and_congr_right fun _ => ?_
  have hspec : ∀ k c : ℕ, (∃ line, t.lines[k]? = some line ∧
      ∃ i u, (words isBlank line)[i]? = some (c, u) ∧ PhraseFrom phrase.bytes line i) ↔
        ∃ raw, (rawLines t.bytes)[k]? = some raw ∧
          ∃ i u, (words isBlank raw)[i]? = some (c, u) ∧ PhraseFrom phrase.bytes raw i := by
    intro k c
    refine exists_line_iff (p := isBlank) (by decide) (G := fun ws =>
      ∃ i u, ws[i]? = some (c, u) ∧ ∀ (j : ℕ) w, (words isBlank phrase.bytes)[j]? = some w →
        ∃ x : ℕ × List ℕ, ws[i + j]? = some x ∧ Same x.2 w.2) ?_ t k
    rintro ⟨i, u, hget, -⟩
    cases hget
  have hiff : ∀ c, (∀ r, (∃ k line, r = k + 1 ∧ (rawLines t.bytes)[k]? = some line ∧
      c ∈ phraseColumns phrase.bytes line) ↔ PhraseAt t phrase r c) ↔
      ∀ (k : ℕ) raw, (rawLines t.bytes)[k]? = some raw → (c ∈ phraseColumns phrase.bytes raw ↔
        ∃ i u, (words isBlank raw)[i]? = some (c, u) ∧ PhraseFrom phrase.bytes raw i) := by
    intro c
    rw [← rows_iff]
    refine forall_congr' fun r => iff_congr Iff.rfl ?_
    have hrow := fun k => hspec k c
    unfold PhraseAt
    simp only [exists_and_left] at hrow ⊢
    exact exists_congr fun k => and_congr_right fun _ => hrow k
  constructor
  · intro h line hline
    obtain ⟨k, hk⟩ := List.mem_iff_getElem?.1 hline
    exact (phraseColumns_iff hphrase).1 fun c => (hiff c).1 (fun r => h r c) k line hk
  · intro h r c
    refine (hiff c).2 (fun k raw hk => ?_) r
    exact (phraseColumns_iff hphrase).2 (h raw (List.mem_of_getElem? hk)) c

/-- "a b", the words one blank apart. -/
def phraseAB : Text := ⟨[97, 32, 98], by decide⟩

/-- "a" and "b" with a blank and a tab between them. -/
def blankTab : Text := ⟨[97, 32, 9, 98, 10], by decide⟩

theorem operate3_reports_blankTab :
    (∃ out, operate3 gnuMalloc blankTab.bytes (34 :: phraseAB.bytes ++ [34]) Mem.init = some out ∧
      Reports out (PhraseAt blankTab phraseAB)) ↔
      ((tokens isBlank phraseAB.bytes).length ≤ gnuMalloc.pointers maxByte ∧
        (rawLines blankTab.bytes).length < 2 ^ 31 ∧
        ∀ line ∈ rawLines blankTab.bytes, line.headD 0 ≠ 10 →
          (tokens isBlank line).length ≤ gnuMalloc.pointers maxByte) ∧
      {x : ℕ × ℕ | PhraseAt blankTab phraseAB x.1 x.2}.ncard < 2 ^ 31 ∧
      ∀ line ∈ rawLines blankTab.bytes, SameBlanks phraseAB.bytes line :=
  operate3_reports_iff gnuMalloc blankTab phraseAB Mem.init (by decide)

/-- A phrase is not found across two blanks. -/
theorem operate3_misses_blanks :
    ¬ ∃ out, operate3 gnuMalloc blankTab.bytes (34 :: phraseAB.bytes ++ [34]) Mem.init =
      some out ∧ Reports out (PhraseAt blankTab phraseAB) := by
  rintro ⟨out, hout, -, hmem⟩
  have hrun : operate3 gnuMalloc blankTab.bytes (34 :: phraseAB.bytes ++ [34]) Mem.init =
      some [] := by decide +kernel
  rw [hrun] at hout
  cases hout
  have hline : blankTab.lines[0]? = some [97, 32, 9, 98] := by decide +kernel
  have hwords : words isBlank [97, 32, 9, 98] = [(0, [97]), (3, [98])] := by decide +kernel
  have hphrase : words isBlank phraseAB.bytes = [(0, [97]), (2, [98])] := by decide +kernel
  have hfrom : PhraseFrom phraseAB.bytes [97, 32, 9, 98] 0 := by
    rw [phraseFrom_iff, hwords, hphrase]
    exact ⟨rfl, rfl, trivial⟩
  have hfound := (hmem 1 0).2 ⟨0, _, 0, [97], rfl, hline, by rw [hwords]; rfl, hfrom⟩
  cases hfound

end TextSearch
