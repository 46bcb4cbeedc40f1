import Coursework.TextSearch.Lines

/-! `operate_1`: it reports every occurrence of the query as a word of the text. -/
namespace TextSearch
open Tokens

/-- Blanks and newlines end a word. -/
abbrev isBlank : ℕ → Bool := isDelimiter blanks

theorem null_notMem_blanks : 0 ∉ blanks := by decide

section Line
variable {junk done todo q junk' : List ℕ} {m : Mem}

/-- The loop over the tokens of a line reports those that are the query. -/
theorem matchTokens_eq (row fuel : ℕ) (h : Cut blanks .textLine junk done todo m)
    (str : Option Ptr) (hstr : str.getD m.currentPointer = ⟨.textLine, done.length⟩)
    (hquery : m.bytes .query = q ++ 0 :: junk') (hq : 0 ∉ q) (hfuel : todo.length < fuel) :
    ∃ m', matchTokens row fuel (myStrtok m str blanks).1 (myStrtok m str blanks).2 = some (m',
        ((tokensFrom isBlank true done.length todo).filter fun t => decide (Same t.2 q)).map
          fun t => (row, t.1)) ∧ m'.bytes .query = q ++ 0 :: junk' := by
  induction fuel generalizing m done todo str with
  | zero => omega
  | succ fuel ih =>
    by_cases hne : todo = []
    · subst hne
      rw [h.myStrtok_nil str hstr]
      exact ⟨_, rfl, hquery⟩
    · obtain ⟨m₁, w, done₁, todo₁, hcall, hcut, -, hptr, htokens, hw, hw0, hother, hlt, -⟩ :=
        h.myStrtok_cons null_notMem_blanks hne str hstr
      have hquery₁ : m₁.bytes .query = q ++ 0 :: junk' := by
        rw [hother .query (by decide), hquery]
      obtain ⟨m', hrest, hquery'⟩ := ih hcut none hptr hquery₁ (by omega)
      have hsame : m₁.same ⟨.textLine, done.length⟩ queryStart = decide (Same w q) := by
        have hqs : IsString (m₁.from queryStart) q := ⟨junk', hquery₁⟩
        exact decide_eq_decide.2 (myStrcmp_eq_zero hw hqs hw0 hq)
      refine ⟨m', ?_, hquery'⟩
      rw [hcall, htokens, List.filter_cons]
      dsimp only
      rw [matchTokens, hsame]
      dsimp only
      rw [hrest, Option.map_some]
      by_cases hwq : Same w q
      · rw [if_pos (decide_eq_true hwq), if_pos (decide_eq_true hwq)]
        rfl
      · rw [if_neg (by simpa using hwq), if_neg (by simpa using hwq)]
        rfl

theorem operate1Body_eq {line : List ℕ} (row : ℕ) (h0 : 0 ∉ line)
    (hquery : m.bytes .query = q ++ 0 :: junk') (hq : 0 ∉ q)
    (hbytes : m.bytes .textLine = line ++ 0 :: junk) :
    ∃ m', m'.bytes .query = q ++ 0 :: junk' ∧ ∀ x, operate1Body () m row = some x ↔ True ∧
      x = ((), m',
        ((tokens isBlank line).filter fun t => decide (Same t.2 q)).map fun t => (row, t.1)) := by
  have hcut : Cut blanks .textLine junk [] line m := ⟨hbytes, h0⟩
  have hlen : line.length ≤ ((myStrtok m (some textStart) blanks).1.bytes .textLine).length := by
    by_cases hne : line = []
    · simp [hne]
    · obtain ⟨m₁, w, done₁, todo₁, hcall, -, -, -, -, -, -, -, -, hlen⟩ :=
        hcut.myStrtok_cons null_notMem_blanks hne (some textStart) rfl
      rw [hcall, hlen, hbytes, List.length_append]
      exact Nat.le_add_right _ _
  obtain ⟨m', hrun, hquery'⟩ := matchTokens_eq row
    (((myStrtok m (some textStart) blanks).1.bytes .textLine).length + 2) hcut (some textStart) rfl
    hquery hq (by omega)
  refine ⟨m', hquery', fun x => ?_⟩
  unfold operate1Body
  dsimp only
  rw [hrun, true_and]
  exact Option.some_inj.trans eq_comm

end Line

/-- The columns of the words of a line that are the query. -/
def columnsOf (q line : List ℕ) : List ℕ :=
  ((words isBlank line).filter fun t => decide (Same t.2 q)).map Prod.fst

theorem mem_columnsOf {q line : List ℕ} {c : ℕ} :
    c ∈ columnsOf q line ↔ ∃ w, WordAt isBlank line c w ∧ Same w q := by
  unfold columnsOf
  rw [List.mem_map]
  constructor
  · rintro ⟨⟨i, w⟩, hmem, rfl⟩
    rw [List.mem_filter, mem_words] at hmem
    exact ⟨w, hmem.1, of_decide_eq_true hmem.2⟩
  · rintro ⟨w, hw, hsame⟩
    exact ⟨(c, w), List.mem_filter.2 ⟨mem_words.2 hw, decide_eq_true hsame⟩, rfl⟩

theorem pairwise_columnsOf (q line : List ℕ) : (columnsOf q line).Pairwise (· < ·) := by
  unfold columnsOf
  rw [List.pairwise_map]
  exact (pairwise_words line).sublist List.filter_sublist

theorem filter_tokens {q : List ℕ} (hq : q ≠ []) (line : List ℕ) :
    ((tokens isBlank line).filter fun t => decide (Same t.2 q)) =
      (words isBlank line).filter fun t => decide (Same t.2 q) := by
  unfold words
  rw [List.filter_filter]
  refine List.filter_congr fun t _ => ?_
  by_cases hsame : Same t.2 q
  · have hne : t.2 ≠ [] := fun e => hq (hsame.nil_iff.1 e)
    simp [hsame, hne]
  · simp [hsame]

theorem operate1_eq_some (t q : Text) (m : Mem) (hq : q.bytes ≠ []) (out : List (ℕ × ℕ)) :
    operate1 t.bytes (m.load q.bytes) = some out ↔ (rawLines t.bytes).length < 2 ^ 31 ∧
      (collect (columnsOf q.bytes) t.lines).length < 2 ^ 31 ∧
      out = collect (columnsOf q.bytes) t.lines := by
  have hload : (m.load q.bytes).bytes .query = q.bytes ++ 0 :: [] := Mem.setBytes_self _ _ _
  have hloop := @lineLoop_eq_some _ _ operate1Body
    (fun _ row line => ((), ((tokens isBlank line).filter
      fun t => decide (Same t.2 q.bytes)).map fun t => (row, t.1)))
    (fun _ _ => True) (fun m => m.bytes .query = q.bytes ++ 0 :: [])
    (fun m l hm => by rw [Mem.setBytes_of_ne m l (by decide), hm])
    (fun _ m row line junk _ h0 hm hbytes => operate1Body_eq row h0 hm q.no_null hbytes)
    _ _ _ () 0 0 out (Nat.lt_succ_self t.bytes.length) t.no_null hload (by decide) (by decide)
  have hfilter : ∀ (r : ℕ) (line : List ℕ), ((tokens isBlank line).filter
      fun t => decide (Same t.2 q.bytes)).map (fun t => (r, t.1)) =
        (columnsOf q.bytes line).map fun c => (r, c) := by
    intro r line
    rw [filter_tokens hq, columnsOf, List.map_map]
    rfl
  have hcollect : runLines (fun (_ : Unit) r line => ((), (columnsOf q.bytes line).map
      fun c => (r, c))) () 0 (rawLines t.bytes) = collect (columnsOf q.bytes) t.lines := by
    rw [runLines_words (p := isBlank) (by decide)
      (fun r line => (columnsOf q.bytes line).map fun c => (r, c))]
    · unfold collect Text.lines
      rw [flatMap_lines (fun r line => (columnsOf q.bytes line).map fun c => (r, c)) fun _ => rfl]
      refine List.flatMap_congr ?_
      rintro ⟨raw, k⟩ hmem
      have hraw := List.mem_of_getElem? (List.mem_zipIdx_iff_getElem?.1 hmem)
      dsimp only
      rw [columnsOf, columnsOf, words_chomp (by decide) hraw]
    · intro r line hline
      rw [columnsOf, hline]
      rfl
  simp only [hfilter] at hloop
  rw [hcollect, and_iff_right (served_iff.2 fun _ _ _ => trivial), Nat.zero_add,
    Nat.zero_add] at hloop
  exact hloop

/-- The word of the query stands in row `r` of the text at byte `c`. -/
def Occurs (t q : Text) (r c : ℕ) : Prop :=
  ∃ k line w, r = k + 1 ∧ t.lines[k]? = some line ∧ WordAt isBlank line c w ∧ Same w q.bytes

/-- `operate_1` reports exactly the words of the text that are the query, each once and in text
order, if and only if neither the lines nor these words are more than its counters can count;
rows are counted from 1, columns from 0. -/
theorem operate1_reports_iff (t q : Text) (m : Mem) (hq : q.bytes ≠ []) :
    (∃ out, operate1 t.bytes (m.load q.bytes) = some out ∧ Reports out (Occurs t q)) ↔
      (rawLines t.bytes).length < 2 ^ 31 ∧
        {x : ℕ × ℕ | Occurs t q x.1 x.2}.ncard < 2 ^ 31 := by
  rw [exists_reports_iff (operate1_eq_some t q m hq)
    (collect_reports (pairwise_columnsOf q.bytes) t.lines)]
  refine and_congr_right fun _ => and_iff_left fun r c => ?_
  constructor
  · rintro ⟨k, line, hr, hline, hc⟩
    obtain ⟨w, hw, hsame⟩ := mem_columnsOf.1 hc
    exact ⟨k, line, w, hr, hline, hw, hsame⟩
  · rintro ⟨k, line, w, hr, hline, hw, hsame⟩
    exact ⟨k, line, hr, hline, mem_columnsOf.2 ⟨w, hw, hsame⟩⟩

/-- The memory before the first query. -/
def Mem.init : Mem := ⟨fun _ => [], textStart⟩

/-- "ab  AB", a blank line, and " cd aB" without a newline. -/
def threeLines : Text :=
  ⟨[97, 98, 32, 32, 65, 66, 10, 10, 32, 99, 100, 32, 97, 66], by decide⟩

/-- "Ab". -/
def wordAb : Text := ⟨[65, 98], by decide⟩

theorem operate1_reports_threeLines :
    (∃ out, operate1 threeLines.bytes (Mem.init.load wordAb.bytes) = some out ∧
      Reports out (Occurs threeLines wordAb)) ↔
      (rawLines threeLines.bytes).length < 2 ^ 31 ∧
        {x : ℕ × ℕ | Occurs threeLines wordAb x.1 x.2}.ncard < 2 ^ 31 :=
  operate1_reports_iff threeLines wordAb Mem.init (by decide)

example : operate1 threeLines.bytes (Mem.init.load wordAb.bytes) =
    some [(1, 0), (1, 4), (3, 4)] := by decide

theorem null_notMem_blankLines (n : ℕ) : 0 ∉ List.replicate n 10 ++ [97, 98] := by
  rw [List.mem_append, List.mem_replicate]
  rintro (⟨-, h⟩ | h)
  · cases h
  · revert h
    decide

/-- Blank lines, and then "ab". -/
def blankLines (n : ℕ) : Text := ⟨List.replicate n 10 ++ [97, 98], null_notMem_blankLines n⟩

theorem length_rawLines_blankLines (n : ℕ) :
    (rawLines (blankLines n).bytes).length = n + 1 := by
  change (rawLines (List.replicate n 10 ++ [97, 98])).length = n + 1
  induction n with
  | zero => rfl
  | succ n ih => rw [List.replicate_succ, List.cons_append, rawLines_newline, List.length_cons, ih]

/-- The row of the last line is no `int`. -/
theorem operate1_row_overflows :
    ¬ ∃ out, operate1 (blankLines (2 ^ 31 - 1)).bytes (Mem.init.load wordAb.bytes) = some out ∧
      Reports out (Occurs (blankLines (2 ^ 31 - 1)) wordAb) := by
  rintro ⟨out, hout, -⟩
  obtain ⟨hrows, -⟩ := (operate1_eq_some _ wordAb Mem.init (by decide) out).1 hout
  rw [length_rawLines_blankLines] at hrows
  omega

end TextSearch
