import Coursework.TextSearch.Tokenizer
import Mathlib.Data.Set.Card

/-! The loop over the lines of a file: what it gives to the body of a query, and how the lines as
they are read correspond to the lines of the text. -/
namespace TextSearch
open Tokens CInt

/-- The lines as `get_string_from_fd` reads them, newlines included. -/
def rawLines : List ℕ → List (List ℕ)
  | [] => []
  | c :: fd =>
    if c = 10 then [10] :: rawLines fd
    else
      match rawLines fd with
      | [] => [[c]]
      | line :: rest => (c :: line) :: rest

theorem rawLines_newline (fd : List ℕ) : rawLines (10 :: fd) = [10] :: rawLines fd := rfl

theorem rawLines_eq_nil {fd : List ℕ} (h : rawLines fd = []) : fd = [] := by
  cases fd with
  | nil => rfl
  | cons c fd =>
    rw [rawLines] at h
    by_cases hc : c = 10
    · rw [if_pos hc] at h
      cases h
    · rw [if_neg hc] at h
      split at h <;> cases h

theorem rawLines_cons {c : ℕ} (hc : c ≠ 10) {fd line : List ℕ} {rest : List (List ℕ)}
    (h : rawLines fd = line :: rest) : rawLines (c :: fd) = (c :: line) :: rest := by
  rw [rawLines, if_neg hc, h]

theorem rawLines_readLine {fd : List ℕ} (h : fd ≠ []) :
    rawLines fd = (readLine fd).1 :: rawLines (readLine fd).2 := by
  induction fd with
  | nil => exact absurd rfl h
  | cons c fd ih =>
    rw [readLine]
    by_cases hc : c = 10
    · rw [if_pos hc, hc]
      rfl
    · rw [if_neg hc]
      by_cases hfd : fd = []
      · subst hfd
        rw [rawLines, if_neg hc]
        rfl
      · exact rawLines_cons hc (ih hfd)

theorem readLine_append (fd : List ℕ) : (readLine fd).1 ++ (readLine fd).2 = fd := by
  induction fd with
  | nil => rfl
  | cons c fd ih =>
    rw [readLine]
    by_cases hc : c = 10
    · rw [if_pos hc]
      rfl
    · rw [if_neg hc]
      exact congrArg (List.cons c) ih

theorem readLine_ne_nil {fd : List ℕ} (h : fd ≠ []) : (readLine fd).1 ≠ [] := by
  cases fd with
  | nil => exact absurd rfl h
  | cons c fd =>
    rw [readLine]
    by_cases hc : c = 10
    · rw [if_pos hc]
      exact List.cons_ne_nil _ _
    · rw [if_neg hc]
      exact List.cons_ne_nil _ _

theorem length_readLine_lt {fd : List ℕ} (h : fd ≠ []) : (readLine fd).2.length < fd.length := by
  have hsum := congrArg List.length (readLine_append fd)
  have hpos := List.length_pos_iff.2 (readLine_ne_nil h)
  rw [List.length_append] at hsum
  omega

theorem null_notMem_readLine {fd : List ℕ} (h0 : 0 ∉ fd) :
    0 ∉ (readLine fd).1 ∧ 0 ∉ (readLine fd).2 := by
  rw [← readLine_append fd, List.mem_append] at h0
  exact not_or.1 h0

theorem myStrlen_eq {line : List ℕ} (h0 : 0 ∉ line) (junk : List ℕ) :
    myStrlen (line ++ 0 :: junk) = line.length := by
  have hrun : run (fun c => decide (c = 0)) (line ++ 0 :: junk) = line := by
    rw [run_append, run_cons, if_pos (by simp), List.append_nil]
    intro c hc
    have hne : c ≠ 0 := fun e => h0 (e ▸ hc)
    simp [hne]
  have htake : (line ++ 0 :: junk).takeWhile (· ≠ 0) = line := by
    refine Eq.trans ?_ hrun
    unfold run
    congr 1
    funext c
    simp
  rw [myStrlen, htake]

theorem getStringFromFd_eq {fd : List ℕ} (h0 : 0 ∉ fd) (dest : List ℕ) :
    ∃ junk, getStringFromFd fd dest =
      ((readLine fd).2, (readLine fd).1 ++ 0 :: junk, (readLine fd).1.length) := by
  have hline := (null_notMem_readLine h0).1
  have hjunk : ∃ junk, overwrite dest ((readLine fd).1 ++
      if (readLine fd).1.getLast? = some 10 then [0, 0] else [0]) =
        (readLine fd).1 ++ 0 :: junk := by
    unfold overwrite
    by_cases hlast : (readLine fd).1.getLast? = some 10
    · rw [if_pos hlast, List.append_assoc]
      exact ⟨_, rfl⟩
    · rw [if_neg hlast, List.append_assoc]
      exact ⟨_, rfl⟩
  obtain ⟨junk, hjunk⟩ := hjunk
  refine ⟨junk, ?_⟩
  unfold getStringFromFd
  dsimp only
  rw [hjunk, myStrlen_eq hline]

/-- The loop over the lines of a file, blank ones left out. -/
def runLines {σ ρ : Type} (f : σ → ℕ → List ℕ → σ × List ρ) :
    σ → ℕ → List (List ℕ) → List ρ
  | _, _, [] => []
  | s, row, line :: rest =>
    if line.headD 0 = 10 then runLines f s (row + 1) rest
    else (f s (row + 1) line).2 ++ runLines f (f s (row + 1) line).1 (row + 1) rest

/-- Every line that is not blank is one that the loop can deal with when it comes to it. -/
def Served {σ ρ : Type} (f : σ → ℕ → List ℕ → σ × List ρ) (ok : σ → List ℕ → Prop) :
    σ → ℕ → List (List ℕ) → Prop
  | _, _, [] => True
  | s, row, line :: rest =>
    if line.headD 0 = 10 then Served f ok s (row + 1) rest
    else ok s line ∧ Served f ok (f s (row + 1) line).1 (row + 1) rest

section Loop
variable {σ ρ : Type} {body : σ → Mem → ℕ → Option (σ × Mem × List ρ)}

/-- A loop that deals with the lines by `f` where `ok` holds comes to its end if and only if the
two counters stay in their range and no line is in its way. -/
theorem lineLoop_eq_some (f : σ → ℕ → List ℕ → σ × List ρ) (ok : σ → List ℕ → Prop)
    (P : Mem → Prop) (hP : ∀ m l, P m → P (m.setBytes .textLine l))
    (hbody : ∀ s m row line junk, line ≠ [] → 0 ∉ line → P m →
      m.bytes .textLine = line ++ 0 :: junk → ∃ m', P m' ∧ ∀ x, body s m row = some x ↔
        ok s line ∧ x = ((f s row line).1, m', (f s row line).2))
    {fuel : ℕ} {fd : List ℕ} {m : Mem} {s : σ} {row cnt : ℕ} {out : List ρ}
    (hfuel : fd.length < fuel) (h0 : 0 ∉ fd) (hm : P m) (hrow : row < 2 ^ 31)
    (hcnt : cnt < 2 ^ 31) :
    lineLoop body fuel fd m s row cnt = some out ↔
      row + (rawLines fd).length < 2 ^ 31 ∧ Served f ok s row (rawLines fd) ∧
        cnt + (runLines f s row (rawLines fd)).length < 2 ^ 31 ∧
        out = runLines f s row (rawLines fd) := by
  induction fuel generalizing fd m s row cnt out with
  | zero => omega
  | succ fuel ih =>
    obtain ⟨junk, hget⟩ := getStringFromFd_eq h0 (m.bytes .textLine)
    rw [lineLoop, hget]
    dsimp only
    by_cases hne : fd = []
    · subst hne
      rw [if_neg (by simp [readLine]), Option.some.injEq]
      exact ⟨fun h => ⟨hrow, trivial, hcnt, h.symm⟩, fun h => h.2.2.2.symm⟩
    · have hline := readLine_ne_nil hne
      obtain ⟨h0line, h0rest⟩ := null_notMem_readLine h0
      have hhead : ((readLine fd).1 ++ 0 :: junk).headD 0 = (readLine fd).1.headD 0 := by
        cases hl : (readLine fd).1 with
        | nil => exact absurd hl hline
        | cons c line => rfl
      have hfuel' : (readLine fd).2.length < fuel :=
        lt_of_lt_of_le (length_readLine_lt hne) (Nat.le_of_lt_succ hfuel)
      rw [if_pos (List.length_pos_iff.2 hline), hhead, rawLines_readLine hne, runLines, Served,
        List.length_cons]
      simp only [Option.bind_eq_bind]
      by_cases hnext : row + 1 < 2 ^ 31
      · rw [counter_of_lt hnext, Option.bind_some]
        by_cases hblank : (readLine fd).1.headD 0 = 10
        · rw [if_pos hblank, if_pos hblank, if_pos hblank, ih hfuel' h0rest (hP _ _ hm) hnext hcnt,
            Nat.add_right_comm row 1, Nat.add_assoc]
        · rw [if_neg hblank, if_neg hblank, if_neg hblank]
          have hbytes : (m.setBytes .textLine ((readLine fd).1 ++ 0 :: junk)).bytes .textLine =
              (readLine fd).1 ++ 0 :: junk := Mem.setBytes_self _ _ _
          obtain ⟨m', hm', hcall⟩ := hbody s _ (row + 1) _ junk hline h0line (hP _ _ hm) hbytes
          by_cases hok : ok s (readLine fd).1
          · rw [(hcall _).2 ⟨hok, rfl⟩, Option.bind_some, and_iff_right hok, List.length_append]
            dsimp only
            by_cases hfull : cnt + (f s (row + 1) (readLine fd).1).2.length < 2 ^ 31
            · rw [counter_of_lt hfull, Option.bind_some, Option.bind_eq_some_iff]
              constructor
              · rintro ⟨rest, hrest, hout⟩
                obtain ⟨hrows, hserved, hcount, rfl⟩ :=
                  (ih hfuel' h0rest hm' hnext hfull).1 hrest
                refine ⟨by omega, hserved, by omega, ?_⟩
                exact (Option.some.inj hout).symm
              · rintro ⟨hrows, hserved, hcount, hout⟩
                refine ⟨_, (ih hfuel' h0rest hm' hnext hfull).2 ⟨by omega, hserved, by omega, rfl⟩,
                  ?_⟩
                rw [hout]
            · rw [counter_of_le (Nat.le_of_not_lt hfull), Option.bind_none]
              exact iff_of_false (fun h => by cases h) fun h => by omega
          · rw [Option.eq_none_iff_forall_ne_some.2 fun x hx => hok ((hcall x).1 hx).1,
              Option.bind_none]
            exact iff_of_false (fun h => by cases h) fun h => hok h.2.1.1
      · rw [counter_of_le (Nat.le_of_not_lt hnext), Option.bind_none]
        exact iff_of_false (fun h => by cases h) fun h => by omega

theorem served_iff {f : Unit → ℕ → List ℕ → Unit × List ρ} {ok : List ℕ → Prop} {row : ℕ}
    {ls : List (List ℕ)} : Served f (fun _ => ok) () row ls ↔
      ∀ line ∈ ls, line.headD 0 ≠ 10 → ok line := by
  induction ls generalizing row with
  | nil => exact ⟨fun _ _ h => absurd h List.not_mem_nil, fun _ => trivial⟩
  | cons line rest ih =>
    rw [Served, List.forall_mem_cons]
    by_cases hblank : line.headD 0 = 10
    · rw [if_pos hblank, ih]
      exact ⟨fun h => ⟨fun hne => absurd hblank hne, h⟩, fun h => h.2⟩
    · rw [if_neg hblank, ih]
      exact ⟨fun h => ⟨fun _ => h.1, h.2⟩, fun h => ⟨h.1 hblank, h.2⟩⟩

theorem runLines_eq_flatMap (g : ℕ → List ℕ → List ρ) (row : ℕ) (ls : List (List ℕ)) :
    runLines (fun (_ : Unit) r line => ((), g r line)) () row ls =
      (ls.zipIdx row).flatMap fun (line, k) =>
        if line.headD 0 = 10 then [] else g (k + 1) line := by
  induction ls generalizing row with
  | nil => rfl
  | cons line rest ih =>
    rw [runLines, List.zipIdx_cons, List.flatMap_cons, ← ih]
    dsimp only
    by_cases hblank : line.headD 0 = 10
    · rw [if_pos hblank, if_pos hblank, List.nil_append]
    · rw [if_neg hblank, if_neg hblank]

end Loop

/-- The lines of a text. -/
def Text.lines (t : Text) : List (List ℕ) := t.bytes.splitOn 10

/-- A line without its newline. -/
def chomp (raw : List ℕ) : List ℕ := raw.filter (· ≠ 10)

theorem mem_rawLines {fd raw : List ℕ} (h : raw ∈ rawLines fd) :
    raw = chomp raw ++ [10] ∨ (raw = chomp raw ∧ raw ≠ []) := by
  induction fd generalizing raw with
  | nil => cases h
  | cons c fd ih =>
    by_cases hc : c = 10
    · subst hc
      rw [rawLines_newline] at h
      obtain rfl | h := List.mem_cons.1 h
      · exact .inl rfl
      · exact ih h
    · have hchomp : ∀ l, chomp (c :: l) = c :: chomp l := by
        intro l
        simp [chomp, hc]
      cases hl : rawLines fd with
      | nil =>
        rw [rawLines, if_neg hc, hl] at h
        rw [List.mem_singleton.1 h, hchomp]
        exact .inr ⟨rfl, List.cons_ne_nil _ _⟩
      | cons line rest =>
        rw [rawLines_cons hc hl] at h
        obtain rfl | h := List.mem_cons.1 h
        · rw [hchomp, List.cons_append, List.cons.injEq, List.cons.injEq, and_iff_right rfl,
            and_iff_right rfl]
          exact (ih (hl ▸ List.mem_cons_self)).imp id fun h' => ⟨h'.1, List.cons_ne_nil _ _⟩
        · exact ih (hl ▸ List.mem_cons_of_mem _ h)

/-- The lines of a text are those that are read, and an empty one after a last newline. -/
theorem splitOn_eq (fd : List ℕ) :
    fd.splitOn 10 = (rawLines fd).map chomp ∨ fd.splitOn 10 = (rawLines fd).map chomp ++ [[]] := by
  induction fd with
  | nil => exact .inr rfl
  | cons c fd ih =>
    rw [List.splitOn_cons_eq_if_modifyHead]
    by_cases hc : c = 10
    · subst hc
      have hnil : chomp [10] = [] := rfl
      rw [if_pos (beq_self_eq_true 10), rawLines_newline, List.map_cons, hnil, List.cons_append]
      exact ih.imp (congrArg _) (congrArg _)
    · have hbeq : ¬(c == 10) = true := by simpa using hc
      have hchomp : ∀ l, chomp (c :: l) = c :: chomp l := by
        intro l
        simp [chomp, hc]
      rw [if_neg hbeq]
      cases hl : rawLines fd with
      | nil =>
        have hfd := rawLines_eq_nil hl
        subst hfd
        rw [rawLines, if_neg hc]
        exact .inl (by simp [rawLines, chomp, hc])
      | cons line rest =>
        rw [rawLines_cons hc hl, List.map_cons, hchomp]
        rw [hl, List.map_cons] at ih
        obtain h | h := ih
        · rw [h]
          exact .inl rfl
        · rw [h]
          exact .inr rfl

theorem words_chomp {p : ℕ → Bool} (hp : p 10 = true) {fd raw : List ℕ} (h : raw ∈ rawLines fd) :
    words p (chomp raw) = words p raw := by
  obtain h | ⟨h, -⟩ := mem_rawLines h
  · conv_rhs => rw [h]
    exact (words_append_delim _ hp).symm
  · rw [← h]

theorem chomp_of_head {fd raw : List ℕ} (h : raw ∈ rawLines fd) (hhead : raw.headD 0 = 10) :
    chomp raw = [] := by
  have hnot : ∀ c l, chomp raw ≠ c :: l := by
    intro c l e
    have hmem : c ∈ chomp raw := e ▸ List.mem_cons_self
    have hc : c ≠ 10 := by simpa using (List.mem_filter.1 hmem).2
    obtain h' | ⟨h', -⟩ := mem_rawLines h
    · rw [h', e] at hhead
      exact hc hhead
    · rw [h', e] at hhead
      exact hc hhead
  cases hl : chomp raw with
  | nil => rfl
  | cons c l => exact absurd hl (hnot c l)

/-- What depends on the text of the lines only, and finds nothing in an empty line, can be
collected over the lines as they are read. -/
theorem flatMap_lines {ρ : Type} (g : ℕ → List ℕ → List ρ) (hg : ∀ k, g k [] = []) (fd : List ℕ) :
    ((fd.splitOn 10).zipIdx).flatMap (fun (line, k) => g (k + 1) line) =
      ((rawLines fd).zipIdx).flatMap fun (raw, k) => g (k + 1) (chomp raw) := by
  have hmap : (((rawLines fd).map chomp).zipIdx).flatMap (fun (line, k) => g (k + 1) line) =
      ((rawLines fd).zipIdx).flatMap fun (raw, k) => g (k + 1) (chomp raw) := by
    rw [List.zipIdx_map, List.flatMap_map]
    rfl
  obtain h | h := splitOn_eq fd
  · rw [h, hmap]
  · rw [h, List.zipIdx_append, List.flatMap_append, hmap]
    simp [hg]

/-- What can be said of the words of a line, and is not true of no words, can be said of a line
as it is read. -/
theorem exists_line_iff {p : ℕ → Bool} (hp : p 10 = true) {G : List (ℕ × List ℕ) → Prop}
    (hG : ¬ G []) (t : Text) (k : ℕ) :
    (∃ line, t.lines[k]? = some line ∧ G (words p line)) ↔
      ∃ raw, (rawLines t.bytes)[k]? = some raw ∧ G (words p raw) := by
  have hmap : ∀ line, ((rawLines t.bytes).map chomp)[k]? = some line ↔
      ∃ raw, (rawLines t.bytes)[k]? = some raw ∧ chomp raw = line := by
    intro line
    rw [List.getElem?_map, Option.map_eq_some_iff]
  have hraw : ∀ {raw}, (rawLines t.bytes)[k]? = some raw → words p (chomp raw) = words p raw :=
    fun hk => words_chomp hp (List.mem_of_getElem? hk)
  constructor
  · rintro ⟨line, hk, hg⟩
    have hk' : ((rawLines t.bytes).map chomp)[k]? = some line := by
      obtain h | h := splitOn_eq t.bytes
      · rwa [Text.lines, h] at hk
      · rw [Text.lines, h] at hk
        by_cases hlt : k < ((rawLines t.bytes).map chomp).length
        · rwa [List.getElem?_append_left hlt] at hk
        · have hmem := hk
          rw [List.getElem?_append_right (Nat.le_of_not_lt hlt)] at hmem
          have hnil := List.mem_singleton.1 (List.mem_of_getElem? hmem)
          rw [hnil] at hg
          exact absurd hg hG
    obtain ⟨raw, hk'', rfl⟩ := (hmap line).1 hk'
    exact ⟨raw, hk'', hraw hk'' ▸ hg⟩
  · rintro ⟨raw, hk, hg⟩
    have hk' := (hmap (chomp raw)).2 ⟨raw, hk, rfl⟩
    refine ⟨chomp raw, ?_, (hraw hk).symm ▸ hg⟩
    obtain h | h := splitOn_eq t.bytes
    · rwa [Text.lines, h]
    · have hlt : k < ((rawLines t.bytes).map chomp).length :=
        (List.getElem?_eq_some_iff.1 hk').1
      rw [Text.lines, h, List.getElem?_append_left hlt]
      exact hk'

theorem words_of_blank {p : ℕ → Bool} (hp : p 10 = true) {fd raw : List ℕ}
    (h : raw ∈ rawLines fd) (hhead : raw.headD 0 = 10) : words p raw = [] := by
  rw [← words_chomp hp h, chomp_of_head h hhead]
  rfl

theorem runLines_words {ρ : Type} {p : ℕ → Bool} (hp : p 10 = true) (g : ℕ → List ℕ → List ρ)
    (hg : ∀ r line, words p line = [] → g r line = []) (fd : List ℕ) :
    runLines (fun (_ : Unit) r line => ((), g r line)) () 0 (rawLines fd) =
      (rawLines fd).zipIdx.flatMap fun (line, k) => g (k + 1) line := by
  rw [runLines_eq_flatMap]
  refine List.flatMap_congr ?_
  rintro ⟨line, k⟩ hmem
  have hline := List.mem_of_getElem? (List.mem_zipIdx_iff_getElem?.1 hmem)
  dsimp only
  by_cases hhead : line.headD 0 = 10
  · rw [if_pos hhead, hg _ _ (words_of_blank hp hline hhead)]
  · rw [if_neg hhead]

/-- The pointer to token `a` of a line. -/
theorem getD_textLine {l : List (ℕ × List ℕ)} {a : ℕ} (ha : a < l.length) :
    (l.map fun t => (⟨.textLine, t.1⟩ : Ptr)).getD a textStart =
      ⟨.textLine, (l.getD a (0, [])).1⟩ := by
  rw [List.getD_eq_getElem?_getD, List.getD_eq_getElem?_getD, List.getElem?_map,
    List.getElem?_eq_getElem ha]
  rfl

/-- A step that needs room and then goes on. -/
theorem bind_ite_eq_some {α β : Type} {c : Prop} [Decidable c] {a : α} {f : α → Option β} {x : β} :
    ((if c then some a else none).bind f = some x) ↔ c ∧ f a = some x := by
  by_cases h : c <;> simp [h]

theorem tokenList_line (room : ℕ) {m : Mem} {line junk q junk' delimiters : List ℕ}
    (hne : line ≠ []) (h0 : 0 ∉ line) (hbytes : m.bytes .textLine = line ++ 0 :: junk)
    (hq : 0 ∉ q) (hquery : m.bytes .query = mask delimiters q ++ 0 :: junk') :
    ∃ m', tokenList room blanks m textStart =
        (if (tokens (isDelimiter blanks) line).length ≤ room then
          some (m', (tokens (isDelimiter blanks) line).map fun t => ⟨.textLine, t.1⟩) else none) ∧
      m'.bytes .query = mask delimiters q ++ 0 :: junk' ∧
      ∀ t ∈ tokens (isDelimiter blanks) line, ∀ u ∈ tokens (isDelimiter delimiters) q,
        m'.same ⟨.textLine, t.1⟩ ⟨.query, u.1⟩ = decide (Same t.2 u.2) := by
  obtain ⟨m', hcall, hline, hother⟩ :=
    tokenList_eq room (show 0 ∉ blanks by decide) hne h0 hbytes
  have hquery' : m'.bytes .query = mask delimiters q ++ 0 :: junk' := by
    rw [hother .query (by decide), hquery]
  refine ⟨m', hcall, hquery', fun t ht u hu => ?_⟩
  obtain ⟨hs, hs0⟩ := isString_token h0 hline ht
  obtain ⟨hs', hs0'⟩ := isString_token hq hquery' hu
  exact decide_eq_decide.2 (myStrcmp_eq_zero hs hs' hs0 hs0')

/-- The rows and columns of a report are those of `P`, each once and in text order. -/
structure Reports (out : List (ℕ × ℕ)) (P : ℕ → ℕ → Prop) : Prop where
  order : out.Pairwise fun a b => a.1 < b.1 ∨ a.1 = b.1 ∧ a.2 < b.2
  mem : ∀ r c, (r, c) ∈ out ↔ P r c

theorem Reports.length_eq {out : List (ℕ × ℕ)} {P : ℕ → ℕ → Prop} (h : Reports out P) :
    out.length = {x : ℕ × ℕ | P x.1 x.2}.ncard := by
  have hnodup : out.Nodup := by
    refine h.order.imp ?_
    rintro a _ hlt rfl
    omega
  have hset : {x : ℕ × ℕ | P x.1 x.2} = (out.toFinset : Set (ℕ × ℕ)) := by
    ext ⟨r, c⟩
    rw [List.coe_toFinset]
    exact (h.mem r c).symm
  rw [hset, Set.ncard_coe_finset, List.toFinset_card_of_nodup hnodup]

/-- A list that is a report of `P`, and that the program makes under a condition and otherwise
not, is made and reports `Q` if and only if the condition holds and `P` is `Q`. -/
theorem exists_reports_iff {result : Option (List (ℕ × ℕ))} {found : List (ℕ × ℕ)} {ok : Prop}
    {P Q : ℕ → ℕ → Prop}
    (hresult : ∀ out, result = some out ↔ ok ∧ found.length < 2 ^ 31 ∧ out = found)
    (hfound : Reports found P) :
    (∃ out, result = some out ∧ Reports out Q) ↔
      ok ∧ {x : ℕ × ℕ | Q x.1 x.2}.ncard < 2 ^ 31 ∧ ∀ r c, P r c ↔ Q r c := by
  constructor
  · rintro ⟨out, hout, hreports⟩
    obtain ⟨hok, hlen, rfl⟩ := (hresult out).1 hout
    rw [hreports.length_eq] at hlen
    exact ⟨hok, hlen, fun r c => (hfound.mem r c).symm.trans (hreports.mem r c)⟩
  · rintro ⟨hok, hlen, hiff⟩
    have hreports : Reports found Q :=
      ⟨hfound.order, fun r c => (hfound.mem r c).trans (hiff r c)⟩
    rw [← hreports.length_eq] at hlen
    exact ⟨found, (hresult found).2 ⟨hok, hlen, rfl⟩, hreports⟩

/-- The rows of a report are those of `P`, each once and in text order. -/
structure ReportsRows (out : List ℕ) (P : ℕ → Prop) : Prop where
  order : out.Pairwise (· < ·)
  mem : ∀ r, r ∈ out ↔ P r

theorem rows_iff {lines : List (List ℕ)} {G H : ℕ → List ℕ → Prop} :
    (∀ r, (∃ k line, r = k + 1 ∧ lines[k]? = some line ∧ H k line) ↔
      ∃ k line, r = k + 1 ∧ lines[k]? = some line ∧ G k line) ↔
      ∀ k line, lines[k]? = some line → (H k line ↔ G k line) := by
  have hline : ∀ {P : ℕ → List ℕ → Prop} {k : ℕ} {line : List ℕ}, lines[k]? = some line →
      ((∃ k' line', k + 1 = k' + 1 ∧ lines[k']? = some line' ∧ P k' line') ↔ P k line) := by
    intro P k line hk
    constructor
    · rintro ⟨k', line', hk', hline', h⟩
      cases Nat.succ_injective hk'
      rw [hk] at hline'
      cases hline'
      exact h
    · exact fun h => ⟨k, line, rfl, hk, h⟩
  constructor
  · intro h k line hk
    rw [← hline (P := H) hk, h (k + 1), hline hk]
  · intro h r
    refine exists_congr fun k => exists_congr fun line => and_congr_right fun _ => ?_
    exact and_congr_right fun hk => h k line hk

/-- The report of the columns that `g` finds in each line. -/
def collect (g : List ℕ → List ℕ) (lines : List (List ℕ)) : List (ℕ × ℕ) :=
  lines.zipIdx.flatMap fun (line, k) => (g line).map fun c => (k + 1, c)

theorem pairwise_zipIdx {β : Type} (l : List β) : l.zipIdx.Pairwise fun a b => a.2 < b.2 := by
  rw [← List.pairwise_map (f := Prod.snd) (R := (· < ·)), List.zipIdx_map_snd]
  exact List.pairwise_lt_range'

theorem collect_reports {g : List ℕ → List ℕ} (hg : ∀ line, (g line).Pairwise (· < ·))
    (lines : List (List ℕ)) : Reports (collect g lines) fun r c =>
      ∃ k line, r = k + 1 ∧ lines[k]? = some line ∧ c ∈ g line := by
  refine ⟨?_, fun r c => ?_⟩
  · unfold collect
    rw [List.pairwise_flatMap]
    constructor
    · rintro ⟨line, k⟩ -
      rw [List.pairwise_map]
      exact (hg line).imp fun h => .inr ⟨rfl, h⟩
    · refine (pairwise_zipIdx lines).imp ?_
      rintro ⟨line, k⟩ ⟨line', k'⟩ hlt x hx y hy
      obtain ⟨c, -, rfl⟩ := List.mem_map.1 hx
      obtain ⟨c', -, rfl⟩ := List.mem_map.1 hy
      exact .inl (Nat.succ_lt_succ hlt)
  · unfold collect
    rw [List.mem_flatMap]
    constructor
    · rintro ⟨⟨line, k⟩, hmem, hx⟩
      obtain ⟨c', hc', he⟩ := List.mem_map.1 hx
      rw [Prod.mk.injEq] at he
      exact ⟨k, line, he.1.symm, List.mem_zipIdx_iff_getElem?.1 hmem, he.2 ▸ hc'⟩
    · rintro ⟨k, line, rfl, hline, hc⟩
      exact ⟨(line, k), List.mem_zipIdx_iff_getElem?.2 hline, List.mem_map.2 ⟨c, hc, rfl⟩⟩

end TextSearch
