import Coursework.Lexer.Scanner

/-! What `lexical` makes of a text: the tokens are its parts without the blanks, up to the first
character that it rejects. -/
namespace Lexer
open Pieces

variable {u : Tables} {code : List Char} {idx fuel : ℕ}

def notBlank (c : Char) : Bool := !decide (c ∈ blanks)

/-- A token of a text: a maximal run of digits or letters, or a symbol. -/
inductive IsToken (digit letter : Char → Bool) (code : List Char) (i : ℕ) :
    Kind → List Char → Prop
  | number {w} : MaximalRun digit code i w → IsToken digit letter code i .number w
  | word {kind w} : MaximalRun letter code i w → IsWord kind w → IsToken digit letter code i kind w
  | symbol {kind c} : At code i [c] → IsSymbol kind c → IsToken digit letter code i kind [c]

/-- The tokens in `ps`, with their positions, are all that stands in a text up to `idx`, and no run
goes on from there. -/
structure Scanned (u : Tables) (code : List Char) (idx : ℕ) (ps : List (ℕ × Kind × List Char)) :
    Prop where
  le : idx ≤ code.length
  covers : Covers notBlank code idx (ps.map fun q => (q.1, q.2.2))
  token : ∀ q ∈ ps, IsToken u.isdigit u.isalpha code q.1 q.2.1 q.2.2
  bound : ∀ c d, 0 < idx → code[idx - 1]? = some c → code[idx]? = some d →
    (u.isdigit c = true → u.isdigit d = false) ∧ (u.isalpha c = true → u.isalpha d = false)

def entries (ps : List (ℕ × Kind × List Char)) : List Entry := ps.map fun q => .pair q.2.1 q.2.2

/-- What `lexical` takes: a tab is not among it. -/
def accepts (u : Tables) (c : Char) : Bool :=
  u.isdigit c || u.isalpha c || c == ' ' || c == '\n' || isSymbol c

variable {ps : List (ℕ × Kind × List Char)}

theorem Tables.isdigit_eq_false {c : Char} (h : u.isalpha c = true) : u.isdigit c = false := by
  by_contra hd
  rw [u.not_isalpha c (by simpa using hd)] at h
  cases h

theorem notBlank_of_isdigit {c : Char} (h : u.isdigit c = true) : notBlank c = true := by
  by_contra hb
  rw [u.not_isdigit c (.inl (by simpa [notBlank] using hb))] at h
  cases h

theorem notBlank_of_isalpha {c : Char} (h : u.isalpha c = true) : notBlank c = true := by
  by_contra hb
  rw [u.not_isalpha_symbol c (.inl (by simpa [notBlank] using hb))] at h
  cases h

theorem notBlank_of_isSymbol {c : Char} (h : isSymbol c = true) : notBlank c = true := by
  by_contra hb
  have hmem : c ∈ blanks := by simpa [notBlank] using hb
  simp only [blanks, List.mem_cons, List.not_mem_nil, or_false] at hmem
  obtain rfl | rfl | rfl := hmem <;> cases h

theorem scanned_zero (u : Tables) (code : List Char) : Scanned u code 0 [] :=
  ⟨Nat.zero_le _, covers_zero, by simp, fun _ _ h => absurd h (Nat.lt_irrefl 0)⟩

section Steps
variable {c : Char}

theorem Scanned.run (h : Scanned u code idx ps) {p : Char → Bool} {kind : Kind} {w : List Char}
    (hw : MaximalRun p code idx w) (hp : ∀ c, p c = true → notBlank c = true)
    (htoken : IsToken u.isdigit u.isalpha code idx kind w)
    (hclass : ∀ c d, p c = true → p d = false →
      (u.isdigit c = true → u.isdigit d = false) ∧ (u.isalpha c = true → u.isalpha d = false)) :
    Scanned u code (idx + w.length) (ps ++ [(idx, kind, w)]) where
  le := hw.slice.le hw.ne_nil
  covers := by
    rw [List.map_append]
    exact h.covers.snoc hw.slice fun c hc => hp c (hw.all c hc)
  token q hq := by
    obtain hq | hq := List.mem_append.1 hq
    · exact h.token q hq
    · rw [List.mem_singleton.1 hq]
      exact htoken
  bound c d _ hc hd := by
    have hpos := hw.length_pos
    exact hclass c d (hw.of_getElem? (by omega) (by omega) hc) (hw.after d hd)

theorem bound_of_plain (hc : code[idx]? = some c) (hdigit : u.isdigit c = false)
    (halpha : u.isalpha c = false) (a d : Char) (ha : code[idx + 1 - 1]? = some a) :
    (u.isdigit a = true → u.isdigit d = false) ∧ (u.isalpha a = true → u.isalpha d = false) := by
  rw [Nat.add_sub_cancel, hc] at ha
  cases ha
  rw [hdigit, halpha]
  exact ⟨fun h => absurd h Bool.false_ne_true, fun h => absurd h Bool.false_ne_true⟩

theorem Scanned.blank (h : Scanned u code idx ps) (hc : code[idx]? = some c) (hb : c ∈ blanks) :
    Scanned u code (idx + 1) ps where
  le := (List.getElem?_eq_some_iff.1 hc).1
  covers := h.covers.skip hc (by simp [notBlank, hb])
  token := h.token
  bound a d _ ha _ := bound_of_plain hc (u.not_isdigit c (.inl hb))
    (u.not_isalpha_symbol c (.inl hb)) a d ha

theorem at_singleton (hc : code[idx]? = some c) : At code idx [c] := by
  obtain ⟨hi, rfl⟩ := List.getElem?_eq_some_iff.1 hc
  unfold At
  rw [List.drop_eq_getElem_cons hi]
  rfl

theorem Scanned.symbol (h : Scanned u code idx ps) (hc : code[idx]? = some c) {kind : Kind}
    (hkind : IsSymbol kind c) (hs : isSymbol c = true) :
    Scanned u code (idx + 1) (ps ++ [(idx, kind, [c])]) where
  le := (List.getElem?_eq_some_iff.1 hc).1
  covers := by
    rw [List.map_append]
    refine h.covers.snoc (at_singleton hc) fun d hd => ?_
    rw [List.mem_singleton.1 hd]
    exact notBlank_of_isSymbol hs
  token q hq := by
    obtain hq | hq := List.mem_append.1 hq
    · exact h.token q hq
    · rw [List.mem_singleton.1 hq]
      exact .symbol (at_singleton hc) hkind
  bound a d _ ha _ := bound_of_plain hc (u.not_isdigit c (.inr hs))
    (u.not_isalpha_symbol c (.inr hs)) a d ha

end Steps

/-- One round of the loop: the end of the text, a rejected character, or a step that takes only
accepted characters. -/
theorem Scanned.round (h : Scanned u code idx ps) (fuel : ℕ) :
    (code.length ≤ idx ∧ lexicalLoop u code (fuel + 1) idx (entries ps) =
        some (if 0 < (entries ps).length then .done (entries ps) else .assertion)) ∨
      (∃ c, code[idx]? = some c ∧ accepts u c = false ∧
        lexicalLoop u code (fuel + 1) idx (entries ps) =
          some (.wrongInput idx (entries ps ++ [.zero]))) ∨
      ∃ idx' ps', idx < idx' ∧ Scanned u code idx' ps' ∧
        (∀ j c, idx ≤ j → j < idx' → code[j]? = some c → accepts u c = true) ∧
        lexicalLoop u code (fuel + 1) idx (entries ps) =
          lexicalLoop u code fuel idx' (entries ps') := by
  have hentries : ∀ q, entries ps ++ [.pair q.2.1 q.2.2] = entries (ps ++ [q]) := by
    intro q
    rw [entries, entries, List.map_append, List.map_singleton]
  rw [lexicalLoop]
  cases hc : code[idx]? with
  | none => exact .inl ⟨List.getElem?_eq_none_iff.1 hc, rfl⟩
  | some c =>
    right
    have honly : ∀ j d, idx ≤ j → j < idx + 1 → code[j]? = some d → d = c := by
      intro j d hij hj hd
      obtain rfl : j = idx := by omega
      exact Option.some.inj (hd.symm.trans hc)
    dsimp only
    by_cases hdigit : u.isdigit c = true
    · have hrun := maximalRun_takeWhile hc hdigit fun a h0 ha => by
        by_contra hn
        have hd := ((h.bound a c h0 ha hc).1 (by simpa using hn))
        rw [hdigit] at hd
        cases hd
      rw [if_pos hdigit, readFullDigit, readFull_eq hc hdigit]
      dsimp only
      refine .inr ⟨_, _, Nat.lt_add_of_pos_right hrun.length_pos,
        h.run hrun (fun _ => notBlank_of_isdigit) (.number hrun) fun a d ha hd => ?_, ?_, ?_⟩
      · rw [u.not_isalpha a ha]
        exact ⟨fun _ => hd, fun hl => absurd hl Bool.false_ne_true⟩
      · intro j d hij hj hd
        rw [accepts, hrun.of_getElem? hij hj hd]
        rfl
      · rw [← hentries]
    rw [if_neg hdigit]
    by_cases halpha : u.isalpha c = true
    · have hrun := maximalRun_takeWhile hc halpha fun a h0 ha => by
        by_contra hn
        have hd := ((h.bound a c h0 ha hc).2 (by simpa using hn))
        rw [halpha] at hd
        cases hd
      rw [if_pos halpha, readFullString, readFull_eq hc halpha]
      dsimp only
      refine .inr ⟨_, _, Nat.lt_add_of_pos_right hrun.length_pos,
        h.run hrun (fun _ => notBlank_of_isalpha) (.word hrun (isWord_wordKind _))
          fun a d ha hd => ?_, ?_, ?_⟩
      · rw [Tables.isdigit_eq_false ha]
        exact ⟨fun hl => absurd hl Bool.false_ne_true, fun _ => hd⟩
      · intro j d hij hj hd
        rw [accepts, hrun.of_getElem? hij hj hd, Bool.or_true]
        rfl
      · rw [← hentries]
    rw [if_neg halpha]
    by_cases hblank : [c] = [' '] ∨ [c] = ['\n'] ∨ [c] = [' ', ' ', ' ']
    · have hcases : c = ' ' ∨ c = '\n' := by simpa using hblank
      rw [if_pos hblank]
      refine .inr ⟨_, _, Nat.lt_succ_self idx, h.blank hc ?_, ?_, rfl⟩
      · obtain rfl | rfl := hcases
        · decide
        · decide
      · intro j d hij hj hd
        rw [honly j d hij hj hd]
        obtain rfl | rfl := hcases
        · simp [accepts]
        · simp [accepts]
    rw [if_neg hblank]
    have hplain : c ≠ ' ' ∧ c ≠ '\n' := by simpa using hblank
    obtain ⟨hnone, hno⟩ | ⟨kind, hsome, hkind, hs⟩ := symbolKind_cases c
    · rw [hnone]
      exact .inl ⟨c, rfl, by simp [accepts, hdigit, halpha, hplain, hno], rfl⟩
    · rw [hsome]
      refine .inr ⟨_, _, Nat.lt_succ_self idx, h.symbol hc hkind hs, ?_, ?_⟩
      · intro j d hij hj hd
        rw [honly j d hij hj hd]
        simp [accepts, hs]
      · rw [← hentries]

/-- The loop runs to the end of the text or to the first character that is not accepted. -/
theorem Scanned.loop (h : Scanned u code idx ps) (hfuel : code.length < idx + fuel) :
    (∃ i c tokens, idx ≤ i ∧ code[i]? = some c ∧ accepts u c = false ∧
        (∀ j c, idx ≤ j → j < i → code[j]? = some c → accepts u c = true) ∧
        lexicalLoop u code fuel idx (entries ps) = some (.wrongInput i tokens)) ∨
      ∃ ps', Scanned u code code.length ps' ∧
        (∀ j c, idx ≤ j → code[j]? = some c → accepts u c = true) ∧
        lexicalLoop u code fuel idx (entries ps) =
          some (if 0 < (entries ps').length then .done (entries ps') else .assertion) := by
  induction fuel generalizing idx ps with
  | zero =>
    have hle := h.le
    omega
  | succ fuel ih =>
    obtain ⟨hend, hloop⟩ | ⟨c, hc, hrej, hloop⟩ | ⟨idx', ps', hlt, h', hacc, hloop⟩ := h.round fuel
    · obtain rfl : idx = code.length := Nat.le_antisymm h.le hend
      refine .inr ⟨ps, h, fun j c hj hc => ?_, hloop⟩
      rw [List.getElem?_eq_none hj] at hc
      cases hc
    · exact .inl ⟨idx, c, _, le_rfl, hc, hrej, fun j _ h₁ h₂ => absurd h₁ (Nat.not_le.2 h₂), hloop⟩
    · obtain ⟨i, c, tokens, hi, hc, hrej, hbefore, hloop'⟩ | ⟨ps₂, h₂, hbefore, hloop'⟩ :=
        ih h' (by omega)
      · refine .inl ⟨i, c, tokens, by omega, hc, hrej, fun j d hj hji hd => ?_, hloop.trans hloop'⟩
        by_cases hj' : j < idx'
        · exact hacc j d hj hj' hd
        · exact hbefore j d (Nat.le_of_not_lt hj') hji hd
      · refine .inr ⟨ps₂, h₂, fun j d hj hd => ?_, hloop.trans hloop'⟩
        by_cases hj' : j < idx'
        · exact hacc j d hj hj' hd
        · exact hbefore j d (Nat.le_of_not_lt hj') hd

/-- The characters of the language: letters, decimal digits, blanks and symbols. -/
def allows (u : Tables) (c : Char) : Bool :=
  u.isalpha c || u.isdecimal c || decide (c ∈ blanks) || isSymbol c

/-- The tokens in `ps`, with their positions in a text, are maximal runs of letters or decimal
digits or single symbols, and together the text without its blanks. -/
structure Lossless (u : Tables) (code : List Char) (ps : List (ℕ × Kind × List Char)) : Prop where
  token : ∀ q ∈ ps, IsToken u.isdecimal u.isalpha code q.1 q.2.1 q.2.2
  ordered : ps.Pairwise fun q r => q.1 + q.2.2.length ≤ r.1
  joined : (ps.map fun q => q.2.2).flatten = code.filter notBlank

/-- The character `c` at `i` is the first that is not of the language. -/
def FirstOther (u : Tables) (code : List Char) (i : ℕ) (c : Char) : Prop :=
  code[i]? = some c ∧ allows u c = false ∧ ∀ j d, j < i → code[j]? = some d → allows u d = true

/-- A text of the language that is not blank is cut into its tokens, and another text is rejected
at its first other character. -/
structure LexesRight (u : Tables) (code : List Char) : Prop where
  accepted : (∀ c ∈ code, allows u c = true) → (∃ c ∈ code, c ∉ blanks) →
    ∃ ps, lexical u code = some (.done (entries ps)) ∧ Lossless u code ps
  rejected : ∀ i c, FirstOther u code i c → ∃ tokens, lexical u code = some (.wrongInput i tokens)

section Claim
variable {c : Char}

theorem accepts_tab (u : Tables) : accepts u '\t' = false := by
  have hblank : '\t' ∈ blanks ∨ isSymbol '\t' = true := .inl (by decide)
  have hsymbol : isSymbol '\t' = false := by decide
  simp [accepts, u.not_isdigit _ hblank, u.not_isalpha_symbol _ hblank, hsymbol]

theorem eq_tab (h : allows u c = true) (hr : accepts u c = false) : c = '\t' := by
  simp only [accepts, Bool.or_eq_false_iff] at hr
  obtain ⟨⟨⟨⟨hdigit, halpha⟩, hspace⟩, hnewline⟩, hsymbol⟩ := hr
  have hdecimal : u.isdecimal c = false := by
    by_contra hd
    rw [u.isdigit_of_isdecimal c (by simpa using hd)] at hdigit
    cases hdigit
  have hmem : c ∈ blanks := by simpa [allows, halpha, hdecimal, hsymbol] using h
  have hcases : c = ' ' ∨ c = '\t' ∨ c = '\n' := by simpa [blanks] using hmem
  obtain rfl | h | rfl := hcases
  · cases hspace
  · exact h
  · cases hnewline

theorem allows_of_accepts (h : accepts u c = true) (hd : u.isdigit c = false) :
    allows u c = true := by
  simp only [accepts, Bool.or_eq_true, beq_iff_eq] at h
  obtain (((hdigit | halpha) | rfl) | rfl) | hsymbol := h
  · rw [hd] at hdigit
    cases hdigit
  · simp [allows, halpha]
  · simp [allows, blanks]
  · simp [allows, blanks]
  · simp [allows, hsymbol]

theorem isdigit_eq_isdecimal (h : allows u c = true) : u.isdigit c = u.isdecimal c := by
  cases hdecimal : u.isdecimal c with
  | true => exact u.isdigit_of_isdecimal c hdecimal
  | false =>
    simp only [allows, Bool.or_eq_true, hdecimal, decide_eq_true_eq] at h
    obtain ((halpha | hno) | hblank) | hsymbol := h
    · exact Tables.isdigit_eq_false halpha
    · cases hno
    · exact u.not_isdigit c (.inl hblank)
    · exact u.not_isdigit c (.inr hsymbol)

theorem Scanned.lossless (h : Scanned u code code.length ps)
    (hall : ∀ c ∈ code, allows u c = true) : Lossless u code ps where
  token q hq := by
    obtain ⟨i, kind, w⟩ := q
    cases h.token _ hq with
    | number hrun => exact .number (hrun.congr fun c hc => isdigit_eq_isdecimal (hall c hc))
    | word hrun hword => exact .word hrun hword
    | symbol hat hsymbol => exact .symbol hat hsymbol
  ordered := List.pairwise_map.1 h.covers.ordered
  joined := by
    have hjoined := h.covers.joined
    rw [List.take_length, List.map_map] at hjoined
    exact hjoined

theorem Scanned.entries_pos (h : Scanned u code code.length ps) (hne : ∃ c ∈ code, c ∉ blanks) :
    0 < (entries ps).length := by
  obtain ⟨c, hc, hblank⟩ := hne
  have hmem : c ∈ ((ps.map fun q => (q.1, q.2.2)).map Prod.snd).flatten := by
    rw [h.covers.joined, List.take_length]
    exact List.mem_filter.2 ⟨hc, by simpa [notBlank] using hblank⟩
  rw [entries, List.length_map]
  refine List.length_pos_iff.2 fun he => ?_
  rw [he] at hmem
  cases hmem

theorem lexical_cases (u : Tables) (code : List Char) :
    (∃ i c tokens, code[i]? = some c ∧ accepts u c = false ∧
        (∀ (j : ℕ) c, j < i → code[j]? = some c → accepts u c = true) ∧
        lexical u code = some (.wrongInput i tokens)) ∨
      ∃ ps, Scanned u code code.length ps ∧
        (∀ (j : ℕ) c, code[j]? = some c → accepts u c = true) ∧
        lexical u code =
          some (if 0 < (entries ps).length then .done (entries ps) else .assertion) := by
  obtain ⟨i, c, tokens, -, hc, hrej, hbefore, hlex⟩ | ⟨ps, hps, hall, hlex⟩ :=
    (scanned_zero u code).loop (show code.length < 0 + (code.length + 1) by omega)
  · exact .inl ⟨i, c, tokens, hc, hrej, fun j d hj hd => hbefore j d (Nat.zero_le j) hj hd, hlex⟩
  · exact .inr ⟨ps, hps, fun j d hd => hall j d (Nat.zero_le j) hd, hlex⟩

/-- `lexical` is right for a text if and only if no tab stands before its first other character,
or in it if it has none and is not blank, and this character is not a digit. -/
theorem lexesRight_iff (u : Tables) (code : List Char) : LexesRight u code ↔
    (∀ i c, FirstOther u code i c → u.isdigit c = false ∧ '\t' ∉ code.take i) ∧
      ((∀ c ∈ code, allows u c = true) → (∃ c ∈ code, c ∉ blanks) → '\t' ∉ code) := by
  obtain ⟨i, c, tokens, hc, hrej, hbefore, hlex⟩ | ⟨ps, hps, hall, hlex⟩ := lexical_cases u code
  · constructor
    · intro h
      refine ⟨fun k d hfirst => ?_, fun hall hne _ => ?_⟩
      · obtain ⟨tokens', hlex'⟩ := h.rejected k d hfirst
        rw [hlex] at hlex'
        cases hlex'
        obtain rfl : c = d := Option.some.inj (hc.symm.trans hfirst.1)
        simp only [accepts, Bool.or_eq_false_iff] at hrej
        refine ⟨hrej.1.1.1.1, fun htab => ?_⟩
        obtain ⟨j, hj, hget⟩ := List.mem_take_iff_getElem.1 htab
        have hacc := hbefore j '\t' (by omega) (by rw [← hget, List.getElem?_eq_getElem])
        rw [accepts_tab] at hacc
        cases hacc
      · obtain ⟨ps, hlex', -⟩ := h.accepted hall hne
        rw [hlex] at hlex'
        cases hlex'
    · rintro ⟨hother, htab⟩
      constructor
      · intro hall hne
        have hmem := List.mem_of_getElem? hc
        obtain rfl := eq_tab (hall c hmem) hrej
        exact absurd hmem (htab hall hne)
      · intro k d hfirst
        obtain ⟨hdigit, hno⟩ := hother k d hfirst
        obtain hik | rfl | hki := Nat.lt_trichotomy i k
        · obtain rfl := eq_tab (hfirst.2.2 i c hik hc) hrej
          refine absurd (List.mem_of_getElem? (i := i) ?_) hno
          rw [List.getElem?_take_of_lt hik, hc]
        · exact ⟨tokens, hlex⟩
        · have hallow := allows_of_accepts (hbefore k d hki hfirst.1) hdigit
          rw [hfirst.2.1] at hallow
          cases hallow
  · constructor
    · intro h
      refine ⟨fun k d hfirst => ?_, fun _ _ htab => ?_⟩
      · obtain ⟨tokens, hlex'⟩ := h.rejected k d hfirst
        rw [hlex] at hlex'
        split at hlex' <;> cases hlex'
      · obtain ⟨j, hj⟩ := List.getElem?_of_mem htab
        have hacc := hall j '\t' hj
        rw [accepts_tab] at hacc
        cases hacc
    · rintro ⟨hother, -⟩
      constructor
      · intro hallow hne
        rw [if_pos (hps.entries_pos hne)] at hlex
        exact ⟨ps, hlex, hps.lossless hallow⟩
      · intro k d hfirst
        have hallow := allows_of_accepts (hall k d hfirst.1) (hother k d hfirst).1
        rw [hfirst.2.1] at hallow
        cases hallow

end Claim

/-- The tables for ASCII and the superscript two, a digit that is not decimal. -/
def latin : Tables where
  isdigit c := decide (48 ≤ c.toNat ∧ c.toNat ≤ 57) || c.toNat == 178
  isdecimal c := decide (48 ≤ c.toNat ∧ c.toNat ≤ 57)
  isalpha c := decide (65 ≤ c.toNat ∧ c.toNat ≤ 90 ∨ 97 ≤ c.toNat ∧ c.toNat ≤ 122)
  isdigit_of_isdecimal c h := by rw [h, Bool.true_or]
  not_isalpha c h := by
    simp only [Bool.or_eq_true, decide_eq_true_eq, beq_iff_eq] at h
    rw [decide_eq_false_iff_not]
    omega
  not_isdigit c h := by
    simp only [blanks, isSymbol, bracket, operator, otherCharacter, List.mem_cons, List.not_mem_nil,
      List.cons.injEq, and_true, or_false, Bool.or_eq_true, decide_eq_true_eq] at h
    obtain (rfl | rfl | rfl) | ((rfl | rfl | rfl | rfl) | rfl | rfl | rfl | rfl) | rfl | rfl := h
      <;> decide
  not_isalpha_symbol c h := by
    simp only [blanks, isSymbol, bracket, operator, otherCharacter, List.mem_cons, List.not_mem_nil,
      List.cons.injEq, and_true, or_false, Bool.or_eq_true, decide_eq_true_eq] at h
    obtain (rfl | rfl | rfl) | ((rfl | rfl | rfl | rfl) | rfl | rfl | rfl | rfl) | rfl | rfl := h
      <;> decide

/-- `"int\ta"` is rejected at its tab. -/
theorem lexical_tab : ¬ LexesRight latin ['i', 'n', 't', '\t', 'a'] := by
  intro h
  have hlex : lexical latin ['i', 'n', 't', '\t', 'a'] =
      some (.wrongInput 3 [.pair .type ['i', 'n', 't'], .zero]) := by decide
  obtain ⟨ps, hdone, -⟩ :=
    h.accepted (List.all_eq_true.1 rfl) ⟨'i', List.mem_cons_self, by decide⟩
  rw [hlex] at hdone
  cases hdone

/-- `"a²"` is not rejected. -/
example : lexical latin ['a', '²'] = some (.done [.pair .word ['a'], .pair .number ['²']]) := by
  decide

end Lexer
