import Mathlib.Data.List.Basic
import Mathlib.Data.List.Pairwise

/-! Lists cut at delimiters: every delimiter ends a token, so that neighbouring delimiters have an
empty token between them, and the words are the tokens that are not empty. -/
namespace Tokens

variable {α : Type*} {p : α → Bool}

/-- The longest part without a delimiter. -/
def run (p : α → Bool) (l : List α) : List α := l.takeWhile fun c => !p c

theorem run_nil : run p [] = [] := rfl

theorem run_cons (c : α) (l : List α) : run p (c :: l) = if p c then [] else c :: run p l := by
  unfold run
  by_cases h : p c
  · simp [h]
  · simp [h]

theorem run_append {w : List α} (hw : ∀ c ∈ w, p c = false) (l : List α) :
    run p (w ++ l) = w ++ run p l := by
  induction w with
  | nil => rfl
  | cons c w ih =>
    rw [List.cons_append, run_cons, hw c List.mem_cons_self, if_neg Bool.false_ne_true,
      ih fun x hx => hw x (List.mem_cons_of_mem _ hx), List.cons_append]

theorem run_self {w : List α} (hw : ∀ c ∈ w, p c = false) : run p w = w := by
  have h := run_append hw []
  rwa [List.append_nil, run_nil, List.append_nil] at h

theorem split_run (p : α → Bool) (l : List α) : ∃ w, (∀ c ∈ w, p c = false) ∧
    (l = w ∨ ∃ d l', p d = true ∧ l = w ++ d :: l') := by
  induction l with
  | nil => exact ⟨[], by simp, .inl rfl⟩
  | cons c l ih =>
    by_cases h : p c
    · exact ⟨[], by simp, .inr ⟨c, l, h, rfl⟩⟩
    · obtain ⟨w, hw, hl⟩ := ih
      refine ⟨c :: w, ?_, ?_⟩
      · intro x hx
        obtain rfl | hx := List.mem_cons.1 hx
        · simpa using h
        · exact hw x hx
      · obtain rfl | ⟨d, l', hd, rfl⟩ := hl
        · exact .inl rfl
        · exact .inr ⟨d, l', hd, rfl⟩

/-- The tokens that start in a list, with their offsets; `start` tells if one starts at its
head, which is at offset `off`. -/
def tokensFrom (p : α → Bool) : Bool → ℕ → List α → List (ℕ × List α)
  | _, _, [] => []
  | start, off, c :: l =>
    if start then (off, run p (c :: l)) :: tokensFrom p (p c) (off + 1) l
    else tokensFrom p (p c) (off + 1) l

/-- The tokens of a list. -/
def tokens (p : α → Bool) (l : List α) : List (ℕ × List α) := tokensFrom p true 0 l

theorem tokensFrom_nil (start : Bool) (off : ℕ) : tokensFrom p start off [] = [] := rfl

theorem tokensFrom_cons (start : Bool) (off : ℕ) (c : α) (l : List α) :
    tokensFrom p start off (c :: l) =
      if start then (off, run p (c :: l)) :: tokensFrom p (p c) (off + 1) l
      else tokensFrom p (p c) (off + 1) l := rfl

theorem tokensFrom_false_append {w : List α} (hw : ∀ c ∈ w, p c = false) (off : ℕ)
    (l : List α) : tokensFrom p false off (w ++ l) = tokensFrom p false (off + w.length) l := by
  induction w generalizing off with
  | nil => rfl
  | cons c w ih =>
    rw [List.cons_append, tokensFrom_cons, if_neg Bool.false_ne_true, hw c List.mem_cons_self,
      ih fun x hx => hw x (List.mem_cons_of_mem _ hx), List.length_cons]
    congr 1
    omega

theorem tokensFrom_delim {w : List α} (hw : ∀ c ∈ w, p c = false) {d : α} (hd : p d = true)
    (off : ℕ) (l : List α) : tokensFrom p true off (w ++ d :: l) =
      (off, w) :: tokensFrom p true (off + w.length + 1) l := by
  have hrun : run p (w ++ d :: l) = w := by
    rw [run_append hw, run_cons, if_pos hd, List.append_nil]
  cases w with
  | nil =>
    rw [List.nil_append, tokensFrom_cons, if_pos rfl, hd]
    rw [List.nil_append] at hrun
    rw [hrun]
    rfl
  | cons c w =>
    have hw' : ∀ x ∈ w, p x = false := fun x hx => hw x (List.mem_cons_of_mem _ hx)
    rw [List.cons_append] at hrun ⊢
    rw [tokensFrom_cons, if_pos rfl, hrun, hw c List.mem_cons_self,
      tokensFrom_false_append hw', tokensFrom_cons, if_neg Bool.false_ne_true, hd,
      List.length_cons]
    congr 2
    omega

theorem tokensFrom_last {w : List α} (hw : ∀ c ∈ w, p c = false) (hne : w ≠ []) (off : ℕ) :
    tokensFrom p true off w = [(off, w)] := by
  cases w with
  | nil => exact absurd rfl hne
  | cons c w =>
    have hw' : ∀ x ∈ w, p x = false := fun x hx => hw x (List.mem_cons_of_mem _ hx)
    have hrest := tokensFrom_false_append hw' (off + 1) []
    rw [List.append_nil, tokensFrom_nil] at hrest
    rw [tokensFrom_cons, if_pos rfl, run_self hw, hw c List.mem_cons_self, hrest]

theorem mem_tokensFrom {start : Bool} {off i : ℕ} {l w : List α} :
    (i, w) ∈ tokensFrom p start off l ↔ ∃ j < l.length, i = off + j ∧ w = run p (l.drop j) ∧
      (j = 0 ∧ start = true ∨ ∃ c, 0 < j ∧ l[j - 1]? = some c ∧ p c = true) := by
  induction l generalizing start off with
  | nil => simp [tokensFrom_nil]
  | cons c l ih =>
    have htail : (i, w) ∈ tokensFrom p (p c) (off + 1) l ↔ ∃ j < l.length, i = off + (j + 1) ∧
        w = run p ((c :: l).drop (j + 1)) ∧ ∃ c', (c :: l)[j + 1 - 1]? = some c' ∧ p c' = true := by
      rw [ih]
      refine exists_congr fun j => and_congr_right fun _ => ?_
      have hoff : i = off + 1 + j ↔ i = off + (j + 1) := by omega
      rw [hoff, List.drop_succ_cons, Nat.add_sub_cancel]
      refine and_congr_right fun _ => and_congr_right fun _ => ?_
      cases j with
      | zero => simp
      | succ j => simp
    constructor
    · intro h
      rw [tokensFrom_cons] at h
      have hcases : (start = true ∧ (i, w) = (off, run p (c :: l))) ∨
          (i, w) ∈ tokensFrom p (p c) (off + 1) l := by
        by_cases hs : start
        · rw [if_pos hs, List.mem_cons] at h
          exact h.imp (⟨hs, ·⟩) id
        · rw [if_neg hs] at h
          exact .inr h
      obtain ⟨hs, he⟩ | h := hcases
      · rw [Prod.mk.injEq] at he
        exact ⟨0, Nat.succ_pos _, he.1, he.2, .inl ⟨rfl, hs⟩⟩
      · obtain ⟨j, hj, hi, hw, c', hc', hp⟩ := htail.1 h
        exact ⟨j + 1, Nat.succ_lt_succ hj, hi, hw, .inr ⟨c', Nat.succ_pos _, hc', hp⟩⟩
    · rintro ⟨j, hj, hi, hw, hstart⟩
      rw [tokensFrom_cons]
      cases j with
      | zero =>
        have hs : start = true := by
          obtain ⟨-, hs⟩ | ⟨c', h0, -⟩ := hstart
          · exact hs
          · exact absurd h0 (Nat.lt_irrefl 0)
        rw [if_pos hs, hi, hw]
        exact List.mem_cons_self
      | succ j =>
        have hmem : (i, w) ∈ tokensFrom p (p c) (off + 1) l := by
          obtain ⟨h0, -⟩ | ⟨c', -, hc'⟩ := hstart
          · cases h0
          · exact htail.2 ⟨j, Nat.lt_of_succ_lt_succ hj, hi, hw, c', hc'⟩
        by_cases hs : start
        · rw [if_pos hs]
          exact List.mem_cons_of_mem _ hmem
        · rwa [if_neg hs]

theorem pairwise_tokensFrom (start : Bool) (off : ℕ) (l : List α) :
    (tokensFrom p start off l).Pairwise fun t u => t.1 < u.1 := by
  induction l generalizing start off with
  | nil => exact List.Pairwise.nil
  | cons c l ih =>
    rw [tokensFrom_cons]
    by_cases hs : start
    · rw [if_pos hs, List.pairwise_cons]
      refine ⟨?_, ih _ _⟩
      rintro ⟨i, w⟩ hmem
      obtain ⟨j, -, hi, -⟩ := mem_tokensFrom.1 hmem
      change off < i
      omega
    · rw [if_neg hs]
      exact ih _ _

theorem pairwise_tokens (l : List α) : (tokens p l).Pairwise fun t u => t.1 < u.1 :=
  pairwise_tokensFrom true 0 l

theorem offset_lt_iff {l : List α} {a b : ℕ} {t u : ℕ × List α} (ha : (tokens p l)[a]? = some t)
    (hb : (tokens p l)[b]? = some u) : t.1 < u.1 ↔ a < b := by
  have hlt : ∀ {a b : ℕ} {t u : ℕ × List α}, (tokens p l)[a]? = some t →
      (tokens p l)[b]? = some u → a < b → t.1 < u.1 := by
    intro a b t u ha hb hab
    obtain ⟨hla, rfl⟩ := List.getElem?_eq_some_iff.1 ha
    obtain ⟨hlb, rfl⟩ := List.getElem?_eq_some_iff.1 hb
    exact List.pairwise_iff_getElem.1 (pairwise_tokens l) a b hla hlb hab
  refine ⟨fun h => ?_, hlt ha hb⟩
  obtain hab | rfl | hba := Nat.lt_trichotomy a b
  · exact hab
  · rw [ha] at hb
    cases hb
    exact absurd h (Nat.lt_irrefl _)
  · exact absurd (hlt hb ha hba) (Nat.lt_asymm h)

/-- A word at offset `i`: the list starts there or the element before is a delimiter, and the
word goes on to the next delimiter. -/
structure WordAt (p : α → Bool) (l : List α) (i : ℕ) (w : List α) : Prop where
  start : i = 0 ∨ ∃ c, 0 < i ∧ l[i - 1]? = some c ∧ p c = true
  run : run p (l.drop i) = w
  ne_nil : w ≠ []

/-- The words of a list, with their offsets. -/
def words (p : α → Bool) (l : List α) : List (ℕ × List α) :=
  (tokens p l).filter fun t => !t.2.isEmpty

theorem mem_words {l w : List α} {i : ℕ} : (i, w) ∈ words p l ↔ WordAt p l i w := by
  unfold words
  rw [List.mem_filter, tokens, mem_tokensFrom]
  constructor
  · rintro ⟨⟨j, hj, hi, hw, hstart⟩, hne⟩
    rw [Nat.zero_add] at hi
    subst hi
    refine ⟨?_, hw.symm, by simpa using hne⟩
    obtain ⟨h0, -⟩ | h := hstart
    · exact .inl h0
    · exact .inr h
  · rintro ⟨hstart, hrun, hne⟩
    have hlt : i < l.length := by
      by_contra hge
      rw [List.drop_of_length_le (Nat.le_of_not_lt hge), run_nil] at hrun
      exact hne hrun.symm
    refine ⟨⟨i, hlt, (Nat.zero_add i).symm, hrun.symm, ?_⟩, by simpa using hne⟩
    obtain h0 | h := hstart
    · exact .inl ⟨h0, rfl⟩
    · exact .inr h

theorem pairwise_words (l : List α) : (words p l).Pairwise fun t u => t.1 < u.1 :=
  (pairwise_tokens l).sublist List.filter_sublist

theorem mem_words_iff {l : List α} {t : ℕ × List α} :
    t ∈ words p l ↔ t ∈ tokens p l ∧ t.2 ≠ [] := by
  unfold words
  rw [List.mem_filter]
  exact and_congr_right fun _ => by simp

/-- No delimiter stands at the beginning, and no two of them stand side by side. -/
def Spaced (p : α → Bool) (l : List α) : Prop :=
  ∀ i d, l[i]? = some d → p d = true → 0 < i ∧ ∀ c, l[i - 1]? = some c → p c = false

theorem run_drop_eq_nil {l : List α} {i : ℕ} (hi : i < l.length) :
    run p (l.drop i) = [] ↔ p l[i] = true := by
  rw [List.drop_eq_getElem_cons hi, run_cons]
  by_cases h : p l[i]
  · simp [h]
  · simp [h]

/-- Every token is a word if and only if the delimiters are spaced. -/
theorem words_eq_tokens_iff (l : List α) : words p l = tokens p l ↔ Spaced p l := by
  have hself : words p l = tokens p l ↔ ∀ t ∈ tokens p l, t.2 ≠ [] := by
    unfold words
    rw [List.filter_eq_self]
    exact forall₂_congr fun t _ => by simp
  rw [hself]
  constructor
  · intro h i d hd hp
    obtain ⟨hi, rfl⟩ := List.getElem?_eq_some_iff.1 hd
    have hrun := (run_drop_eq_nil hi).2 hp
    have hno : ¬ (i = 0 ∧ true = true ∨ ∃ c, 0 < i ∧ l[i - 1]? = some c ∧ p c = true) := fun hs =>
      h (i, []) (mem_tokensFrom.2 ⟨i, hi, (Nat.zero_add i).symm, hrun.symm, hs⟩) rfl
    have hpos : 0 < i := Nat.pos_of_ne_zero fun h0 => hno (.inl ⟨h0, rfl⟩)
    refine ⟨hpos, fun c hc => ?_⟩
    rw [← Bool.not_eq_true]
    exact fun hp => hno (.inr ⟨c, hpos, hc, hp⟩)
  · rintro h ⟨i, w⟩ hmem rfl
    obtain ⟨j, hj, -, hw, hstart⟩ := mem_tokensFrom.1 hmem
    obtain ⟨hpos, hbefore⟩ := h j l[j] (List.getElem?_eq_getElem hj)
      ((run_drop_eq_nil hj).1 hw.symm)
    obtain ⟨h0, -⟩ | ⟨c, -, hc, hp⟩ := hstart
    · omega
    · rw [hbefore c hc] at hp
      cases hp

theorem eq_of_pairwise {β : Type*} {r : β → β → Prop} (hr : ∀ a b, r a b → ¬ r b a)
    {l l' : List β} (hl : l.Pairwise r) (hl' : l'.Pairwise r) (h : ∀ b, b ∈ l ↔ b ∈ l') :
    l = l' := by
  have hirr : ∀ {a b : β}, r a b → a ≠ b := fun {a b} hab e => hr a b hab (by subst e; exact hab)
  have hperm : l.Perm l' := by
    rw [List.perm_ext_iff_of_nodup (hl.imp hirr) (hl'.imp hirr)]
    exact h
  exact hperm.eq_of_pairwise (fun a b _ _ h1 h2 => absurd h2 (hr a b h1)) hl hl'

/-- A delimiter at the end adds no word. -/
theorem words_append_delim (l : List α) {d : α} (hd : p d = true) :
    words p (l ++ [d]) = words p l := by
  refine eq_of_pairwise (fun a b h h' => Nat.lt_asymm h h') (pairwise_words _) (pairwise_words _) ?_
  rintro ⟨i, w⟩
  rw [mem_words, mem_words]
  have hrun : ∀ k ≤ l.length, run p ((l ++ [d]).drop k) = run p (l.drop k) := by
    intro k hk
    rw [List.drop_append_of_le_length hk]
    obtain ⟨w, hw, he | ⟨d', l', hd', he⟩⟩ := split_run p (l.drop k)
    · rw [he, run_append hw, run_self hw, run_cons, if_pos hd, List.append_nil]
    · rw [he, List.append_assoc, run_append hw, run_append hw, List.cons_append, run_cons,
        run_cons, if_pos hd', if_pos hd']
  have hget : ∀ c, 0 < i → i ≤ l.length → ((l ++ [d])[i - 1]? = some c ↔ l[i - 1]? = some c) := by
    intro c h0 hi
    rw [List.getElem?_append_left (by omega)]
  constructor
  · rintro ⟨hstart, hw, hne⟩
    have hi : i ≤ l.length := by
      by_contra hgt
      rw [List.drop_of_length_le (by simp; omega), run_nil] at hw
      exact hne hw.symm
    refine ⟨hstart.imp_right ?_, (hrun i hi).symm.trans hw, hne⟩
    rintro ⟨c, h0, hc, hp⟩
    exact ⟨c, h0, (hget c h0 hi).1 hc, hp⟩
  · rintro ⟨hstart, hw, hne⟩
    have hi : i ≤ l.length := by
      by_contra hgt
      rw [List.drop_of_length_le (by omega), run_nil] at hw
      exact hne hw.symm
    refine ⟨hstart.imp_right ?_, (hrun i hi).trans hw, hne⟩
    rintro ⟨c, h0, hc, hp⟩
    exact ⟨c, h0, (hget c h0 hi).2 hc, hp⟩

/-- The words of a list, without their offsets. -/
def fields (p : α → Bool) (l : List α) : List (List α) := (words p l).map Prod.snd

theorem fields_tokensFrom (start : Bool) (off off' : ℕ) (l : List α) :
    ((tokensFrom p start off l).filter fun t => !t.2.isEmpty).map Prod.snd =
      ((tokensFrom p start off' l).filter fun t => !t.2.isEmpty).map Prod.snd := by
  induction l generalizing start off off' with
  | nil => rfl
  | cons c l ih =>
    rw [tokensFrom_cons, tokensFrom_cons]
    by_cases hs : start
    · rw [if_pos hs, if_pos hs, List.filter_cons, List.filter_cons]
      by_cases hrun : run p (c :: l) = []
      · simp [hrun, ih _ (off + 1) (off' + 1)]
      · simp [hrun, ih _ (off + 1) (off' + 1)]
    · rw [if_neg hs, if_neg hs, ih _ (off + 1) (off' + 1)]

theorem fields_cons {d : α} (hd : p d = true) (l : List α) : fields p (d :: l) = fields p l := by
  have h := tokensFrom_delim (p := p) (w := []) (by simp) hd 0 l
  rw [List.nil_append] at h
  rw [fields, words, tokens, h]
  exact fields_tokensFrom true _ 0 l

theorem fields_word {w : List α} (hw : ∀ c ∈ w, p c = false) (hne : w ≠ []) :
    fields p w = [w] := by
  rw [fields, words, tokens, tokensFrom_last hw hne]
  simp [hne]

theorem fields_append {w : List α} (hw : ∀ c ∈ w, p c = false) (hne : w ≠ []) {d : α}
    (hd : p d = true) (l : List α) : fields p (w ++ d :: l) = w :: fields p l := by
  rw [fields, words, tokens, tokensFrom_delim hw hd, List.filter_cons]
  have hkeep : (!(0, w).2.isEmpty) = true := by simpa using hne
  rw [if_pos hkeep, List.map_cons]
  exact congrArg _ (fields_tokensFrom true _ 0 l)

section Joined
variable {sep : α}

theorem intercalate_cons (l : List α) (ls : List (List α)) :
    [sep].intercalate (l :: ls) = l ++ ls.flatMap (sep :: ·) := by
  induction ls generalizing l with
  | nil => simp
  | cons l' ls ih => simp [List.intercalate_cons_cons, ih]

theorem intercalate_split (l : List α) {ls : List (List α)} {k : ℕ} {m : List α}
    (h : ls[k]? = some m) : [sep].intercalate (l :: ls) =
      (l ++ (ls.take k).flatMap (sep :: ·)) ++
        sep :: (m ++ (ls.drop (k + 1)).flatMap (sep :: ·)) := by
  obtain ⟨hk, rfl⟩ := List.getElem?_eq_some_iff.1 h
  have hsplit : ls = ls.take k ++ ls[k] :: ls.drop (k + 1) := by
    rw [← List.drop_eq_getElem_cons hk, List.take_append_drop]
  have hflat := congrArg (List.flatMap (sep :: ·)) hsplit
  rw [List.flatMap_append, List.flatMap_cons] at hflat
  rw [intercalate_cons, hflat, List.append_assoc, List.cons_append]

theorem count_flatMap_cons [BEq α] [LawfulBEq α] {ls : List (List α)} (h : ∀ l ∈ ls, sep ∉ l) :
    (ls.flatMap (sep :: ·)).count sep = ls.length := by
  induction ls with
  | nil => rfl
  | cons l ls ih =>
    have hl := List.count_eq_zero.2 (h l List.mem_cons_self)
    rw [List.flatMap_cons, List.count_append, List.count_cons_self, hl,
      ih fun l' hl' => h l' (List.mem_cons_of_mem _ hl'), List.length_cons]
    omega

end Joined

end Tokens
