import Coursework.TextSearch.Core
import Coursework.Lib.Tokens

/-! What `my_strtok` and `my_strcmp` do: the pointers go to the tokens of a string, and two
strings compare as equal up to the case of their letters. -/
namespace TextSearch
open Tokens

/-- The bytes from a pointer on begin with a string. -/
def IsString (s w : List ℕ) : Prop := ∃ r, s = w ++ 0 :: r

/-- Equal up to the case of letters. -/
def Same (u v : List ℕ) : Prop := u.map upper = v.map upper

instance (u v : List ℕ) : Decidable (Same u v) := inferInstanceAs (Decidable (_ = _))

theorem Same.nil_iff {u v : List ℕ} (h : Same u v) : u = [] ↔ v = [] := by
  have hlen := congrArg List.length h
  rw [List.length_map, List.length_map] at hlen
  rw [← List.length_eq_zero_iff, ← List.length_eq_zero_iff, hlen]

theorem upper_eq_zero {c : ℕ} : upper c = 0 ↔ c = 0 := by
  unfold upper
  by_cases h : 97 ≤ c ∧ c ≤ 122
  · rw [if_pos h]
    omega
  · rw [if_neg h]

theorem myStrcmp_eq_zero {s t u v : List ℕ} (hs : IsString s u) (ht : IsString t v)
    (hu : 0 ∉ u) (hv : 0 ∉ v) : myStrcmp s t = 0 ↔ Same u v := by
  obtain ⟨r, rfl⟩ := hs
  obtain ⟨r', rfl⟩ := ht
  unfold Same
  induction u generalizing v with
  | nil =>
    rw [List.nil_append, myStrcmp, if_pos rfl]
    cases v with
    | nil => simp
    | cons b v =>
      have hb : b ≠ 0 := fun e => hv (by simp [e])
      simp [hb]
  | cons a u ih =>
    have ha : a ≠ 0 := fun e => hu (by simp [e])
    have hu' : 0 ∉ u := fun h => hu (List.mem_cons_of_mem _ h)
    rw [List.cons_append, myStrcmp, if_neg ha]
    cases v with
    | nil =>
      have hsame : isCharSame a 0 = false := by
        have h0 : upper 0 = 0 := rfl
        simp [isCharSame, h0, upper_eq_zero, ha]
      simp [hsame, ha]
    | cons b v =>
      have hv' : 0 ∉ v := fun h => hv (List.mem_cons_of_mem _ h)
      rw [List.cons_append, List.headD_cons, List.tail_cons, List.map_cons, List.map_cons,
        List.cons.injEq]
      by_cases hab : upper a = upper b
      · rw [if_pos (by simp [isCharSame, hab]), ih hu' hv', and_iff_right hab]
      · have hne : a ≠ b := fun e => hab (by rw [e])
        rw [if_neg (by simp [isCharSame, hab])]
        simp only [hab, false_and, iff_false]
        omega

section Cutting
variable {delimiters : List ℕ}

def isDelimiter (delimiters : List ℕ) (c : ℕ) : Bool := decide (c ∈ delimiters)

/-- A string whose delimiters have been overwritten. -/
def mask (delimiters l : List ℕ) : List ℕ := l.map fun c => if c ∈ delimiters then 0 else c

theorem mask_append (l l' : List ℕ) :
    mask delimiters (l ++ l') = mask delimiters l ++ mask delimiters l' := List.map_append

theorem length_mask (delimiters l : List ℕ) : (mask delimiters l).length = l.length :=
  List.length_map _

theorem mask_token {w : List ℕ} (hw : ∀ c ∈ w, isDelimiter delimiters c = false) :
    mask delimiters w = w := by
  unfold mask
  conv_rhs => rw [← List.map_id w]
  refine List.map_congr_left fun c hc => ?_
  have hnot := hw c hc
  exact if_neg (of_decide_eq_false hnot)

theorem mask_delimiter {d : ℕ} (hd : isDelimiter delimiters d = true) :
    mask delimiters [d] = [0] := by
  have hmem : d ∈ delimiters := of_decide_eq_true hd
  simp [mask, hmem]

theorem scan_word {w : List ℕ} (hw : ∀ c ∈ w, isDelimiter delimiters c = false) (h0 : 0 ∉ w)
    (s : List ℕ) : scan delimiters (w ++ s) =
      (w.length + (scan delimiters s).1, (scan delimiters s).2) := by
  induction w with
  | nil => rw [List.nil_append, List.length_nil, Nat.zero_add]
  | cons c w ih =>
    have hc : c ≠ 0 := fun e => h0 (by simp [e])
    have hnot := hw c List.mem_cons_self
    rw [List.cons_append, scan, if_neg hc, if_neg (of_decide_eq_false hnot),
      ih (fun x hx => hw x (List.mem_cons_of_mem _ hx)) fun h => h0 (List.mem_cons_of_mem _ h),
      List.length_cons, Nat.add_right_comm]

theorem scan_delimiter {w : List ℕ} (hw : ∀ c ∈ w, isDelimiter delimiters c = false) (h0 : 0 ∉ w)
    {d : ℕ} (hd : isDelimiter delimiters d = true) (hd0 : d ≠ 0) (s : List ℕ) :
    scan delimiters (w ++ d :: s) = (w.length, true) := by
  rw [scan_word hw h0, scan, if_neg hd0, if_pos (of_decide_eq_true hd), Nat.add_zero]

theorem scan_null {w : List ℕ} (hw : ∀ c ∈ w, isDelimiter delimiters c = false) (h0 : 0 ∉ w)
    (s : List ℕ) : scan delimiters (w ++ 0 :: s) = (w.length, false) := by
  rw [scan_word hw h0, scan, if_pos rfl, Nat.add_zero]

/-- The string `done ++ todo` in a buffer has been cut up to `todo`. -/
structure Cut (delimiters : List ℕ) (a : Area) (junk done todo : List ℕ) (m : Mem) : Prop where
  bytes : m.bytes a = mask delimiters done ++ (todo ++ 0 :: junk)
  no_null : 0 ∉ done ++ todo

variable {a : Area} {junk done todo : List ℕ} {m : Mem}

theorem Cut.from_eq (h : Cut delimiters a junk done todo m) :
    m.from ⟨a, done.length⟩ = todo ++ 0 :: junk := by
  change (m.bytes a).drop done.length = _
  rw [h.bytes, ← length_mask delimiters done, List.drop_left]

theorem Cut.myStrtok_nil (h : Cut delimiters a junk done [] m) (str : Option Ptr)
    (hstr : str.getD m.currentPointer = ⟨a, done.length⟩) :
    myStrtok m str delimiters = ({ m with currentPointer := ⟨a, done.length⟩ }, none) := by
  have hfrom := h.from_eq
  unfold myStrtok
  rw [hstr]
  dsimp only
  rw [hfrom]
  rfl

/-- A call of `my_strtok` cuts off the first token of what is left. -/
theorem Cut.myStrtok_cons (h : Cut delimiters a junk done todo m) (h0 : 0 ∉ delimiters)
    (hne : todo ≠ []) (str : Option Ptr)
    (hstr : str.getD m.currentPointer = ⟨a, done.length⟩) :
    ∃ m' w done' todo', myStrtok m str delimiters = (m', some ⟨a, done.length⟩) ∧
      Cut delimiters a junk done' todo' m' ∧ done' ++ todo' = done ++ todo ∧
      m'.currentPointer = ⟨a, done'.length⟩ ∧
      tokensFrom (isDelimiter delimiters) true done.length todo =
        (done.length, w) :: tokensFrom (isDelimiter delimiters) true done'.length todo' ∧
      IsString (m'.from ⟨a, done.length⟩) w ∧ 0 ∉ w ∧
      (∀ b, b ≠ a → m'.bytes b = m.bytes b) ∧ todo'.length < todo.length ∧
      (m'.bytes a).length = (m.bytes a).length := by
  have hfrom := h.from_eq
  have hdrop : ∀ s : List ℕ, (mask delimiters done ++ s).drop done.length = s := by
    intro s
    rw [← length_mask delimiters done, List.drop_left]
  have hnull : 0 ∉ todo := fun hm => h.no_null (List.mem_append_right _ hm)
  have hhead : (todo ++ 0 :: junk).headD 0 ≠ 0 := by
    cases todo with
    | nil => exact absurd rfl hne
    | cons c todo =>
      intro e
      exact hnull (by rw [← show c = 0 from e]; exact List.mem_cons_self)
  obtain ⟨w, hw, he | ⟨d, rest, hd, he⟩⟩ := split_run (isDelimiter delimiters) todo
  · -- the last token
    have hw0 : 0 ∉ w := he ▸ hnull
    have hwne : w ≠ [] := he ▸ hne
    refine ⟨{ m with currentPointer := ⟨a, done.length + w.length⟩ }, w, done ++ w, [], ?_,
      ⟨?_, ?_⟩, ?_, ?_, ?_, ?_, hw0, fun _ _ => rfl, ?_, rfl⟩
    · unfold myStrtok
      rw [hstr]
      dsimp only
      rw [hfrom, if_neg hhead, he, scan_null hw hw0]
    · change m.bytes a = _
      rw [h.bytes, mask_append, mask_token hw, he, List.append_assoc, List.nil_append]
    · rw [List.append_nil, ← he]
      exact h.no_null
    · rw [List.append_nil, he]
    · rw [List.length_append]
    · rw [he, tokensFrom_last hw hwne, tokensFrom_nil]
    · refine ⟨junk, ?_⟩
      change (m.bytes a).drop done.length = _
      rw [h.bytes, hdrop, he]
    · rw [he]
      exact List.length_pos_iff.2 hwne
  · -- a token that a delimiter ends
    have hw0 : 0 ∉ w := fun hm => hnull (by rw [he]; exact List.mem_append_left _ hm)
    have hd0 : d ≠ 0 := by
      rintro rfl
      exact h0 (of_decide_eq_true hd)
    have hset : (m.bytes a).set (done.length + w.length) 0 =
        mask delimiters (done ++ w ++ [d]) ++ (rest ++ 0 :: junk) := by
      have hsplit : m.bytes a = (mask delimiters done ++ w) ++ d :: (rest ++ 0 :: junk) := by
        rw [h.bytes, he]
        simp
      have hlen : (mask delimiters done ++ w).length = done.length + w.length := by
        rw [List.length_append, length_mask]
      rw [hsplit, ← hlen, List.set_append_right _ _ le_rfl, Nat.sub_self, List.set_cons_zero,
        mask_append, mask_append, mask_token hw, mask_delimiter hd]
      simp
    refine ⟨{ m.setBytes a ((m.bytes a).set (done.length + w.length) 0) with
        currentPointer := ⟨a, done.length + w.length + 1⟩ }, w, done ++ w ++ [d], rest, ?_,
      ⟨?_, ?_⟩, ?_, ?_, ?_, ?_, hw0, ?_, ?_, ?_⟩
    · unfold myStrtok
      rw [hstr]
      dsimp only
      rw [hfrom, if_neg hhead, he, List.append_assoc, List.cons_append,
        scan_delimiter hw hw0 hd hd0]
    · change Function.update m.bytes a _ a = _
      rw [Function.update_self, hset]
    · rw [List.append_assoc, List.append_assoc, List.singleton_append, ← he]
      exact h.no_null
    · rw [he]
      simp
    · rw [List.length_append, List.length_append, List.length_singleton]
    · rw [he, tokensFrom_delim hw hd, List.length_append, List.length_append,
        List.length_singleton]
    · refine ⟨rest ++ 0 :: junk, ?_⟩
      change (Function.update m.bytes a _ a).drop done.length = _
      rw [Function.update_self, hset, mask_append, mask_append, mask_token hw, mask_delimiter hd,
        List.append_assoc, List.append_assoc, hdrop]
      simp
    · intro b hb
      exact Function.update_of_ne hb _ _
    · rw [he, List.length_append, List.length_cons]
      omega
    · change (Function.update m.bytes a _ a).length = _
      rw [Function.update_self, List.length_set]

/-- The loop collects the tokens of what is left. -/
theorem Cut.moreTokens {fuel : ℕ} (h : Cut delimiters a junk done todo m) (h0 : 0 ∉ delimiters)
    (hptr : m.currentPointer = ⟨a, done.length⟩) (hfuel : todo.length < fuel) :
    ∃ m', moreTokens delimiters fuel m = some (m',
        (tokensFrom (isDelimiter delimiters) true done.length todo).map fun t => ⟨a, t.1⟩) ∧
      Cut delimiters a junk (done ++ todo) [] m' ∧ ∀ b, b ≠ a → m'.bytes b = m.bytes b := by
  induction fuel generalizing m done todo with
  | zero => omega
  | succ fuel ih =>
    rw [TextSearch.moreTokens]
    by_cases hne : todo = []
    · subst hne
      rw [h.myStrtok_nil none hptr]
      refine ⟨_, rfl, ⟨?_, ?_⟩, fun _ _ => rfl⟩
      · rw [List.append_nil]
        exact h.bytes
      · rw [List.append_nil]
        exact h.no_null
    · obtain ⟨m₁, w, done₁, todo₁, hcall, hcut, hall, hptr₁, htokens, -, -, hother, hlt, -⟩ :=
        h.myStrtok_cons h0 hne none hptr
      obtain ⟨m', hmore, hcut', hother'⟩ := ih hcut hptr₁ (by omega)
      rw [hcall]
      refine ⟨m', ?_, hall ▸ hcut', fun b hb => (hother' b hb).trans (hother b hb)⟩
      dsimp only
      rw [hmore, htokens, Option.map_some, List.map_cons]

/-- `tokenList` finds the tokens of a string that is not empty, if the list has room for them. -/
theorem tokenList_eq (room : ℕ) {l : List ℕ} (h0 : 0 ∉ delimiters) (hl : l ≠ []) (hnull : 0 ∉ l)
    (hbytes : m.bytes a = l ++ 0 :: junk) :
    ∃ m', tokenList room delimiters m ⟨a, 0⟩ =
        (if (tokens (isDelimiter delimiters) l).length ≤ room then
          some (m', (tokens (isDelimiter delimiters) l).map fun t => ⟨a, t.1⟩) else none) ∧
      m'.bytes a = mask delimiters l ++ 0 :: junk ∧ ∀ b, b ≠ a → m'.bytes b = m.bytes b := by
  have hcut : Cut delimiters a junk [] l m := ⟨hbytes, hnull⟩
  obtain ⟨m₁, w, done₁, todo₁, hcall, hcut₁, hall, hptr₁, htokens, -, -, hother, hlt, hlen⟩ :=
    hcut.myStrtok_cons h0 hl (some ⟨a, 0⟩) rfl
  have hfuel : todo₁.length < (m₁.bytes a).length + 1 := by
    rw [hlen, hbytes, List.length_append, List.length_cons]
    omega
  obtain ⟨m', hmore, hcut', hother'⟩ := hcut₁.moreTokens h0 hptr₁ hfuel
  refine ⟨m', ?_, ?_, fun b hb => (hother' b hb).trans (hother b hb)⟩
  · have htokens' : tokens (isDelimiter delimiters) l = (0, w) ::
        tokensFrom (isDelimiter delimiters) true done₁.length todo₁ := htokens
    rw [tokenList, hcall, htokens']
    dsimp only
    rw [hmore, Option.bind_eq_bind, Option.bind_some, List.map_cons, List.length_cons]
    dsimp only
    rw [List.length_map]
    rfl
  · rw [hcut'.bytes, hall]
    rfl

/-- In the cut string every token is a string. -/
theorem isString_token {l w : List ℕ} {i : ℕ} (hnull : 0 ∉ l)
    (hbytes : m.bytes a = mask delimiters l ++ 0 :: junk)
    (hmem : (i, w) ∈ tokens (isDelimiter delimiters) l) :
    IsString (m.from ⟨a, i⟩) w ∧ 0 ∉ w := by
  obtain ⟨j, hj, hi, hw, -⟩ := mem_tokensFrom.1 hmem
  rw [Nat.zero_add] at hi
  subst hi
  have hfrom : m.from ⟨a, i⟩ = mask delimiters (l.drop i) ++ 0 :: junk := by
    change (m.bytes a).drop i = _
    have hle : i ≤ (mask delimiters l).length := by
      rw [length_mask]
      omega
    rw [hbytes, List.drop_append_of_le_length hle, mask, mask, List.map_drop]
  rw [hfrom]
  obtain ⟨w', hw', he | ⟨d, rest, hd, he⟩⟩ := split_run (isDelimiter delimiters) (l.drop i)
  · rw [he, run_self hw'] at hw
    subst hw
    refine ⟨⟨junk, by rw [he, mask_token hw']⟩, fun h => hnull ?_⟩
    exact List.mem_of_mem_drop (he ▸ h)
  · rw [he, run_append hw', run_cons, if_pos hd, List.append_nil] at hw
    subst hw
    refine ⟨⟨mask delimiters rest ++ 0 :: junk, ?_⟩, fun h => hnull ?_⟩
    · have hsplit : w ++ d :: rest = w ++ ([d] ++ rest) := rfl
      rw [he, hsplit, mask_append, mask_append, mask_token hw', mask_delimiter hd]
      simp
    · refine List.mem_of_mem_drop (i := i) ?_
      rw [he]
      exact List.mem_append_left _ h

end Cutting

end TextSearch
