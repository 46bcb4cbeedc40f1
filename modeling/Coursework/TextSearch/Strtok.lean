import Coursework.TextSearch.Tokenizer

/-! The calls of `my_strtok` on one string until it returns a null pointer. -/
namespace TextSearch
open Tokens

/-- `my_strtok` called with `str` and then with a null pointer until it returns one: the memory
at the end, and every pointer that was returned with the memory at that time. -/
def strtokCalls (delimiters : List ℕ) : ℕ → Mem → Option Ptr → Option (Mem × List (Mem × Ptr))
  | 0, _, _ => none
  | fuel + 1, m, str =>
    match myStrtok m str delimiters with
    | (m, none) => some (m, [])
    | (m, some result) =>
      (strtokCalls delimiters fuel m none).map fun (m', l) => (m', (m, result) :: l)

/-- The string at a pointer. -/
def Mem.string (m : Mem) (q : Ptr) : List ℕ := (m.from q).takeWhile (· ≠ 0)

/-- Only delimiters of the string `l` at the beginning of a buffer have been overwritten. -/
def WritesDelimiters (delimiters l : List ℕ) (a : Area) (m m' : Mem) : Prop :=
  (∀ b, b ≠ a → m'.bytes b = m.bytes b) ∧
    ∀ i : ℕ, (m'.bytes a)[i]? = (m.bytes a)[i]? ∨ ∃ c ∈ delimiters, l[i]? = some c

/-- The calls come to an end, never write anywhere but at delimiters, and return the tokens in
`ts`, each as the offset and the string that its caller sees. -/
def Yields (delimiters l : List ℕ) (a : Area) (m : Mem) (ts : List (ℕ × List ℕ)) : Prop :=
  ∃ fuel m' calls, strtokCalls delimiters fuel m (some ⟨a, 0⟩) = some (m', calls) ∧
    WritesDelimiters delimiters l a m m' ∧
    (∀ c ∈ calls, c.2.area = a ∧ WritesDelimiters delimiters l a m c.1) ∧
    calls.map (fun c => (c.2.off, c.1.string c.2)) = ts

theorem string_eq {m : Mem} {q : Ptr} {w : List ℕ} (h : IsString (m.from q) w) (h0 : 0 ∉ w) :
    m.string q = w := by
  obtain ⟨r, hr⟩ := h
  unfold Mem.string
  rw [hr, List.takeWhile_append_of_pos]
  · simp
  · intro c hc
    have hne : c ≠ 0 := fun e => h0 (e ▸ hc)
    simpa using hne

theorem strtokCalls_mono {delimiters : List ℕ} {fuel fuel' : ℕ} {m : Mem} {str : Option Ptr}
    {r : Mem × List (Mem × Ptr)} (h : strtokCalls delimiters fuel m str = some r)
    (hle : fuel ≤ fuel') : strtokCalls delimiters fuel' m str = some r := by
  induction fuel generalizing fuel' m str r with
  | zero => cases h
  | succ fuel ih =>
    obtain ⟨fuel', rfl⟩ : ∃ k, fuel' = k + 1 := ⟨fuel' - 1, by omega⟩
    rw [strtokCalls] at h ⊢
    generalize myStrtok m str delimiters = call at h ⊢
    obtain ⟨m₁, _ | result⟩ := call
    · exact h
    · dsimp only at h ⊢
      obtain ⟨r₁, hr₁, he⟩ := Option.map_eq_some_iff.1 h
      rw [ih hr₁ (by omega), Option.map_some, he]

section Calls
variable {delimiters : List ℕ} {a : Area} {junk done todo : List ℕ} {m m₀ : Mem}

theorem Cut.writesDelimiters (h : Cut delimiters a junk done todo m)
    (hbytes : m₀.bytes a = done ++ todo ++ 0 :: junk)
    (hother : ∀ b, b ≠ a → m.bytes b = m₀.bytes b) :
    WritesDelimiters delimiters (done ++ todo) a m₀ m := by
  refine ⟨hother, fun i => ?_⟩
  rw [h.bytes, hbytes, List.append_assoc]
  by_cases hi : i < done.length
  · have hmask : (mask delimiters done)[i]? =
        some (if done[i] ∈ delimiters then 0 else done[i]) := by
      simp [mask, hi]
    rw [List.getElem?_append_left (by rwa [length_mask]), List.getElem?_append_left hi,
      List.getElem?_append_left hi, hmask, List.getElem?_eq_getElem hi]
    by_cases hd : done[i] ∈ delimiters
    · exact .inr ⟨done[i], hd, rfl⟩
    · exact .inl (by rw [if_neg hd])
  · left
    have hle : done.length ≤ i := Nat.le_of_not_lt hi
    have hmask : (mask delimiters done).length ≤ i := by rwa [length_mask]
    rw [List.getElem?_append_right hmask, List.getElem?_append_right hle, length_mask]

/-- The calls that are left return the tokens of what is left of the string. -/
theorem Cut.strtokCalls (h : Cut delimiters a junk done todo m) (h0 : 0 ∉ delimiters)
    (hbytes : m₀.bytes a = done ++ todo ++ 0 :: junk)
    (hother : ∀ b, b ≠ a → m.bytes b = m₀.bytes b) {fuel : ℕ} (hfuel : todo.length < fuel)
    (str : Option Ptr) (hstr : str.getD m.currentPointer = ⟨a, done.length⟩) :
    ∃ m' calls, strtokCalls delimiters fuel m str = some (m', calls) ∧
      WritesDelimiters delimiters (done ++ todo) a m₀ m' ∧
      (∀ c ∈ calls, c.2.area = a ∧ WritesDelimiters delimiters (done ++ todo) a m₀ c.1) ∧
      calls.map (fun c => (c.2.off, c.1.string c.2)) =
        tokensFrom (isDelimiter delimiters) true done.length todo := by
  induction fuel generalizing m done todo str with
  | zero => omega
  | succ fuel ih =>
    rw [TextSearch.strtokCalls]
    by_cases hne : todo = []
    · subst hne
      rw [h.myStrtok_nil str hstr]
      have hend : Cut delimiters a junk done [] { m with currentPointer := ⟨a, done.length⟩ } :=
        ⟨h.bytes, h.no_null⟩
      exact ⟨_, [], rfl, hend.writesDelimiters hbytes hother, by simp, rfl⟩
    · obtain ⟨m₁, w, done₁, todo₁, hcall, hcut, hall, hptr₁, htokens, hw, hw0, hother₁, hlt, -⟩ :=
        h.myStrtok_cons h0 hne str hstr
      have hother' : ∀ b, b ≠ a → m₁.bytes b = m₀.bytes b := fun b hb =>
        (hother₁ b hb).trans (hother b hb)
      have hbytes' : m₀.bytes a = done₁ ++ todo₁ ++ 0 :: junk := by rw [hbytes, hall]
      obtain ⟨m', calls, hcalls, hwrites, heach, hout⟩ :=
        ih hcut hbytes' hother' (by omega) none hptr₁
      rw [hall] at hwrites heach
      rw [hcall]
      dsimp only
      rw [hcalls, Option.map_some]
      refine ⟨m', _, rfl, hwrites, ?_, ?_⟩
      · rintro c hc
        obtain rfl | hc := List.mem_cons.1 hc
        · exact ⟨rfl, hall ▸ hcut.writesDelimiters hbytes' hother'⟩
        · exact heach c hc
      · rw [List.map_cons, hout, htokens]
        dsimp only
        rw [string_eq hw hw0]

/-- The calls return one token for every piece of the string that a delimiter ends, and one for
the rest if it is not empty. -/
theorem yields_tokens {l : List ℕ} (h0 : 0 ∉ delimiters) (hnull : 0 ∉ l)
    (hbytes : m.bytes a = l ++ 0 :: junk) :
    Yields delimiters l a m (tokens (isDelimiter delimiters) l) := by
  have hcut : Cut delimiters a junk [] l m := ⟨hbytes, hnull⟩
  obtain ⟨m', calls, h⟩ := hcut.strtokCalls h0 hbytes (fun _ _ => rfl) (Nat.lt_succ_self _)
    (some ⟨a, 0⟩) rfl
  exact ⟨_, m', calls, h⟩

theorem Yields.unique {l : List ℕ} {ts us : List (ℕ × List ℕ)} (h : Yields delimiters l a m ts)
    (h' : Yields delimiters l a m us) : ts = us := by
  obtain ⟨fuel, m₁, calls, hcalls, -, -, rfl⟩ := h
  obtain ⟨fuel', m₂, calls', hcalls', -, -, rfl⟩ := h'
  have hmax := strtokCalls_mono hcalls (Nat.le_max_left fuel fuel')
  rw [strtokCalls_mono hcalls' (Nat.le_max_right fuel fuel')] at hmax
  cases hmax
  rfl

/-- The calls return the words of a string if and only if no delimiter stands at its beginning
and no two of them stand side by side. -/
theorem strtok_words_iff {l : List ℕ} (h0 : 0 ∉ delimiters) (hnull : 0 ∉ l)
    (hbytes : m.bytes a = l ++ 0 :: junk) :
    Yields delimiters l a m (words (isDelimiter delimiters) l) ↔
      Spaced (isDelimiter delimiters) l := by
  have htokens := yields_tokens h0 hnull hbytes
  rw [← words_eq_tokens_iff]
  refine ⟨fun h => h.unique htokens, fun h => ?_⟩
  rw [h]
  exact htokens

end Calls

/-- The bytes of a string in the buffer for a line of the text. -/
def lineMem (l : List ℕ) : Mem :=
  ⟨fun b => match b with | .textLine => l ++ [0] | .query => [], textStart⟩

/-- "ab\tc " cut at blanks. -/
theorem strtok_words_abTabC :
    Yields blanks [97, 98, 9, 99, 32] .textLine (lineMem [97, 98, 9, 99, 32])
        (words (isDelimiter blanks) [97, 98, 9, 99, 32]) ↔
      Spaced (isDelimiter blanks) [97, 98, 9, 99, 32] :=
  strtok_words_iff (by decide) (by decide) rfl

/-- In " a" the first call returns an empty token. -/
theorem strtok_empty_token :
    words (isDelimiter blanks) [32, 97] = [(1, [97])] ∧
      ¬ Yields blanks [32, 97] .textLine (lineMem [32, 97]) [(1, [97])] := by
  refine ⟨by decide, fun h => ?_⟩
  have htokens : Yields blanks [32, 97] .textLine (lineMem [32, 97])
      (tokens (isDelimiter blanks) [32, 97]) := yields_tokens (by decide) (by decide) rfl
  have hne : tokens (isDelimiter blanks) [32, 97] ≠ [(1, [97])] := by decide
  exact hne (htokens.unique h)

end TextSearch
