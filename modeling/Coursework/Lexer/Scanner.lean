import Mathlib.Data.List.Basic
import Coursework.Lib.Pieces

/-! The scanner of a small language: `scanner.lexical` with its two helper loops. Strings are
lists of characters. -/
namespace Lexer

/-- `" "`, a tab and a newline. -/
def blanks : List Char := [' ', '\t', '\n']

def bracket : List (List Char) := [['('], [')'], ['{'], ['}']]
def operator : List (List Char) := [['<'], ['+'], ['*'], ['=']]
def otherCharacter : List (List Char) := [[','], [';']]
/-- `'int'` and `'char'`. -/
def type : List (List Char) := [['i', 'n', 't'], ['c', 'h', 'a', 'r']]
/-- `'IF'`, `'THEN'` and `'ELSE'`. -/
def statement : List (List Char) := [['I', 'F'], ['T', 'H', 'E', 'N'], ['E', 'L', 'S', 'E']]
/-- `"EXIT"`. -/
def exit : List (List Char) := [['E', 'X', 'I', 'T']]

def isSymbol (c : Char) : Bool := [c] ∈ bracket || [c] ∈ operator || [c] ∈ otherCharacter

/-- The character tables behind `isdigit`, `isdecimal` and `isalpha`, with what is documented of
them: a decimal digit is a digit, a digit is no letter, and blanks and symbols are neither. -/
structure Tables where
  isdigit : Char → Bool
  isdecimal : Char → Bool
  isalpha : Char → Bool
  isdigit_of_isdecimal : ∀ c, isdecimal c = true → isdigit c = true
  not_isalpha : ∀ c, isdigit c = true → isalpha c = false
  not_isdigit : ∀ c, c ∈ blanks ∨ isSymbol c = true → isdigit c = false
  not_isalpha_symbol : ∀ c, c ∈ blanks ∨ isSymbol c = true → isalpha c = false

inductive Kind where
  | number
  | type
  | statement
  | exit
  | word
  | bracket
  | operator
  | commaSemicolon
  deriving DecidableEq

def Kind.label : Kind → String
  | .number => "number"
  | .type => "type : "
  | .statement => "statement : "
  | .exit => "EXIT : "
  | .word => "word : "
  | .bracket => "bracket : "
  | .operator => "operator : "
  | .commaSemicolon => "comma, semicolon : "

/-- An element of `tokens`: a token with its kind, or the `0` that an error appends. -/
inductive Entry where
  | pair (kind : Kind) (token : List Char)
  | zero
  deriving DecidableEq

/-- How `lexical` ends: it returns, it prints its message with an index and exits, or an
assertion fails. -/
inductive Outcome where
  | done (tokens : List Entry)
  | wrongInput (idx : ℕ) (tokens : List Entry)
  | assertion
  deriving DecidableEq

/-- What `lexical` prints. -/
def Outcome.printed : Outcome → Option String
  | .wrongInput idx _ => some ("Lexical Error: Wrong Input" ++ toString idx)
  | .done _ | .assertion => none

/-- The loop of the two helpers: how many characters satisfy `p`. -/
def readLoop (p : Char → Bool) : List Char → ℕ
  | [] => 0
  | c :: code => if p c then readLoop p code + 1 else 0

/-- `read_full_digit` and `read_full_string`; `none` is a failed assertion. -/
def readFull (p : Char → Bool) (code : List Char) (idx : ℕ) : Option (List Char) :=
  let ret := readLoop p (code.drop idx)
  if 0 < ret then some ((code.drop idx).take ret) else none

def readFullDigit (u : Tables) : List Char → ℕ → Option (List Char) := readFull u.isdigit

def readFullString (u : Tables) : List Char → ℕ → Option (List Char) := readFull u.isalpha

/-- The kind of a token of letters. -/
def wordKind (token : List Char) : Kind :=
  if token ∈ type then .type
  else if token ∈ statement then .statement
  else if token ∈ exit then .exit
  else .word

/-- The kind of a symbol. -/
def symbolKind (c : Char) : Option Kind :=
  if [c] ∈ bracket then some .bracket
  else if [c] ∈ operator then some .operator
  else if [c] ∈ otherCharacter then some .commaSemicolon
  else none

/-- The loop of `lexical`. The last of its comparisons with blanks is with three spaces. -/
def lexicalLoop (u : Tables) (code : List Char) : ℕ → ℕ → List Entry → Option Outcome
  | 0, _, _ => none
  | fuel + 1, idx, tokens =>
    match code[idx]? with
    | none => some (if 0 < tokens.length then .done tokens else .assertion)
    | some c =>
      if u.isdigit c then
        match readFullDigit u code idx with
        | none => some .assertion
        | some token =>
          lexicalLoop u code fuel (idx + token.length) (tokens ++ [.pair .number token])
      else if u.isalpha c then
        match readFullString u code idx with
        | none => some .assertion
        | some token =>
          lexicalLoop u code fuel (idx + token.length) (tokens ++ [.pair (wordKind token) token])
      else if [c] = [' '] ∨ [c] = ['\n'] ∨ [c] = [' ', ' ', ' '] then
        lexicalLoop u code fuel (idx + 1) tokens
      else
        match symbolKind c with
        | some kind => lexicalLoop u code fuel (idx + 1) (tokens ++ [.pair kind [c]])
        | none => some (.wrongInput idx (tokens ++ [.zero]))

def lexical (u : Tables) (code : List Char) : Option Outcome :=
  lexicalLoop u code (code.length + 1) 0 []

theorem readLoop_eq (p : Char → Bool) (code : List Char) :
    readLoop p code = (code.takeWhile p).length := by
  induction code with
  | nil => rfl
  | cons c code ih =>
    rw [readLoop, List.takeWhile_cons]
    by_cases hp : p c
    · rw [if_pos hp, if_pos hp, ih, List.length_cons]
    · rw [if_neg hp, if_neg hp, List.length_nil]

theorem readFull_eq {p : Char → Bool} {code : List Char} {idx : ℕ} {c : Char}
    (hc : code[idx]? = some c) (hp : p c = true) :
    readFull p code idx = some ((code.drop idx).takeWhile p) := by
  obtain ⟨hi, rfl⟩ := List.getElem?_eq_some_iff.1 hc
  have hpos : 0 < ((code.drop idx).takeWhile p).length := by
    rw [List.drop_eq_getElem_cons hi, List.takeWhile_cons_of_pos hp]
    exact Nat.succ_pos _
  unfold readFull
  rw [readLoop_eq]
  dsimp only
  rw [if_pos hpos, ← List.prefix_iff_eq_take.1 (List.takeWhile_prefix p)]

/-- The kind of a word is that of the list that it is in. -/
structure IsWord (kind : Kind) (token : List Char) : Prop where
  type : kind = .type ↔ token ∈ Lexer.type
  statement : kind = .statement ↔ token ∈ Lexer.statement
  exit : kind = .exit ↔ token ∈ Lexer.exit
  word : kind = .word ↔ token ∉ Lexer.type ∧ token ∉ Lexer.statement ∧ token ∉ Lexer.exit

theorem isWord_wordKind (token : List Char) : IsWord (wordKind token) token := by
  have htype : ∀ w ∈ type, w ∉ statement ∧ w ∉ exit := by decide
  have hstatement : ∀ w ∈ statement, w ∉ exit := by decide
  unfold wordKind
  by_cases h₁ : token ∈ type
  · obtain ⟨h₂, h₃⟩ := htype token h₁
    rw [if_pos h₁]
    constructor <;> simp [h₁, h₂, h₃]
  · rw [if_neg h₁]
    by_cases h₂ : token ∈ statement
    · have h₃ := hstatement token h₂
      rw [if_pos h₂]
      constructor <;> simp [h₁, h₂, h₃]
    · rw [if_neg h₂]
      by_cases h₃ : token ∈ exit
      · rw [if_pos h₃]
        constructor <;> simp [h₁, h₂, h₃]
      · rw [if_neg h₃]
        constructor <;> simp [h₁, h₂, h₃]

/-- The kind of a symbol is that of the list that it is in. -/
inductive IsSymbol : Kind → Char → Prop
  | bracket {c} : [c] ∈ Lexer.bracket → IsSymbol .bracket c
  | operator {c} : [c] ∈ Lexer.operator → IsSymbol .operator c
  | commaSemicolon {c} : [c] ∈ otherCharacter → IsSymbol .commaSemicolon c

theorem symbolKind_cases (c : Char) :
    (symbolKind c = none ∧ isSymbol c = false) ∨
      ∃ kind, symbolKind c = some kind ∧ IsSymbol kind c ∧ isSymbol c = true := by
  unfold symbolKind isSymbol
  by_cases h₁ : [c] ∈ bracket
  · exact .inr ⟨_, if_pos h₁, .bracket h₁, by simp [h₁]⟩
  · rw [if_neg h₁]
    by_cases h₂ : [c] ∈ operator
    · exact .inr ⟨_, if_pos h₂, .operator h₂, by simp [h₂]⟩
    · rw [if_neg h₂]
      by_cases h₃ : [c] ∈ otherCharacter
      · exact .inr ⟨_, if_pos h₃, .commaSemicolon h₃, by simp [h₃]⟩
      · exact .inl ⟨if_neg h₃, by simp [h₁, h₂, h₃]⟩

end Lexer
