import Winnow.Data.Basic

/-!
# JSON tokens

The words of a JSON text. Blanks separate words and mean nothing else.
-/
namespace Winnow.Json

inductive Token
  | openList | closeList | openRecord | closeRecord | comma | colon
  | value (scalar : Data)
  | text (s : String)
deriving BEq, Repr

inductive SyntaxError
  | badText
  | badNumber
  | unexpectedCharacter (c : Char)
  | misplaced
  | unfinished
  | trailing
  | notUtf8
deriving DecidableEq, Repr

def SyntaxError.message : SyntaxError → String
  | .badText => "malformed text"
  | .badNumber => "malformed number"
  | .unexpectedCharacter c => s!"unexpected character {c}"
  | .misplaced => "misplaced token"
  | .unfinished => "unexpected end of input"
  | .trailing => "trailing input"
  | .notUtf8 => "input is not UTF-8"

def hexValue? (c : Char) : Option Nat :=
  if '0' ≤ c ∧ c ≤ '9' then some (c.toNat - '0'.toNat)
  else if 'a' ≤ c ∧ c ≤ 'f' then some (c.toNat - 'a'.toNat + 10)
  else if 'A' ≤ c ∧ c ≤ 'F' then some (c.toNat - 'A'.toNat + 10)
  else none

/-- The code unit that four hexadecimal digits spell. -/
def unit? (a b c d : Char) : Option Nat := do
  return ((← hexValue? a) * 16 + (← hexValue? b)) * 256 + (← hexValue? c) * 16 + (← hexValue? d)

def isHighSurrogate (n : Nat) : Bool := 0xd800 ≤ n && n < 0xdc00

def isLowSurrogate (n : Nat) : Bool := 0xdc00 ≤ n && n < 0xe000

/-- What a backslash makes of the character after it. -/
def unescape? : Char → Option Char
  | '"' => some '"'
  | '\\' => some '\\'
  | '/' => some '/'
  | 'b' => some '\x08'
  | 'f' => some '\x0c'
  | 'n' => some '\n'
  | 'r' => some '\r'
  | 't' => some '\t'
  | _ => none

/-- The character of a high code unit and the low one that has to follow it. -/
def readPair (high : Nat) : List Char → Option (Char × List Char)
  | '\\' :: 'u' :: a :: b :: c :: d :: rest =>
    match unit? a b c d with
    | none => none
    | some low =>
      if isLowSurrogate low then
        some (Char.ofNat (0x10000 + (high - 0xd800) * 0x400 + (low - 0xdc00)), rest)
      else none
  | _ => none

/-- The character of a code unit; one outside the basic plane takes two. -/
def readUnit (n : Nat) (rest : List Char) : Option (Char × List Char) :=
  if isHighSurrogate n then readPair n rest
  else if isLowSurrogate n then none
  else some (Char.ofNat n, rest)

/-- Reads one character between the quotes. -/
def readChar : List Char → Option (Char × List Char)
  | [] => none
  | '\\' :: 'u' :: a :: b :: c :: d :: rest =>
    match unit? a b c d with
    | none => none
    | some n => readUnit n rest
  | '\\' :: c :: rest => (unescape? c).map fun e => (e, rest)
  | c :: rest => if c.toNat < 32 then none else some (c, rest)

theorem length_readPair {n : Nat} {l rest : List Char} {c : Char}
    (h : readPair n l = some (c, rest)) : rest.length < l.length := by
  unfold readPair at h
  split at h
  · split at h
    · simp at h
    · split at h
      · obtain ⟨-, rfl⟩ := by simpa using h
        simp; omega
      · simp at h
  · simp at h

theorem length_readUnit {n : Nat} {l rest : List Char} {c : Char}
    (h : readUnit n l = some (c, rest)) : rest.length ≤ l.length := by
  unfold readUnit at h
  split at h
  · exact Nat.le_of_lt (length_readPair h)
  · split at h
    · simp at h
    · obtain ⟨-, rfl⟩ := by simpa using h
      exact Nat.le_refl _

theorem length_readChar {l rest : List Char} {c : Char} (h : readChar l = some (c, rest)) :
    rest.length < l.length := by
  unfold readChar at h
  split at h
  · simp at h
  · split at h
    · simp at h
    · have := length_readUnit h
      simp only [List.length_cons]; omega
  · obtain ⟨-, -, -, rfl⟩ := by simpa using h
    simp only [List.length_cons]; omega
  · split at h
    · simp at h
    · obtain ⟨-, rfl⟩ := by simpa using h
      simp

/-- Reads up to and with the closing quote. -/
def readText (l : List Char) : Option (List Char × List Char) :=
  match l with
  | '"' :: rest => some ([], rest)
  | l =>
    match h : readChar l with
    | none => none
    | some (c, rest) =>
      have := length_readChar h
      (readText rest).map fun p => (c :: p.1, p.2)
termination_by l.length

theorem length_readText {l s rest : List Char} (h : readText l = some (s, rest)) :
    rest.length < l.length := by
  fun_induction readText l generalizing s rest with
  | case1 l => obtain ⟨-, rfl⟩ := by simpa using h
               simp
  | case2 => simp at h
  | case3 l _ c tail hc _ ih =>
    obtain ⟨p, hr, hp⟩ := Option.map_eq_some_iff.mp h
    obtain ⟨-, rfl⟩ := Prod.mk.inj hp
    exact Nat.lt_trans (ih hr) (length_readChar hc)

def isNumberChar (c : Char) : Bool :=
  c.isDigit || c = '-' || c = '+' || c = '.' || c = 'e' || c = 'E'

/-- At least one digit, then nothing else. -/
def allDigits (l : List Char) : Bool := l ≠ [] && l.all Char.isDigit

/-- `0`, or digits that do not begin with `0`. -/
def isWhole : List Char → Bool
  | ['0'] => true
  | '0' :: _ => false
  | l => allDigits l

def isExponent : List Char → Bool
  | '+' :: l | '-' :: l => allDigits l
  | l => allDigits l

/-- Optional fraction and exponent. -/
def isTail (l : List Char) : Bool :=
  match l with
  | [] => true
  | '.' :: l =>
    let (fraction, rest) := l.span Char.isDigit
    fraction ≠ [] && (rest = [] || ((rest.head? = some 'e' || rest.head? = some 'E') && isExponent rest.tail))
  | 'e' :: l | 'E' :: l => isExponent l
  | _ => false

def isReal (l : List Char) : Bool :=
  let l := match l with
    | '-' :: l => l
    | l => l
  let (whole, rest) := l.span Char.isDigit
  isWhole whole && isTail rest

/-- The number that a word spells. -/
def number? (word : List Char) : Option Data :=
  if isWhole word then
    let n := word.foldl (fun n c => n * 10 + (c.toNat - '0'.toNat)) 0
    some (if n < UInt64.size then .natural n else .number (String.ofList word))
  else if isReal word then some (.number (String.ofList word))
  else none

def isBlank (c : Char) : Bool := c = ' ' || c = '\n' || c = '\t' || c = '\r'

/-- The words of a text. -/
def lex (l : List Char) : Except SyntaxError (List Token) :=
  match l with
  | [] => .ok []
  | '[' :: l => (lex l).map (.openList :: ·)
  | ']' :: l => (lex l).map (.closeList :: ·)
  | '\x7b' :: l => (lex l).map (.openRecord :: ·)
  | '\x7d' :: l => (lex l).map (.closeRecord :: ·)
  | ',' :: l => (lex l).map (.comma :: ·)
  | ':' :: l => (lex l).map (.colon :: ·)
  | 'n' :: 'u' :: 'l' :: 'l' :: l => (lex l).map (.value .null :: ·)
  | 't' :: 'r' :: 'u' :: 'e' :: l => (lex l).map (.value (.bool true) :: ·)
  | 'f' :: 'a' :: 'l' :: 's' :: 'e' :: l => (lex l).map (.value (.bool false) :: ·)
  | '"' :: l =>
    match h : readText l with
    | none => .error .badText
    | some (s, rest) =>
      have := length_readText h
      (lex rest).map (.text (String.ofList s) :: ·)
  | c :: l =>
    if isBlank c then lex l
    else if c.isDigit ∨ c = '-' then
      match number? (c :: l.takeWhile isNumberChar) with
      | none => .error .badNumber
      | some n =>
        have := (List.dropWhile_sublist (l := l) isNumberChar).length_le
        (lex (l.dropWhile isNumberChar)).map (.value n :: ·)
    else .error (.unexpectedCharacter c)
termination_by l.length
decreasing_by all_goals simp only [List.length_cons]; omega

end Winnow.Json
