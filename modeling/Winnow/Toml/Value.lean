import Winnow.Data.Plain
import Winnow.Json.Token
import Winnow.Text

/-!
# TOML keys and values

Keys, strings, numbers, arrays and inline tables, read from the front of a text.
-/
namespace Winnow.Toml

inductive SyntaxError
  | badKey
  | badString
  | badValue
  | badCharacter
  | badHeader
  | duplicateKey (name : String)
  | notUtf8
deriving DecidableEq, Repr

def SyntaxError.message : SyntaxError → String
  | .badKey => "malformed key"
  | .badString => "malformed string"
  | .badValue => "malformed value"
  | .badCharacter => "unexpected character"
  | .badHeader => "malformed table header"
  | .duplicateKey name => s!"key {name} is defined twice"
  | .notUtf8 => "input is not UTF-8"

/-- Something read, and the text after it. -/
abbrev Before (α : Type) := α × List Char

def isBlank (c : Char) : Bool := c = ' ' || c = '\t'

def skipBlanks (l : List Char) : List Char := l.dropWhile isBlank

/-- Control characters but the tab must not occur in strings and comments. -/
def isControl (c : Char) : Bool := (c < '\x20' && c ≠ '\t') || c = '\x7f'

/-- The text after a comment, if one begins here. -/
def skipComment : List Char → Except SyntaxError (List Char)
  | '#' :: l =>
    let (comment, rest) := l.span (· ≠ '\n')
    let comment := if comment.getLast? = some '\r' then comment.dropLast else comment
    if comment.any isControl then .error .badCharacter else .ok rest
  | l => .ok l

/-- Steps over at most `n` blanks, comments and line breaks. -/
def skipLines : Nat → List Char → Except SyntaxError (List Char)
  | 0, l => .ok l
  | n + 1, l =>
    match skipBlanks l with
    | '\n' :: l | '\r' :: '\n' :: l => skipLines n l
    | '#' :: l => do skipLines n (← skipComment ('#' :: l))
    | l => .ok l

def unescape? : Char → Option Char
  | 'b' => some '\x08'
  | 't' => some '\t'
  | 'n' => some '\n'
  | 'f' => some '\x0c'
  | 'r' => some '\r'
  | '"' => some '"'
  | '\\' => some '\\'
  | _ => none

def hexLength? : Char → Option Nat
  | 'u' => some 4
  | 'U' => some 8
  | _ => none

def hexChar? (n : Nat) (l : List Char) : Option Char := do
  let digits ← (l.take n).mapM Json.hexValue?
  let value := digits.foldl (fun v d => v * 16 + d) 0
  if digits.length = n ∧ value.isValidChar then some (Char.ofNat value) else none

/-- Reads the rest of a string with escapes. -/
def readBasic (text : List Char) : Nat → List Char → Except SyntaxError (Before String)
  | 0, _ => .error .badString
  | n + 1, l =>
    match l with
    | '"' :: l => .ok (String.ofList text.reverse, l)
    | '\\' :: c :: l =>
      match unescape? c with
      | some d => readBasic (d :: text) n l
      | none =>
        match (hexLength? c).bind fun digits => (hexChar? digits l).map (·, digits) with
        | some (d, digits) => readBasic (d :: text) n (l.drop digits)
        | none => .error .badString
    | c :: l => if isControl c then .error .badString else readBasic (c :: text) n l
    | [] => .error .badString

/-- Reads the rest of a string without escapes. -/
def readLiteral (l : List Char) : Except SyntaxError (Before String) :=
  match Text.cut '\x27' l with
  | some (text, rest) =>
    if text.any isControl then .error .badString else .ok (String.ofList text, rest)
  | none => .error .badString

def isBare (c : Char) : Bool := c.isAlphanum || c = '_' || c = '-'

def readKeyPart (l : List Char) : Except SyntaxError (Before String) :=
  match l with
  | '"' :: l => readBasic [] (l.length + 1) l
  | '\x27' :: l => readLiteral l
  | l =>
    let (bare, rest) := l.span isBare
    if bare = [] then .error .badKey else .ok (String.ofList bare, rest)

/-- Reads a key of at most `n` parts with dots between them. -/
def readKey : Nat → List Char → Except SyntaxError (Before (List String))
  | 0, _ => .error .badKey
  | n + 1, l => do
    let (part, l) ← readKeyPart (skipBlanks l)
    match skipBlanks l with
    | '.' :: l =>
      let (parts, l) ← readKey n l
      return (part :: parts, l)
    | l => return ([part], l)

/-- Digits of a base with single underscores between them. -/
def digits? (base : Nat) (l : List Char) : Option Nat :=
  let groups := l.splitOn '_'
  if groups.any (· = []) then none
  else do
    let ds ← groups.flatten.mapM Plain.digit?
    if ds.all (· < base) then some (ds.foldl (fun n d => n * base + d) 0) else none

/-- Digits without superfluous zeros. -/
def decimal? (l : List Char) : Option Nat :=
  if l.head? = some '0' && l ≠ ['0'] then none else digits? 10 l

/-- A whole number between the bounds of a signed 64-bit word. -/
def integer? : List Char → Option Data
  | '0' :: 'x' :: l => natural (digits? 16 l)
  | '0' :: 'o' :: l => natural (digits? 8 l)
  | '0' :: 'b' :: l => natural (digits? 2 l)
  | '+' :: l => natural (decimal? l)
  | '-' :: l => do
    let n ← decimal? l
    if n ≤ UInt64.size / 2 then some (if n = 0 then .natural 0 else .number s!"-{n}") else none
  | l => natural (decimal? l)
where
  natural (n : Option Nat) : Option Data :=
    (n.filter (· < UInt64.size / 2)).map .natural

/-- A number with a fraction or an exponent. -/
def isFloat (l : List Char) : Bool :=
  let unsigned := match l with
    | '+' :: l | '-' :: l => l
    | l => l
  let (mantissa, rest) := unsigned.span fun c => c ≠ 'e' && c ≠ 'E'
  let (whole, fraction) := mantissa.span (· ≠ '.')
  let exponent := match rest.tail with
    | '+' :: l | '-' :: l => l
    | l => l
  unsigned = "inf".toList || unsigned = "nan".toList ||
    ((decimal? whole).isSome && (fraction = [] || (digits? 10 fraction.tail).isSome) &&
      (rest = [] || (digits? 10 exponent).isSome) && (fraction ≠ [] || rest ≠ []))

/-- A truth value or a number. -/
def scalar? (l : List Char) : Option Data :=
  if l = "true".toList then some (.bool true)
  else if l = "false".toList then some (.bool false)
  else match integer? l with
    | some d => some d
    | none => if isFloat l then some (.number (String.ofList l)) else none

def endsScalar (c : Char) : Bool := isBlank c || c ∈ ['\n', '\r', ',', ']', '\x7d', '#']

/-- Puts a value under a dotted key; no key is given twice. -/
def putDotted (fields : List (String × Data)) (value : Data) :
    List String → Except SyntaxError (List (String × Data))
  | [] => .error .badKey
  | [name] =>
    if (fields.lookup name).isSome then .error (.duplicateKey name)
    else .ok (fields ++ [(name, value)])
  | name :: path =>
    match fields.lookup name with
    | none => do return fields ++ [(name, .record (← putDotted [] value path))]
    | some (.record inner) => do
      let inner ← putDotted inner value path
      return fields.map fun (n, d) => if n = name then (n, .record inner) else (n, d)
    | some _ => .error (.duplicateKey name)

mutual

def readValue : Nat → List Char → Except SyntaxError (Before Data)
  | 0, _ => .error .badValue
  | n + 1, l =>
    match l with
    | '"' :: l => do
      let (s, l) ← readBasic [] (l.length + 1) l
      return (.string s, l)
    | '\x27' :: l => do
      let (s, l) ← readLiteral l
      return (.string s, l)
    | '[' :: l => readItems [] n l
    | '\x7b' :: l =>
      match skipBlanks l with
      | '\x7d' :: l => .ok (.record [], l)
      | l => readFields [] n l
    | l =>
      let (word, rest) := l.span (!endsScalar ·)
      match scalar? word with
      | some d => .ok (d, rest)
      | none => .error .badValue

/-- Reads the rest of an array, which may go over several lines. -/
def readItems (items : List Data) : Nat → List Char → Except SyntaxError (Before Data)
  | 0, _ => .error .badValue
  | n + 1, l => do
    match ← skipLines (l.length + 1) l with
    | ']' :: l => return (.list items.reverse, l)
    | l =>
      let (d, l) ← readValue n l
      match ← skipLines (l.length + 1) l with
      | ',' :: l => readItems (d :: items) n l
      | ']' :: l => return (.list (d :: items).reverse, l)
      | _ => throw .badValue

/-- Reads the rest of an inline table, which has at least one field left. -/
def readFields (fields : List (String × Data)) :
    Nat → List Char → Except SyntaxError (Before Data)
  | 0, _ => .error .badValue
  | n + 1, l => do
    let (path, l) ← readKey (l.length + 1) l
    match l with
    | '=' :: l =>
      let (d, l) ← readValue n (skipBlanks l)
      let fields ← putDotted fields d path
      match skipBlanks l with
      | ',' :: l => readFields fields n l
      | '\x7d' :: l => return (.record fields, l)
      | _ => throw .badValue
    | _ => throw .badKey

end

end Winnow.Toml
