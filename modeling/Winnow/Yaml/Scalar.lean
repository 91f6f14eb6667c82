import Winnow.Json.Token

/-!
# YAML scalars

Reading one scalar from the rest of a text. A scalar may go over several lines;
a line break in it counts as a blank, and `n` further ones as `n` breaks.
-/
namespace Winnow.Yaml

inductive SyntaxError
  | badCharacter
  | notUtf8
  /-- A character that no token begins with. -/
  | unexpectedCharacter (line : Nat)
  | unclosedQuote (line : Nat)
  | badEscape (line : Nat)
  /-- A tab where only blanks may indent. -/
  | tabIndent (line : Nat)
  | badColon (line : Nat)
  /-- A dash, question mark or colon where no such entry may begin. -/
  | misplacedEntry (line : Nat)
  /-- A line that should have been a key. -/
  | missingColon (line : Nat)
  | unexpectedToken
  | keyIsNoText
  | severalDocuments
deriving DecidableEq, Repr

def SyntaxError.message : SyntaxError → String
  | .badCharacter => "control characters are not allowed"
  | .notUtf8 => "input is not UTF-8"
  | .unexpectedCharacter line => s!"unexpected character in line {line + 1}"
  | .unclosedQuote line => s!"quote not closed in line {line + 1}"
  | .badEscape line => s!"unknown escape in line {line + 1}"
  | .tabIndent line => s!"tab used for indentation in line {line + 1}"
  | .badColon line => s!"unexpected colon in line {line + 1}"
  | .misplacedEntry line => s!"entry not allowed here in line {line + 1}"
  | .missingColon line => s!"expected a colon in line {line + 1}"
  | .unexpectedToken => "unexpected token"
  | .keyIsNoText => "key is no text"
  | .severalDocuments => "more than one document"

/-- The rest of a text, with the place in the whole. -/
structure Cursor where
  input : List Char
  line : Nat := 0
  column : Nat := 0
deriving DecidableEq, Repr

def isBlank (c : Char) : Bool := c = ' ' || c = '\t'

def isFlowMark (c : Char) : Bool := c ∈ [',', '[', ']', '\x7b', '\x7d']

/-- Nothing, a blank or a line break comes next. -/
def endsWord : List Char → Bool
  | [] => true
  | c :: _ => isBlank c || c = '\n'

namespace Cursor

/-- Steps over `n` characters of the line. -/
def skip (c : Cursor) (n : Nat) : Cursor :=
  { c with input := c.input.drop n, column := c.column + n }

/-- Steps over a line break. -/
def nextLine (c : Cursor) : Cursor := ⟨c.input.tail, c.line + 1, 0⟩

/-- A mark between documents stands here. -/
def atDocumentMark (c : Cursor) : Bool :=
  c.column = 0 && match c.input with
    | '-' :: '-' :: '-' :: l | '.' :: '.' :: '.' :: l => endsWord l
    | _ => false

/-- Steps over at most `n` blanks and line breaks, and counts the latter. A tab must not stand
before the column `least` of a later line. -/
def skipSpaceFrom (least : Nat) : Nat → Nat → Cursor → Except SyntaxError (Nat × Cursor)
  | 0, breaks, c => .ok (breaks, c)
  | n + 1, breaks, c =>
    match c.input with
    | [] => .ok (breaks, c)
    | d :: _ =>
      if d = '\n' then skipSpaceFrom least n (breaks + 1) c.nextLine
      else if d = '\t' && 0 < breaks && c.column < least then .error (.tabIndent c.line)
      else if isBlank d then skipSpaceFrom least n breaks (c.skip 1)
      else .ok (breaks, c)

/-- Steps over all blanks and line breaks. -/
def skipSpace (c : Cursor) (least : Nat) : Except SyntaxError (Nat × Cursor) :=
  skipSpaceFrom least c.input.length 0 c

end Cursor

/-- What stands for blanks between two words. -/
def gap (blanks : List Char) : Nat → List Char
  | 0 => blanks
  | 1 => [' ']
  | breaks + 1 => List.replicate breaks '\n'

/-- The characters of a plain scalar up to a blank, a line break or an end of the scalar. -/
def plainWord (inFlow : Bool) (line : Nat) : List Char → Except SyntaxError (List Char)
  | [] => .ok []
  | c :: l =>
    if isBlank c || c = '\n' then .ok []
    else if inFlow && c = ':' && (l.head?.any fun d => isFlowMark d || d = '?') then
      .error (.badColon line)
    else if (c = ':' && endsWord l) || (inFlow && isFlowMark c) then .ok []
    else (plainWord inFlow line l).map (c :: ·)

/-- Reads a plain scalar of which `text` is already read, followed by `between`. In a block a
later line has to reach the column `least`. The flag tells whether a line break came last. -/
def readPlain (inFlow : Bool) (least : Nat) (text between : List Char) (crossed : Bool) :
    Nat → Cursor → Except SyntaxError (List Char × Bool × Cursor)
  | 0, c => .ok (text, crossed, c)
  | n + 1, c => do
    if c.atDocumentMark || c.input.head? = some '#' then return (text, crossed, c)
    let word ← plainWord inFlow c.line c.input
    if word = [] then return (text, crossed, c)
    let text := text ++ between ++ word
    let c := c.skip word.length
    let blanks := c.input.takeWhile isBlank
    let (breaks, next) ← c.skipSpace least
    if blanks = [] && breaks = 0 then return (text, false, next)
    if !inFlow && 0 < breaks && next.column < least then return (text, true, next)
    readPlain inFlow least text (gap blanks breaks) (0 < breaks) n next

/-- The character that a backslash and a letter stand for. -/
def unescape? : Char → Option Char
  | '0' => some '\x00'
  | 'a' => some '\x07'
  | 'b' => some '\x08'
  | 't' | '\t' => some '\t'
  | 'n' => some '\n'
  | 'v' => some '\x0b'
  | 'f' => some '\x0c'
  | 'r' => some '\r'
  | 'e' => some '\x1b'
  | ' ' => some ' '
  | '"' => some '"'
  | '/' => some '/'
  | '\\' => some '\\'
  | 'N' => some '\u0085'
  | '_' => some '\u00a0'
  | 'L' => some '\u2028'
  | 'P' => some '\u2029'
  | _ => none

/-- The number of hexadecimal digits after such an escape. -/
def hexLength? : Char → Option Nat
  | 'x' => some 2
  | 'u' => some 4
  | 'U' => some 8
  | _ => none

/-- The character whose number `n` hexadecimal digits spell. -/
def hexChar? (n : Nat) (l : List Char) : Option Char := do
  let digits ← (l.take n).mapM Json.hexValue?
  let value := digits.foldl (fun v d => v * 16 + d) 0
  if digits.length = n ∧ value.isValidChar then some (Char.ofNat value) else none

/-- Reads the rest of a quoted scalar. -/
def readQuoted (single : Bool) (text : List Char) :
    Nat → Cursor → Except SyntaxError (List Char × Cursor)
  | 0, c => .error (.unclosedQuote c.line)
  | n + 1, c => do
    if c.atDocumentMark then throw (.unclosedQuote c.line)
    match c.input with
    | [] => throw (.unclosedQuote c.line)
    | d :: l =>
      if isBlank d || d = '\n' then
        let blanks := c.input.takeWhile isBlank
        let (breaks, next) ← c.skipSpace 0
        readQuoted single (text ++ gap blanks breaks) n next
      else if single then
        match d, l with
        | '\x27', '\x27' :: _ => readQuoted single (text ++ ['\x27']) n (c.skip 2)
        | '\x27', _ => return (text, c.skip 1)
        | d, _ => readQuoted single (text ++ [d]) n (c.skip 1)
      else
        match d, l with
        | '"', _ => return (text, c.skip 1)
        | '\\', '\n' :: _ =>
          let (breaks, next) ← (c.skip 1).nextLine.skipSpace 0
          readQuoted single (text ++ List.replicate breaks '\n') n next
        | '\\', e :: l =>
          match unescape? e with
          | some e => readQuoted single (text ++ [e]) n (c.skip 2)
          | none =>
            match hexLength? e with
            | none => throw (.badEscape c.line)
            | some digits =>
              match hexChar? digits l with
              | none => throw (.badEscape c.line)
              | some e => readQuoted single (text ++ [e]) n (c.skip (2 + digits))
        | d, _ => readQuoted single (text ++ [d]) n (c.skip 1)

end Winnow.Yaml
