import Winnow.Yaml.Scalar

/-!
# YAML tokens

The words of a YAML text, with marks where lists and records begin and end by
indentation alone. Whether a scalar is a key is known only at the colon after
it, so the marks for a key are put in front of what has already been read.
-/
namespace Winnow.Yaml

inductive Token
  | documentStart | documentEnd
  | blockList | blockRecord | blockEnd
  | listStart | listEnd | recordStart | recordEnd
  | entry | flowEntry | key | value
  | plain (s : String)
  | quoted (s : String)
deriving DecidableEq, Repr

/-- A token that turns out to be a key if a colon follows on its line. -/
structure PossibleKey where
  /-- The number of tokens before it. -/
  position : Nat
  line : Nat
  column : Nat
  /-- Nothing but a key can stand there. -/
  required : Bool
deriving DecidableEq, Repr

structure Scanner where
  cursor : Cursor
  /-- The column of the innermost block, none at the top. -/
  indent : Option Nat := none
  /-- The columns of the blocks around it. -/
  outer : List (Option Nat) := []
  /-- The possible key of each open bracket, the innermost first, and of the block around. -/
  keys : List (Option PossibleKey) := [none]
  keyAllowed : Bool := true
  /-- The tokens so far, latest first. -/
  tokens : List Token := []
deriving Repr

namespace Scanner

def inFlow (s : Scanner) : Bool := 1 < s.keys.length

def line (s : Scanner) : Nat := s.cursor.line

def push (s : Scanner) (t : Token) : Scanner := { s with tokens := t :: s.tokens }

/-- Puts a token behind the first `n`. -/
def insertAt (s : Scanner) (n : Nat) (t : Token) : Scanner :=
  let later := s.tokens.length - n
  { s with tokens := s.tokens.take later ++ t :: s.tokens.drop later }

/-- The first column that is inside the innermost block. -/
def least (s : Scanner) : Nat :=
  match s.indent with
  | none => 0
  | some column => column + 1

/-- Ends the blocks that `column` is not inside of; every block if there is none. -/
def closeBlocks (s : Scanner) (column : Option Nat) : Scanner :=
  if s.inFlow then s else go s s.outer
where
  go (s : Scanner) : List (Option Nat) → Scanner
    | [] => s
    | indent :: outer =>
      let isInside := match s.indent, column with
        | none, _ => true
        | some _, none => false
        | some indent, some column => indent ≤ column
      if isInside then s else go { s with indent, outer, tokens := .blockEnd :: s.tokens } outer

/-- Begins a block at `column` before the token at `position`, unless it has begun already. -/
def openBlock (s : Scanner) (column position : Nat) (t : Token) : Scanner :=
  if s.inFlow || (s.indent.any fun indent => column ≤ indent) then s
  else { s with indent := some column, outer := s.indent :: s.outer }.insertAt position t

def setKey (s : Scanner) (key : Option PossibleKey) : Scanner :=
  { s with keys := key :: s.keys.tail }

def dropKey (s : Scanner) : Except SyntaxError Scanner :=
  match s.keys with
  | some key :: _ => if key.required then .error (.missingColon key.line) else .ok (s.setKey none)
  | _ => .ok s

/-- Notes that a key may begin here. -/
def noteKey (s : Scanner) : Except SyntaxError Scanner := do
  if !s.keyAllowed then return s
  let s ← s.dropKey
  return s.setKey (some {
    position := s.tokens.length
    line := s.line
    column := s.cursor.column
    required := !s.inFlow && s.indent = some s.cursor.column })

/-- A key has to be on one line with its colon, and within 1024 characters of it. -/
def forgetOldKeys (s : Scanner) : Except SyntaxError Scanner := do
  let keys ← s.keys.mapM fun key => match key with
    | none => .ok none
    | some key =>
      if key.line < s.line || key.column + 1024 < s.cursor.column then
        if key.required then .error (.missingColon key.line) else .ok none
      else .ok (some key)
  return { s with keys }

def skip (s : Scanner) (n : Nat) : Scanner := { s with cursor := s.cursor.skip n }

/-- Steps over at most `n` blanks, comments and line breaks. -/
def skipToToken : Nat → Scanner → Scanner
  | 0, s => s
  | n + 1, s =>
    match s.cursor.input with
    | [] => s
    | c :: l =>
      if c = ' ' || (c = '\t' && (s.inFlow || !s.keyAllowed)) then skipToToken n (s.skip 1)
      else if c = '#' then skipToToken n (s.skip (1 + (l.takeWhile (· ≠ '\n')).length))
      else if c = '\n' then
        skipToToken n { s with
          cursor := s.cursor.nextLine, keyAllowed := s.keyAllowed || !s.inFlow }
      else s

/-- A document mark ends everything. -/
def readDocumentMark (s : Scanner) (t : Token) : Except SyntaxError Scanner := do
  let s ← (s.closeBlocks none).dropKey
  return { (s.push t).skip 3 with keyAllowed := false }

def openFlow (s : Scanner) (t : Token) : Except SyntaxError Scanner := do
  let s ← s.noteKey
  return { (s.push t).skip 1 with keys := none :: s.keys, keyAllowed := true }

def closeFlow (s : Scanner) (t : Token) : Except SyntaxError Scanner := do
  let s ← s.dropKey
  let keys := if s.inFlow then s.keys.tail else s.keys
  return { (s.push t).skip 1 with keys, keyAllowed := false }

def readFlowEntry (s : Scanner) : Except SyntaxError Scanner := do
  let s ← s.dropKey
  return { (s.push .flowEntry).skip 1 with keyAllowed := true }

/-- Begins an entry of a block list, or an explicit key or value of a block record. -/
def startEntry (s : Scanner) (block : Token) : Except SyntaxError Scanner :=
  if s.inFlow then .ok s
  else if !s.keyAllowed then .error (.misplacedEntry s.line)
  else .ok (s.openBlock s.cursor.column s.tokens.length block)

def readEntry (s : Scanner) : Except SyntaxError Scanner := do
  let s ← (← s.startEntry .blockList).dropKey
  return { (s.push .entry).skip 1 with keyAllowed := true }

def readKey (s : Scanner) : Except SyntaxError Scanner := do
  let s ← (← s.startEntry .blockRecord).dropKey
  return { (s.push .key).skip 1 with keyAllowed := !s.inFlow }

def readValue (s : Scanner) : Except SyntaxError Scanner := do
  match s.keys with
  | some key :: _ =>
    let s := (s.insertAt key.position .key).openBlock key.column key.position .blockRecord
    return { ((s.setKey none).push .value).skip 1 with keyAllowed := false }
  | _ =>
    let s ← s.startEntry .blockRecord
    return { (s.push .value).skip 1 with keyAllowed := !s.inFlow }

def readQuotedScalar (s : Scanner) (single : Bool) : Except SyntaxError Scanner := do
  let s ← s.noteKey
  let c := s.cursor.skip 1
  let (text, cursor) ← readQuoted single [] (c.input.length + 1) c
  return { s.push (.quoted (String.ofList text)) with cursor, keyAllowed := false }

def readPlainScalar (s : Scanner) : Except SyntaxError Scanner := do
  let s ← s.noteKey
  let (text, crossed, cursor) ←
    readPlain s.inFlow s.least [] [] false (s.cursor.input.length + 1) s.cursor
  return { s.push (.plain (String.ofList text)) with cursor, keyAllowed := crossed }

/-- A plain scalar begins with this character. -/
def beginsPlain (s : Scanner) (c : Char) (l : List Char) : Bool :=
  (!isBlank c && c ∉ ['\n', '-', '?', ':', ',', '[', ']', '\x7b', '\x7d', '#', '&', '*', '!', '|', '>',
      '\x27', '"', '%', '@', '\x60']) ||
    (c = '-' && !(l.head?.any isBlank)) || (!s.inFlow && (c = '?' || c = ':') && !endsWord l)

/-- Reads the token that begins with the character `c`. -/
def readToken (s : Scanner) (c : Char) (l : List Char) : Except SyntaxError Scanner :=
  if s.cursor.atDocumentMark then
    s.readDocumentMark (if c = '-' then .documentStart else .documentEnd)
  else match c with
    | '[' => s.openFlow .listStart
    | '\x7b' => s.openFlow .recordStart
    | ']' => s.closeFlow .listEnd
    | '\x7d' => s.closeFlow .recordEnd
    | ',' => s.readFlowEntry
    | '\x27' => s.readQuotedScalar true
    | '"' => s.readQuotedScalar false
    | c =>
      if c = '-' && endsWord l then s.readEntry
      else if c = '?' && (s.inFlow || endsWord l) then s.readKey
      else if c = ':' && (s.inFlow || endsWord l) then s.readValue
      else if s.beginsPlain c l then s.readPlainScalar
      else .error (.unexpectedCharacter s.line)

/-- Reads at most `n` tokens. -/
def readAll : Nat → Scanner → Except SyntaxError Scanner
  | 0, s => .ok s
  | n + 1, s => do
    let s := s.skipToToken (s.cursor.input.length + 1)
    let s := (← s.forgetOldKeys).closeBlocks (some s.cursor.column)
    match s.cursor.input with
    | [] => (s.closeBlocks none).dropKey
    | c :: l => readAll n (← s.readToken c l)

end Scanner

/-- The characters that may stand in a YAML text. -/
def isTextChar (c : Char) : Bool :=
  c = '\t' || c = '\n' || ('\x20' ≤ c && c ≤ '\x7e') || c = '\u0085' ||
    ('\u00a0' ≤ c && c ≤ '\ufffd' && c ≠ '\ufeff') || '\uffff' < c

/-- Every line break as one character. -/
def normalizeBreaks : List Char → List Char
  | '\r' :: '\n' :: l => '\n' :: normalizeBreaks l
  | '\r' :: l => '\n' :: normalizeBreaks l
  | '\u0085' :: l => '\n' :: normalizeBreaks l
  | c :: l => c :: normalizeBreaks l
  | [] => []

/-- The tokens of a text. A byte order mark in front is passed over. -/
def tokens (text : String) : Except SyntaxError (List Token) := do
  let l := match text.toList with
    | '\ufeff' :: l => l
    | l => l
  let l := normalizeBreaks l
  if !l.all isTextChar then throw .badCharacter
  let s ← Scanner.readAll (l.length + 1) { cursor := { input := l } }
  return s.tokens.reverse

end Winnow.Yaml
