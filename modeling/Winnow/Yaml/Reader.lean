import Winnow.Yaml.Token

/-!
# Reading YAML

The tree that a sequence of tokens describes. Something that is left out
counts as an empty plain scalar.
-/
namespace Winnow.Yaml

/-- Something read, and the tokens after it. -/
abbrev Before (α : Type) := α × List Token

def keyText : Data → Except SyntaxError String
  | .plain s | .string s => .ok s
  | _ => .error .keyIsNoText

/-- Nothing, at an end that `isEnd` recognises. -/
def isMissing (isEnd : Token → Bool) : List Token → Bool
  | [] => true
  | t :: _ => isEnd t

def endsBlockItem (t : Token) : Bool := t ∈ [.entry, .blockEnd]

def endsBlockValue (t : Token) : Bool := t ∈ [.key, .value, .blockEnd]

def endsLooseItem (t : Token) : Bool := t ∈ [.entry, .key, .value, .blockEnd]

def endsFlowKey (t : Token) : Bool := t ∈ [.value, .flowEntry, .listEnd, .recordEnd]

def endsFlowValue (t : Token) : Bool := t ∈ [.flowEntry, .listEnd, .recordEnd]

mutual

/-- A tree. In `block` context lists and records may be given by indentation, and with `loose` a
list also without any. -/
def readNode (block loose : Bool) : Nat → List Token → Except SyntaxError (Before Data)
  | 0, _ => .error .unexpectedToken
  | n + 1, tokens =>
    match tokens with
    | .plain s :: tokens => .ok (.plain s, tokens)
    | .quoted s :: tokens => .ok (.string s, tokens)
    | .listStart :: tokens => readFlowList true [] n tokens
    | .recordStart :: tokens => readFlowRecord true [] n tokens
    | .blockList :: tokens => if block then readBlockList [] n tokens else .error .unexpectedToken
    | .blockRecord :: tokens =>
      if block then readBlockRecord [] n tokens else .error .unexpectedToken
    | .entry :: tokens =>
      if loose then readLooseList [] n (.entry :: tokens) else .error .unexpectedToken
    | _ => .error .unexpectedToken

/-- A tree, or an empty scalar where one is left out. -/
def readOptional (isEnd : Token → Bool) (block loose : Bool) :
    Nat → List Token → Except SyntaxError (Before Data)
  | 0, _ => .error .unexpectedToken
  | n + 1, tokens =>
    if isMissing isEnd tokens then .ok (.plain "", tokens) else readNode block loose n tokens

def readBlockList (items : List Data) : Nat → List Token → Except SyntaxError (Before Data)
  | 0, _ => .error .unexpectedToken
  | n + 1, tokens =>
    match tokens with
    | .blockEnd :: tokens => .ok (.list items.reverse, tokens)
    | .entry :: tokens => do
      let (d, tokens) ← readOptional endsBlockItem true false n tokens
      readBlockList (d :: items) n tokens
    | _ => .error .unexpectedToken

/-- A list whose entries stand in the column of the key before them. -/
def readLooseList (items : List Data) : Nat → List Token → Except SyntaxError (Before Data)
  | 0, _ => .error .unexpectedToken
  | n + 1, tokens =>
    match tokens with
    | .entry :: tokens => do
      let (d, tokens) ← readOptional endsLooseItem true false n tokens
      readLooseList (d :: items) n tokens
    | tokens => .ok (.list items.reverse, tokens)

def readBlockRecord (fields : List (String × Data)) :
    Nat → List Token → Except SyntaxError (Before Data)
  | 0, _ => .error .unexpectedToken
  | n + 1, tokens =>
    match tokens with
    | .blockEnd :: tokens => .ok (.record fields.reverse, tokens)
    | .key :: tokens => do
      let (key, tokens) ← readOptional endsBlockValue true true n tokens
      let name ← keyText key
      match tokens with
      | .value :: tokens =>
        let (d, tokens) ← readOptional endsBlockValue true true n tokens
        readBlockRecord ((name, d) :: fields) n tokens
      | tokens => readBlockRecord ((name, .plain "") :: fields) n tokens
    | _ => .error .unexpectedToken

/-- What follows a key in brackets. -/
def readFlowValue : Nat → List Token → Except SyntaxError (Before Data)
  | 0, _ => .error .unexpectedToken
  | n + 1, tokens =>
    match tokens with
    | .value :: tokens => readOptional endsFlowValue false false n tokens
    | tokens => .ok (.plain "", tokens)

/-- An item of a list in brackets; a key with a value is a record of one field. -/
def readFlowItem : Nat → List Token → Except SyntaxError (Before Data)
  | 0, _ => .error .unexpectedToken
  | n + 1, tokens =>
    match tokens with
    | .key :: tokens => do
      let (key, tokens) ← readOptional endsFlowKey false false n tokens
      let name ← keyText key
      let (d, tokens) ← readFlowValue n tokens
      return (.record [(name, d)], tokens)
    | tokens => readNode false false n tokens

def readFlowList (isFirst : Bool) (items : List Data) :
    Nat → List Token → Except SyntaxError (Before Data)
  | 0, _ => .error .unexpectedToken
  | n + 1, tokens =>
    match isFirst, tokens with
    | _, .listEnd :: tokens => .ok (.list items.reverse, tokens)
    | false, .flowEntry :: .listEnd :: tokens => .ok (.list items.reverse, tokens)
    | false, .flowEntry :: tokens => do
      let (d, tokens) ← readFlowItem n tokens
      readFlowList false (d :: items) n tokens
    | true, tokens => do
      let (d, tokens) ← readFlowItem n tokens
      readFlowList false (d :: items) n tokens
    | _, _ => .error .unexpectedToken

/-- A field of a record in braces; a tree without a key mark is a key without a value. -/
def readFlowField : Nat → List Token → Except SyntaxError (Before (String × Data))
  | 0, _ => .error .unexpectedToken
  | n + 1, tokens =>
    match tokens with
    | .key :: tokens => do
      let (key, tokens) ← readOptional endsFlowKey false false n tokens
      let name ← keyText key
      let (d, tokens) ← readFlowValue n tokens
      return ((name, d), tokens)
    | tokens => do
      let (key, tokens) ← readNode false false n tokens
      return ((← keyText key, .plain ""), tokens)

def readFlowRecord (isFirst : Bool) (fields : List (String × Data)) :
    Nat → List Token → Except SyntaxError (Before Data)
  | 0, _ => .error .unexpectedToken
  | n + 1, tokens =>
    match isFirst, tokens with
    | _, .recordEnd :: tokens => .ok (.record fields.reverse, tokens)
    | false, .flowEntry :: .recordEnd :: tokens => .ok (.record fields.reverse, tokens)
    | false, .flowEntry :: tokens => do
      let (field, tokens) ← readFlowField n tokens
      readFlowRecord false (field :: fields) n tokens
    | true, tokens => do
      let (field, tokens) ← readFlowField n tokens
      readFlowRecord false (field :: fields) n tokens
    | _, _ => .error .unexpectedToken

end

def endsDocument (t : Token) : Bool := t ∈ [.documentStart, .documentEnd]

/-- The tree of the only document; an empty scalar if there is none. -/
def readDocument (tokens : List Token) : Except SyntaxError Data := do
  let fuel := 4 * tokens.length + 4
  let (d, rest) ← match tokens with
    | [] => pure (.plain "", [])
    | .documentStart :: tokens => readOptional endsDocument true false fuel tokens
    | tokens => readNode true false fuel tokens
  match rest.dropWhile (· = .documentEnd) with
  | [] => return d
  | .documentStart :: _ => throw .severalDocuments
  | _ => throw .unexpectedToken

/-- The tree that a text spells. -/
def parse (text : String) : Except SyntaxError Data := do readDocument (← tokens text)

def parseBytes (bytes : ByteArray) : Except SyntaxError Data :=
  match String.fromUTF8? bytes with
  | some text => parse text
  | none => .error .notUtf8

end Winnow.Yaml
