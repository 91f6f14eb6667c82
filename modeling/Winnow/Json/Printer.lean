import Winnow.Data.Basic

/-!
# Writing JSON

Compact text has no blanks at all. Pretty text has one item or field a line,
two blanks deeper than what holds it; an empty list or record stays on its line.
Quotes, backslashes and control characters are escaped and nothing else.
-/
namespace Winnow.Json

def hexDigit (n : Nat) : Char := (Nat.toDigits 16 n).headD '0'

/-- A character as it stands between the quotes. -/
def escape (c : Char) : List Char :=
  if c = '"' then ['\\', '"']
  else if c = '\\' then ['\\', '\\']
  else if c = '\n' then ['\\', 'n']
  else if c = '\r' then ['\\', 'r']
  else if c = '\t' then ['\\', 't']
  else if c = '\x08' then ['\\', 'b']
  else if c = '\x0c' then ['\\', 'f']
  else if c.toNat < 32 then ['\\', 'u', '0', '0', hexDigit (c.toNat / 16), hexDigit (c.toNat % 16)]
  else [c]

def quoted (s : String) : List Char := '"' :: s.toList.flatMap escape ++ ['"']

/-- The text of a value that holds no others. -/
def scalar : Data → List Char
  | .null => "null".toList
  | .bool true => "true".toList
  | .bool false => "false".toList
  | .natural n => Nat.toDigits 10 n
  | .number text => text.toList
  | .string s | .plain s => quoted s
  | .list _ => "[]".toList
  | .record _ => "\x7b\x7d".toList

mutual
def compactChars : Data → List Char
  | .list items => '[' :: compactItems items ++ [']']
  | .record fields => '\x7b' :: compactFields fields ++ ['\x7d']
  | d => scalar d

def compactItems : List Data → List Char
  | [] => []
  | [d] => compactChars d
  | d :: ds => compactChars d ++ ',' :: compactItems ds

def compactFields : List (String × Data) → List Char
  | [] => []
  | [(name, d)] => quoted name ++ ':' :: compactChars d
  | (name, d) :: fs => quoted name ++ ':' :: (compactChars d ++ ',' :: compactFields fs)
end

/-- A new line at the given depth. -/
def newline (depth : Nat) : List Char := '\n' :: List.replicate (2 * depth) ' '

mutual
def prettyChars (depth : Nat) : Data → List Char
  | .list (d :: ds) => '[' :: prettyItems (depth + 1) (d :: ds) ++ newline depth ++ [']']
  | .record (f :: fs) => '\x7b' :: prettyFields (depth + 1) (f :: fs) ++ newline depth ++ ['\x7d']
  | d => scalar d

def prettyItems (depth : Nat) : List Data → List Char
  | [] => []
  | [d] => newline depth ++ prettyChars depth d
  | d :: ds => newline depth ++ prettyChars depth d ++ ',' :: prettyItems depth ds

def prettyFields (depth : Nat) : List (String × Data) → List Char
  | [] => []
  | [(name, d)] => newline depth ++ quoted name ++ ':' :: ' ' :: prettyChars depth d
  | (name, d) :: fs =>
    newline depth ++ quoted name ++ ':' :: ' ' :: (prettyChars depth d ++ ',' :: prettyFields depth fs)
end

def compact (d : Data) : String := String.ofList (compactChars d)

def pretty (d : Data) : String := String.ofList (prettyChars 0 d)

end Winnow.Json
