import Winnow.Data.Basic

/-!
# Unquoted scalars

What an unquoted scalar may stand for besides its own text: nothing, a truth
value, a natural number in one of four notations, or some other number.
-/
namespace Winnow.Plain

/-- The spellings of an absent value. -/
def isNull (text : String) : Bool := text ∈ ["", "null", "Null", "NULL", "~"]

def bool? (text : String) : Option Bool :=
  if text ∈ ["true", "True", "TRUE"] then some true
  else if text ∈ ["false", "False", "FALSE"] then some false
  else none

def digit? (c : Char) : Option Nat :=
  if '0' ≤ c ∧ c ≤ '9' then some (c.toNat - '0'.toNat)
  else if 'a' ≤ c ∧ c ≤ 'f' then some (c.toNat - 'a'.toNat + 10)
  else if 'A' ≤ c ∧ c ≤ 'F' then some (c.toNat - 'A'.toNat + 10)
  else none

/-- The number that at least one digit of the given base spells, if it is below 2^64. -/
def inBase (base : Nat) : List Char → Option Nat
  | [] => none
  | l => do
    let digits ← l.mapM digit?
    let n := digits.foldl (fun n d => n * base + d) 0
    if digits.all (· < base) ∧ n < UInt64.size then some n else none

/-- Leading zeros before further digits make a text, not a number. -/
def zeroPadded : List Char → Bool
  | '0' :: l => l ≠ [] && l.all Char.isDigit
  | _ => false

def unsigned : List Char → List Char
  | '+' :: l => l
  | l => l

def natural? (text : String) : Option Nat :=
  match unsigned text.toList with
  | '0' :: 'x' :: l => inBase 16 l
  | '0' :: 'o' :: l => inBase 8 l
  | '0' :: 'b' :: l => inBase 2 l
  | l => if zeroPadded l then none else inBase 10 l

/-- Digits with at most one point among them, and at least one digit. -/
def isMantissa (l : List Char) : Bool :=
  l.any Char.isDigit && l.all (fun c => c.isDigit || c = '.') && l.count '.' ≤ 1

def isExponent : List Char → Bool
  | '+' :: l | '-' :: l => l ≠ [] && l.all Char.isDigit
  | l => l ≠ [] && l.all Char.isDigit

/-- The spellings of numbers that are not natural numbers. -/
def isNumber (text : String) : Bool :=
  let l := text.toList
  let body := match l with
    | '+' :: l | '-' :: l => l
    | l => l
  let (mantissa, rest) := body.span fun c => c ≠ 'e' && c ≠ 'E'
  let special := text ∈ [".inf", ".Inf", ".INF", "+.inf", "+.Inf", "+.INF", "-.inf", "-.Inf", "-.INF",
    ".nan", ".NaN", ".NAN"]
  special || (!zeroPadded body && isMantissa mantissa && (rest = [] || isExponent rest.tail))

/-- What the scalar stands for where nothing particular is wanted. -/
def resolve (text : String) : Data :=
  if isNull text then .null
  else match bool? text with
    | some b => .bool b
    | none => match natural? text with
      | some n => .natural n
      | none => if isNumber text then .number text else .string text

end Winnow.Plain

namespace Winnow.Data

mutual
/-- The tree with every unquoted scalar replaced by what it stands for. -/
def resolve : Data → Data
  | .plain text => Plain.resolve text
  | .list items => .list (resolveItems items)
  | .record fields => .record (resolveFields fields)
  | scalar => scalar

def resolveItems : List Data → List Data
  | [] => []
  | d :: ds => d.resolve :: resolveItems ds

def resolveFields : List (String × Data) → List (String × Data)
  | [] => []
  | (name, d) :: fs => (name, d.resolve) :: resolveFields fs
end

end Winnow.Data
