/-!
# Character sets

The inside of a class in a regex: characters, ranges `a-z`, and the operators
`&&`, `--` and `~~`, which are read from the left and bind weaker than standing
side by side. Dashes at the beginning, and one at the end, stand for themselves.
-/
namespace Winnow

inductive SetOperator
  | intersection | difference | symmetricDifference
deriving DecidableEq, Repr

/-- An operator is one character written twice. -/
def SetOperator.ofChar? : Char → Option SetOperator
  | '&' => some .intersection
  | '-' => some .difference
  | '~' => some .symmetricDifference
  | _ => none

inductive CharSet
  /-- The characters from the first to the last of some pair, ends included. -/
  | ranges (pairs : List (Char × Char))
  | combine (op : SetOperator) (a b : CharSet)
deriving DecidableEq, Repr

namespace CharSet

def has : CharSet → Char → Bool
  | .ranges pairs, c => pairs.any fun (first, last) => first ≤ c && c ≤ last
  | .combine .intersection a b, c => a.has c && b.has c
  | .combine .difference a b, c => a.has c && !b.has c
  | .combine .symmetricDifference a b, c => a.has c != b.has c

/-- A set that waits for its right side, with the operator. -/
abbrev Pending := Option (SetOperator × CharSet)

def complete (left : Pending) (pairs : List (Char × Char)) : CharSet :=
  match left with
  | none => .ranges pairs
  | some (op, a) => .combine op a (.ranges pairs)

/-- The operator that two characters in a row are. -/
def operator? (a b : Char) : Option SetOperator := if a = b then SetOperator.ofChar? a else none

/-- Reads what is left of a set. A range must not go backwards. -/
def readFrom (left : Pending) (pairs : List (Char × Char)) : List Char → Option CharSet
  | [] => some (complete left pairs)
  | [a] => some (complete left (pairs ++ [(a, a)]))
  | [a, b] =>
    match operator? a b with
    | some op => some (complete (some (op, complete left pairs)) [])
    | none => some (complete left (pairs ++ [(a, a), (b, b)]))
  | a :: b :: c :: l =>
    match operator? a b with
    | some op => readFrom (some (op, complete left pairs)) [] (c :: l)
    | none =>
      if b = '-' ∧ c ≠ '-' then
        if a ≤ c then readFrom left (pairs ++ [(a, c)]) l else none
      else readFrom left (pairs ++ [(a, a)]) (b :: c :: l)

/-- An empty class is no set. -/
def parse (body : List Char) : Option CharSet :=
  if body = [] then none
  else
    let dashes := body.takeWhile (· = '-')
    readFrom none (dashes.map fun c => (c, c)) (body.dropWhile (· = '-'))

end CharSet

end Winnow
