import Winnow.Text

/-!
# Generic signatures

A generic signature is kept as text. All that is asked of it is which classes
it names: the outermost class of every class type, at any depth.
-/
namespace Winnow.Signature

/-- After these characters an `L` begins a class type. -/
def isBoundary (c : Char) : Bool :=
  c ∈ ['(', ')', '<', ';', '[', ':', '+', '-', '^', '>']

/-- These characters end the name of an outermost class. -/
def endsName (c : Char) : Bool := c = ';' || c = '<' || c = '.'

/-- These characters end a class type, or open its type arguments. -/
def endsType (c : Char) : Bool := c = ';' || c = '<'

/-- Every class named, with repetitions; `boundary` tells whether a class type may begin here. -/
def mentions (boundary : Bool) (l : List Char) : List String :=
  match l with
  | [] => []
  | c :: l =>
    if c = 'L' ∧ boundary then
      let name := l.takeWhile (!endsName ·)
      let later := (l.dropWhile (!endsType ·)).tail
      (if name = [] then [] else [String.ofList name]) ++ mentions true later
    else mentions (isBoundary c) l
termination_by l.length
decreasing_by
  · have := (List.dropWhile_sublist (l := l) (!endsType ·)).length_le
    simp only [List.length_tail, List.length_cons]; omega
  · simp

/-- The classes that a signature names, each once, in order of first appearance. -/
def classes (signature : String) : List String := (mentions true signature.toList).eraseDups

end Winnow.Signature
