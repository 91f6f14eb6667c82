import Winnow.Regex.Basic
import Winnow.Text

/-!
# Globs

Patterns for names: `**` stands for any text, `*` for any text without a
slash, `?` for one character but a slash, and a bracket for one character in a
set, or with `!` not in it. A pattern matches a text as a whole.

A pattern is written as a regex between two anchors, and the engine for regexes
decides.
-/
namespace Winnow

inductive GlobError
  | unclosedBracket
  /-- The engine refuses the regex. -/
  | refused
deriving DecidableEq, Repr

namespace Glob

/-- The class for the inside of a bracket. -/
def writeClass : List Char → List Char
  | '!' :: body => '[' :: '^' :: writeBody body
  | body => '[' :: writeBody body
where
  writeBody (body : List Char) : List Char :=
    body.flatMap (fun c => if c ∈ ['\\', '[', '^'] then ['\\', c] else [c]) ++ [']']

/-- The regex of a pattern, without its anchors; nothing if a bracket is not closed. With `sets`
false a bracket is an ordinary character. -/
def translate (sets : Bool) (l : List Char) : Option (List Char) :=
  match l with
  | [] => some []
  | '*' :: '*' :: l => (translate sets l).map (['.', '*'] ++ ·)
  | '*' :: l => (translate sets l).map (['[', '^', '/', ']', '*'] ++ ·)
  | '?' :: l => (translate sets l).map (['[', '^', '/', ']'] ++ ·)
  | c :: l =>
    if c = '[' ∧ sets then
      match h : Text.cut ']' l with
      | none => none
      | some (body, rest) =>
        have := Nat.lt_succ_of_lt (Text.length_of_cut h)
        (translate sets rest).map (writeClass body ++ ·)
    else (translate sets l).map (Regex.escape c ++ ·)
termination_by l.length

/-- An open bracket anywhere is found before what is wrong inside another one. -/
def compile {α : Type} (engine : RegexEngine α) (sets : Bool) (pattern : String) :
    Except GlobError α :=
  match translate sets pattern.toList with
  | none => .error .unclosedBracket
  | some text =>
    match engine.compile (String.ofList ('^' :: text ++ ['$'])) with
    | none => .error .refused
    | some program => .ok program

/-- A pattern for names. -/
def parse (pattern : String) : Except GlobError Regex := compile Regex.engine true pattern

/-- A pattern for descriptors, in which a bracket is the mark of an array. -/
def parseDescriptor (pattern : String) : Except GlobError Regex :=
  compile Regex.engine false pattern

end Glob

end Winnow
