import Winnow.Text

/-!
# Exclusion patterns

Patterns for paths that are left out of a search. What a pattern means depends
on where its stars stand.
-/
namespace Winnow

inductive Exclusion
  /-- `*ending`, without a slash. -/
  | endingIn (ending : List Char)
  /-- `start*`, without a slash. -/
  | startingWith (start : List Char)
  /-- `**/dir/**`: below a directory of that name. -/
  | below (directory : List Char)
  /-- `start/**/ending`, where either may be missing. -/
  | between (start ending : List Char)
  | exactly (text : List Char)
deriving DecidableEq, Repr

namespace Exclusion

/-- The text without any number of `**/` in front. -/
def dropStars : List Char → List Char
  | '*' :: '*' :: '/' :: l => dropStars l
  | l => l

/-- The parts between double stars. -/
def splitStars : List Char → List (List Char)
  | [] => [[]]
  | '*' :: '*' :: l => [] :: splitStars l
  | c :: l =>
    match splitStars l with
    | [] => [[c]]
    | part :: parts => (c :: part) :: parts

def dropTrailing (p : Char → Bool) (l : List Char) : List Char := (l.reverse.dropWhile p).reverse

/-- What a pattern with double stars and slashes means. -/
def parseDeep (l : List Char) : Exclusion :=
  if ['*', '*', '/'].isPrefixOf l && ['/', '*', '*'].isSuffixOf l then
    .below (dropStars (dropStars l).reverse).reverse
  else
    match splitStars l with
    | [start, ending] =>
      .between (dropTrailing (· = '/') start) (ending.dropWhile (· = '/'))
    | _ => .exactly l

def parse (pattern : String) : Exclusion :=
  let l := pattern.toList
  if l.head? = some '*' && '/' ∉ l then .endingIn l.tail
  else if l.getLast? = some '*' && '/' ∉ l then .startingWith l.dropLast
  else parseDeep l

/-- A start of a pattern may also begin at an inner component of the path. -/
def coversChars (text : List Char) : Exclusion → Bool
  | .endingIn ending => ending.isSuffixOf text
  | .startingWith start => start.isPrefixOf text
  | .below directory => Text.occursIn ('/' :: directory ++ ['/']) text
  | .between [] ending => ending.isSuffixOf text
  | .between start [] => start.isPrefixOf text || Text.occursIn (start ++ ['/']) text
  | .between start ending =>
    (start.isPrefixOf text || Text.occursIn ('/' :: start ++ ['/']) text) && ending.isSuffixOf text
  | .exactly pattern => text = pattern

def covers (e : Exclusion) (path : String) : Bool := e.coversChars path.toList

end Exclusion

end Winnow
