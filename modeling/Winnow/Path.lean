import Winnow.Text

/-!
# Paths

A path is a text, printed as it was given. What it denotes is the list of its
components: paths are compared, ordered and tested for containment by these, so
doubled slashes, trailing slashes and inner dots make no difference.
-/
namespace Winnow

inductive Component
  | root
  /-- A dot that begins a relative path. -/
  | here
  | parent
  | name (s : String)
deriving DecidableEq, Repr

/-- What components are ordered by. -/
def Component.rank : Component → String
  | .root => "0"
  | .here => "1"
  | .parent => "2"
  | .name s => "3" ++ s

structure Path where
  text : String
deriving DecidableEq, Repr, Inhabited

namespace Path

def isAbsolute (p : Path) : Bool := Text.startsWith p.text "/"

/-- A segment after the first: an empty one and a dot say nothing. -/
def inner? (segment : List Char) : Option Component :=
  if segment = [] ∨ segment = ['.'] then none
  else if segment = ['.', '.'] then some .parent
  else some (.name (String.ofList segment))

def components (p : Path) : List Component :=
  match p.text.toList.splitOn '/' with
  | [] => []
  | first :: segments =>
    let rest := segments.filterMap inner?
    if p.isAbsolute then .root :: rest
    else if first = ['.'] then .here :: rest
    else (inner? first).toList ++ rest

/-- What paths are ordered by. -/
def rank (p : Path) : List String := p.components.map Component.rank

instance : Ord Path := ⟨compareOn rank⟩

instance : Std.TransOrd Path := inferInstanceAs (Std.TransCmp (compareOn rank))

/-- Two texts of one path. -/
def same (p q : Path) : Bool := p.components = q.components

def startsWith (p start : Path) : Bool := start.components.isPrefixOf p.components

/-- The path of `q` seen from `p`. -/
def join (p q : Path) : Path :=
  if q.isAbsolute ∨ p.text = "" then q
  else if Text.endsWith p.text "/" then ⟨p.text ++ q.text⟩
  else ⟨p.text ++ "/" ++ q.text⟩

instance : HDiv Path String Path := ⟨fun p s => p.join ⟨s⟩⟩

/-- The last component, when it is a name. -/
def fileName (p : Path) : Option String :=
  match p.components.getLast? with
  | some (.name s) => some s
  | _ => none

/-- Leaves out the segments at the end that say nothing. -/
def trimmed (segments : List (List Char)) : List (List Char) :=
  match segments with
  | [] => []
  | first :: rest =>
    first :: (rest.reverse.dropWhile fun s => s = [] ∨ s = ['.']).reverse

/-- The directory in which the path lies. -/
def parent (p : Path) : Path :=
  let segments := trimmed (trimmed (p.text.toList.splitOn '/')).dropLast
  if p.isAbsolute && segments.length ≤ 1 then ⟨"/"⟩
  else ⟨Text.joined "/" (segments.map String.ofList)⟩

/-- What follows the last dot of the file name. A dot that begins the name does not count. -/
def extension (p : Path) : Option String := do
  let name ← p.fileName
  let (ending, start) ← Text.cut '.' name.toList.reverse
  if start = [] then none else some (String.ofList ending.reverse)

/-- The path with another extension in place of the one it has, if any. -/
def withExtension (p : Path) (extension : String) : Path :=
  match p.fileName with
  | none => p
  | some _ =>
    let text := Text.joined "/" ((trimmed (p.text.toList.splitOn '/')).map String.ofList)
    let stem := (p.extension.bind fun e => Text.withoutEnding ("." ++ e) text).getD text
    ⟨stem ++ "." ++ extension⟩

end Path

end Winnow
