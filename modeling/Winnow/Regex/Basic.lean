import Winnow.Regex.CharSet

/-!
# Regexes

A small part of the language of regexes: characters, escaped where they have a
meaning of their own, the dot, classes, the star after one of these, and the
anchors. Other texts are refused. A regex is searched for: it matches a text if
it does so at some place, and only anchors tie it to the ends.

Matching goes through the regex from its end. What is carried along says for
every place of the text whether the items seen so far match there.
-/
namespace Winnow

/-- What one character of the text is held against. -/
inductive RegexAtom
  | literal (c : Char)
  /-- Any character but a line break. -/
  | dot
  /-- A character in the set, or one that is not. -/
  | set (negated : Bool) (chars : CharSet)
deriving DecidableEq, Repr

inductive RegexItem
  /-- Nothing stands before this place. -/
  | start
  /-- Nothing comes after this place. -/
  | finish
  | one (atom : RegexAtom)
  /-- Any number of characters, none included. -/
  | many (atom : RegexAtom)
deriving DecidableEq, Repr

structure Regex where
  items : List RegexItem
deriving DecidableEq, Repr

/-- What makes a program of the text of a regex, or refuses it, and runs it. -/
structure RegexEngine (α : Type) where
  compile : String → Option α
  isMatch : α → String → Bool

def RegexAtom.has : RegexAtom → Char → Bool
  | .literal d, c => c = d
  | .dot, c => c ≠ '\n'
  | .set negated chars, c => chars.has c != negated

namespace Regex

/-! ### Reading -/

/-- The characters that have a meaning of their own somewhere. -/
def isMeta (c : Char) : Bool :=
  c ∈ ['\\', '.', '+', '*', '?', '(', ')', '|', '[', ']', '\x7b', '\x7d', '^', '$', '#', '&', '-', '~']

/-- A character so that it stands for itself. -/
def escape (c : Char) : List Char := if isMeta c then ['\\', c] else [c]

/-- The inside of a class up to the bracket that closes it, and what comes after. A closing bracket
that comes `first` stands for itself, and so does a bracket, a backslash or a circumflex after a
backslash. A class within a class is refused. -/
def cutClass (first : Bool) : List Char → Option (List Char × List Char)
  | [] => none
  | ']' :: l =>
    if first then (cutClass false l).map fun r => (']' :: r.1, r.2) else some ([], l)
  | '[' :: _ => none
  | '\\' :: c :: l =>
    if c ∈ ['\\', '[', ']', '^'] then (cutClass false l).map fun r => (c :: r.1, r.2) else none
  | c :: l => (cutClass false l).map fun r => (c :: r.1, r.2)

theorem length_of_cutClass {first : Bool} {l : List Char} {r : List Char × List Char}
    (h : cutClass first l = some r) : r.2.length < l.length := by
  fun_induction cutClass first l generalizing r with
  | case1 | case4 | case6 => cases h
  | case3 l =>
    cases h
    exact Nat.lt_succ_self _
  | case2 l ih | case5 _ c l _ ih | case7 _ c l _ _ _ ih =>
    obtain ⟨r', hr', rfl⟩ := Option.map_eq_some_iff.mp h
    have hlt := ih hr'
    simp only [List.length_cons]
    omega

/-- A class, once it is open. -/
def readClass (negated : Bool) (l : List Char) : Option (RegexAtom × List Char) := do
  let (body, rest) ← cutClass true l
  return (.set negated (← CharSet.parse body), rest)

def readAtom : List Char → Option (RegexAtom × List Char)
  | [] => none
  | '.' :: l => some (.dot, l)
  | '[' :: '^' :: l => readClass true l
  | '[' :: l => readClass false l
  | '\\' :: c :: l => if isMeta c then some (.literal c, l) else none
  | c :: l => if isMeta c then none else some (.literal c, l)

/-- An atom, with the star that may come after it. -/
def repeated (atom : RegexAtom) : List Char → RegexItem × List Char
  | '*' :: l => (.many atom, l)
  | l => (.one atom, l)

def readItem : List Char → Option (RegexItem × List Char)
  | '^' :: l => some (.start, l)
  | '$' :: l => some (.finish, l)
  | l => (readAtom l).map fun r => repeated r.1 r.2

theorem length_of_readClass {negated : Bool} {l : List Char} {r : RegexAtom × List Char}
    (h : readClass negated l = some r) : r.2.length < l.length := by
  obtain ⟨⟨body, rest⟩, hcut, h⟩ := Option.bind_eq_some_iff.mp h
  obtain ⟨chars, _, h⟩ := Option.bind_eq_some_iff.mp h
  cases h
  exact length_of_cutClass hcut

theorem length_of_readAtom {l : List Char} {r : RegexAtom × List Char} (h : readAtom l = some r) :
    r.2.length < l.length := by
  unfold readAtom at h
  split at h
  next => cases h
  next =>
    cases h
    exact Nat.lt_succ_self _
  next =>
    have hlt := length_of_readClass h
    simp only [List.length_cons]
    omega
  next => exact Nat.lt_succ_of_lt (length_of_readClass h)
  next =>
    split at h
    next =>
      cases h
      simp only [List.length_cons]
      omega
    next => cases h
  next =>
    split at h
    next => cases h
    next =>
      cases h
      exact Nat.lt_succ_self _

theorem length_of_readItem {l : List Char} {r : RegexItem × List Char} (h : readItem l = some r) :
    r.2.length < l.length := by
  unfold readItem at h
  split at h
  next =>
    cases h
    exact Nat.lt_succ_self _
  next =>
    cases h
    exact Nat.lt_succ_self _
  next =>
    obtain ⟨⟨atom, rest⟩, hatom, rfl⟩ := Option.map_eq_some_iff.mp h
    have hlt := length_of_readAtom hatom
    dsimp only at hlt ⊢
    unfold repeated
    split
    next => exact Nat.lt_of_succ_lt hlt
    next => exact hlt

/-- The items of a regex, one after the other. -/
def readItems (l : List Char) : Option (List RegexItem) :=
  if l = [] then some []
  else
    match h : readItem l with
    | none => none
    | some r =>
      have := length_of_readItem h
      (readItems r.2).map (r.1 :: ·)
termination_by l.length

def compile (text : String) : Option Regex := (readItems text.toList).map Regex.mk

/-! ### Matching -/

/-- Given for each place of the text, its end included, whether the rest of a regex matches there:
the same with an item for one character in front. -/
def prependOne (p : Char → Bool) : List Char → List Bool → List Bool
  | c :: l, _ :: row => (p c && row.headD false) :: prependOne p l row
  | _, row => row.map fun _ => false

/-- The same with an item in front that stands for any run of characters. -/
def prependMany (p : Char → Bool) : List Char → List Bool → List Bool
  | c :: l, b :: row =>
    let later := prependMany p l row
    (b || (p c && later.headD false)) :: later
  | _, row => row

/-- The same where nothing may come after. -/
def prependFinish : List Bool → List Bool
  | [] => []
  | [b] => [b]
  | _ :: row => false :: prependFinish row

/-- The same where nothing may stand before. -/
def prependStart : List Bool → List Bool
  | [] => []
  | b :: row => b :: row.map fun _ => false

def prependItem (text : List Char) (row : List Bool) : RegexItem → List Bool
  | .start => prependStart row
  | .finish => prependFinish row
  | .one atom => prependOne atom.has text row
  | .many atom => prependMany atom.has text row

/-- Where the items match; nothing matches everywhere. -/
def matchRow (text : List Char) (items : List RegexItem) : List Bool :=
  items.foldr (fun item row => prependItem text row item) (true :: text.map fun _ => true)

def isMatch (r : Regex) (text : String) : Bool := (matchRow text.toList r.items).any id

def engine : RegexEngine Regex := ⟨compile, isMatch⟩

end Regex

end Winnow
