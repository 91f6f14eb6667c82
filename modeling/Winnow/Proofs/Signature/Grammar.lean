import Mathlib.Data.List.Chain
import Winnow.Descriptor
import Winnow.Signature

/-!
# The grammar of generic signatures

A signature is well-formed if it is printed from a tree of the grammar. Types
nest: a class type has type arguments, and so have the inner classes that follow
it. Around them a signature is flat, a row of types, of names of type parameters,
and of marks.

A scan that knows a class type by the character before it does not see each of
them. So the trees also tell which class types are in sight, and which names such
a scan goes through character by character.
-/
namespace Winnow.Signature

/-- The characters that no name in a signature holds. -/
def separators : List Char := ['.', ';', '[', '/', '<', '>', ':']

structure Identifier where
  chars : List Char
  nonempty : chars ≠ []
  plain : ∀ c ∈ chars, c ∉ separators
deriving DecidableEq, Repr

/-- Whether a text can be a name. -/
def isName (s : String) : Bool := !s.toList.isEmpty && s.toList.all (!separators.contains ·)

def Identifier.ofText (s : String) (h : isName s = true := by decide) : Identifier where
  chars := s.toList
  nonempty := by
    intro hnil
    simp [isName, hnil] at h
  plain c hc := by
    have hall := (Bool.and_eq_true_iff.mp h).2
    simpa using List.all_eq_true.mp hall c hc

/-- No character after which a class type may begin stands before an `L`. -/
def Identifier.Quiet (name : Identifier) : Prop :=
  name.chars.IsChain fun c d => isBoundary c = true → d ≠ 'L'

instance (name : Identifier) : Decidable name.Quiet :=
  inferInstanceAs (Decidable (List.IsChain _ _))

structure ClassName where
  packages : List Identifier
  simple : Identifier
deriving DecidableEq, Repr

namespace ClassName

def identifiers (name : ClassName) : List Identifier := name.packages ++ [name.simple]

def chars (name : ClassName) : List Char :=
  name.packages.flatMap (fun package => package.chars ++ ['/']) ++ name.simple.chars

def text (name : ClassName) : String := String.ofList name.chars

end ClassName

inductive Wildcard
  | upper | lower
deriving DecidableEq, Repr

def Wildcard.mark : Wildcard → Char
  | .upper => '+'
  | .lower => '-'

inductive Category
  | type | reference | classType | arguments
  /-- What follows the name and the type arguments of a class. -/
  | ending
deriving DecidableEq, Repr

/-- The trees of types. -/
inductive Tree : Category → Type
  | base (type : BaseType) : Tree .type
  | reference (type : Tree .reference) : Tree .type
  | ofClass (type : Tree .classType) : Tree .reference
  | typeVariable (name : Identifier) : Tree .reference
  | array (element : Tree .type) : Tree .reference
  | classType (name : ClassName) (arguments : Tree .arguments) (rest : Tree .ending) :
      Tree .classType
  | noMore : Tree .arguments
  | unbounded (more : Tree .arguments) : Tree .arguments
  | bounded (bound : Wildcard) (type : Tree .reference) (more : Tree .arguments) : Tree .arguments
  | exactly (type : Tree .reference) (more : Tree .arguments) : Tree .arguments
  | close : Tree .ending
  | inner (name : Identifier) (arguments : Tree .arguments) (rest : Tree .ending) : Tree .ending

/-- Type arguments and type parameters stand in angle brackets, if there are any. -/
def enclosed (l : List Char) : List Char := if l = [] then [] else '<' :: (l ++ ['>'])

namespace Tree

def chars : {k : Category} → Tree k → List Char
  | _, .base type => [type.letter]
  | _, .reference type => type.chars
  | _, .ofClass type => type.chars
  | _, .typeVariable name => 'T' :: (name.chars ++ [';'])
  | _, .array element => '[' :: element.chars
  | _, .classType name arguments rest =>
    'L' :: (name.chars ++ (enclosed arguments.chars ++ rest.chars))
  | _, .noMore => []
  | _, .unbounded more => '*' :: more.chars
  | _, .bounded bound type more => bound.mark :: (type.chars ++ more.chars)
  | _, .exactly type more => type.chars ++ more.chars
  | _, .close => [';']
  | _, .inner name arguments rest =>
    '.' :: (name.chars ++ (enclosed arguments.chars ++ rest.chars))

/-- The name of the outermost class of every class type, at any depth, in order. -/
def outermost : {k : Category} → Tree k → List String
  | _, .base _ => []
  | _, .reference type => type.outermost
  | _, .ofClass type => type.outermost
  | _, .typeVariable _ => []
  | _, .array element => element.outermost
  | _, .classType name arguments rest => name.text :: (arguments.outermost ++ rest.outermost)
  | _, .noMore => []
  | _, .unbounded more => more.outermost
  | _, .bounded _ type more => type.outermost ++ more.outermost
  | _, .exactly type more => type.outermost ++ more.outermost
  | _, .close => []
  | _, .inner _ arguments rest => arguments.outermost ++ rest.outermost

/-- Whether a class type would be in sight directly after the tree. It would not after a base type
and a wildcard without bound. -/
def showsNext : {k : Category} → Tree k → Bool → Bool
  | _, .base _, _ => false
  | _, .reference type, shown => type.showsNext shown
  | _, .ofClass type, shown => type.showsNext shown
  | _, .typeVariable _, _ => true
  | _, .array element, _ => element.showsNext true
  | _, .classType _ _ _, _ => true
  | _, .noMore, shown => shown
  | _, .unbounded more, _ => more.showsNext false
  | _, .bounded _ type more, _ => more.showsNext (type.showsNext true)
  | _, .exactly type more, shown => more.showsNext (type.showsNext shown)
  | _, .close, _ => true
  | _, .inner _ _ _, _ => true

/-- The outermost classes of the class types in sight, where `shown` says whether one at the very
beginning is. -/
def inSight : {k : Category} → Tree k → Bool → List String
  | _, .base _, _ => []
  | _, .reference type, shown => type.inSight shown
  | _, .ofClass type, shown => type.inSight shown
  | _, .typeVariable _, _ => []
  | _, .array element, _ => element.inSight true
  | _, .classType name arguments rest, shown =>
    (if shown then [name.text] else []) ++ (arguments.inSight true ++ rest.inSight true)
  | _, .noMore, _ => []
  | _, .unbounded more, _ => more.inSight false
  | _, .bounded _ type more, _ => type.inSight true ++ more.inSight (type.showsNext true)
  | _, .exactly type more, shown => type.inSight shown ++ more.inSight (type.showsNext shown)
  | _, .close, _ => []
  | _, .inner _ arguments rest, _ => arguments.inSight true ++ rest.inSight true

/-- The names that a scan goes through character by character. The name of a class in sight is taken
as a whole, and what follows is passed over up to the type arguments: for the ending of a class type
the flag says that this is still so. -/
def scanned : {k : Category} → Tree k → Bool → List Identifier
  | _, .base _, _ => []
  | _, .reference type, shown => type.scanned shown
  | _, .ofClass type, shown => type.scanned shown
  | _, .typeVariable name, _ => [name]
  | _, .array element, _ => element.scanned true
  | _, .classType name arguments rest, shown =>
    (if shown then [] else name.identifiers) ++
      (arguments.scanned true ++ rest.scanned (shown && arguments.chars.isEmpty))
  | _, .noMore, _ => []
  | _, .unbounded more, _ => more.scanned false
  | _, .bounded _ type more, _ => type.scanned true ++ more.scanned (type.showsNext true)
  | _, .exactly type more, shown => type.scanned shown ++ more.scanned (type.showsNext shown)
  | _, .close, _ => []
  | _, .inner name arguments rest, passed =>
    (if passed then [] else [name]) ++
      (arguments.scanned true ++ rest.scanned (passed && arguments.chars.isEmpty))

end Tree

/-- The marks between the types of a signature. -/
inductive Mark
  | parameters | endParameters | bound | arguments | endArguments | thrown | void
deriving DecidableEq, Repr

def Mark.char : Mark → Char
  | .parameters => '<'
  | .endParameters => '>'
  | .bound => ':'
  | .arguments => '('
  | .endArguments => ')'
  | .thrown => '^'
  | .void => 'V'

/-- One of the things of which a signature is a row. -/
inductive Item
  | mark (mark : Mark)
  /-- The name of a type parameter, with the colon after it. -/
  | parameter (name : Identifier)
  | type (type : Tree .type)

namespace Item

def chars : Item → List Char
  | .mark m => [m.char]
  | .parameter name => name.chars ++ [':']
  | .type t => t.chars

def outermost : Item → List String
  | .type t => t.outermost
  | _ => []

def showsNext : Item → Bool → Bool
  | .mark m, _ => isBoundary m.char
  | .parameter _, _ => true
  | .type t, shown => t.showsNext shown

def inSight : Item → Bool → List String
  | .type t, shown => t.inSight shown
  | _, _ => []

def scanned : Item → Bool → List Identifier
  | .mark _, _ => []
  | .parameter name, _ => [name]
  | .type t, shown => t.scanned shown

/-- The name of a type parameter looks like the beginning of a class type. -/
def mistaken : Item → Bool → Bool
  | .parameter name, shown => shown && name.chars.head? = some 'L'
  | _, _ => false

end Item

/-- From each item to the next goes the knowledge whether a class type would be in sight. -/
def inSight : List Item → Bool → List String
  | [], _ => []
  | item :: items, shown => item.inSight shown ++ inSight items (item.showsNext shown)

def scanned : List Item → Bool → List Identifier
  | [], _ => []
  | item :: items, shown => item.scanned shown ++ scanned items (item.showsNext shown)

def mistaken : List Item → Bool → Bool
  | [], _ => false
  | item :: items, shown => item.mistaken shown || mistaken items (item.showsNext shown)

/-- The class bound may be left out. -/
structure TypeParameter where
  name : Identifier
  classBound : Option (Tree .reference)
  interfaceBounds : List (Tree .reference)

def TypeParameter.items (p : TypeParameter) : List Item :=
  .parameter p.name :: (p.classBound.toList.map (.type ∘ .reference) ++
    p.interfaceBounds.flatMap fun bound => [.mark .bound, .type (.reference bound)])

def parameterItems : List TypeParameter → List Item
  | [] => []
  | parameters => .mark .parameters ::
    (parameters.flatMap TypeParameter.items ++ [.mark .endParameters])

/-- What a method may throw: a class or a type variable. -/
inductive Thrown
  | ofClass (type : Tree .classType)
  | typeVariable (name : Identifier)

def Thrown.reference : Thrown → Tree .reference
  | .ofClass type => .ofClass type
  | .typeVariable name => .typeVariable name

/-- The trees of whole signatures. -/
inductive Form
  | ofClass (parameters : List TypeParameter) (superclass : Tree .classType)
      (interfaces : List (Tree .classType))
  | ofMethod (parameters : List TypeParameter) (arguments : List (Tree .type))
      (result : Option (Tree .type)) (thrown : List Thrown)
  | ofField (type : Tree .reference)

namespace Form

def items : Form → List Item
  | .ofClass parameters superclass interfaces =>
    parameterItems parameters ++
      (superclass :: interfaces).map fun type => .type (.reference (.ofClass type))
  | .ofMethod parameters arguments result thrown =>
    parameterItems parameters ++ .mark .arguments :: (arguments.map .type ++ .mark .endArguments ::
      ((result.elim [.mark .void] fun type => [.type type]) ++
      thrown.flatMap fun t => [.mark .thrown, .type (.reference t.reference)]))
  | .ofField type => [.type (.reference type)]

def text (form : Form) : String := String.ofList (form.items.flatMap Item.chars)

/-- The name of the outermost class of every class type, at any depth, in order. -/
def outermost (form : Form) : List String := form.items.flatMap Item.outermost

/-- The same for the class types that a scan from the beginning sees. -/
def inSight (form : Form) : List String := Signature.inSight form.items true

/-- The names that it goes through character by character. -/
def scanned (form : Form) : List Identifier := Signature.scanned form.items true

/-- The name of some type parameter looks to it like the beginning of a class type. -/
def mistaken (form : Form) : Bool := Signature.mistaken form.items true

end Form

end Winnow.Signature
