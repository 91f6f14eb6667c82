import Winnow.Graph.Basic
import Winnow.Graph.Search

/-!
# Member resolution

A reference to a member is looked up in the named class, then in its
superclasses from the nearest on, then in all their interfaces breadth first.
The look-up is a scan of that list of classes.
-/
namespace Winnow

/-- What a reference to a member leads to. -/
inductive Resolution
  /-- Declared by a class of the program. -/
  | declared (id : NodeId)
  /-- Declared outside the program, or possibly so. -/
  | external
  /-- Declared nowhere in a hierarchy that is fully known. -/
  | missing
deriving DecidableEq, Repr

/-- The methods that every class has from the root of the hierarchy. -/
def objectMethods : List MemberKey :=
  [⟨"hashCode", "()I"⟩, ⟨"equals", "(Ljava/lang/Object;)Z"⟩, ⟨"toString", "()Ljava/lang/String;"⟩,
    ⟨"finalize", "()V"⟩, ⟨"clone", "()Ljava/lang/Object;"⟩, ⟨"getClass", "()Ljava/lang/Class;"⟩,
    ⟨"notify", "()V"⟩, ⟨"notifyAll", "()V"⟩, ⟨"wait", "()V"⟩, ⟨"wait", "(J)V"⟩, ⟨"wait", "(JI)V"⟩]

def isObjectMethod (key : MemberKey) : Bool := key ∈ objectMethods

namespace Graph

def superclass? (g : Graph) (name : String) : Option String := (g.class? name).bind (·.superclass)

def interfacesOf (g : Graph) (name : String) : List String :=
  ((g.class? name).map (·.interfaces)).getD []

/-- Every name that stands in the hierarchy. -/
def typeNames (g : Graph) : List String :=
  g.classes.flatMap fun c => c.name :: c.superclass.toList ++ c.interfaces

/-- The class and its superclasses, as far as they are known and do not recur. -/
def superclassChain (g : Graph) (name : String) : List String :=
  breadthFirst (fun n => (g.superclass? n).toList) (name :: g.typeNames) [name]

/-- The classes in which a member is looked up, in order. -/
def searchOrder (g : Graph) (name : String) : List String :=
  let chain := g.superclassChain name
  chain ++ breadthFirst g.interfacesOf (g.typeNames.filter (· ∉ chain)) (chain.flatMap g.interfacesOf)

/-- What the class itself has to say about a member. -/
def resolveIn (g : Graph) (kind : NodeKind) (key : MemberKey) (name : String) :
    Option Resolution :=
  if name = objectClass then
    if kind = .method && isObjectMethod key then some .external else none
  else do
    let c ← g.class? name
    let id ← g.declared name kind key
    return if c.isProgram then .declared id else .external

/-- The class may declare more than the graph knows. -/
def isOpaque (g : Graph) (name : String) : Bool :=
  name ≠ objectClass && match g.class? name with
    | none => true
    | some c => c.isPlaceholder

def resolve (g : Graph) (start : String) (kind : NodeKind) (key : MemberKey) : Resolution :=
  let order := g.searchOrder start
  match order.findSome? (g.resolveIn kind key) with
  | some resolution => resolution
  | none => if order.any g.isOpaque then .external else .missing

end Graph

end Winnow
