import Winnow.Graph.Resolution

/-!
# The class hierarchy

For every class its supertypes, nearest first, along the edges to superclasses
and interfaces. From this table come subtypes, the subtype test and the choice
of the method that a receiver runs.
-/
namespace Winnow

/-- Every class with its supertypes. -/
structure Hierarchy where
  rows : List (NodeId × List NodeId) := []
deriving DecidableEq, Repr, Inhabited

namespace Graph

/-- The classes directly above one, the latest edge first. -/
def parents (g : Graph) (id : NodeId) : List NodeId :=
  ((g.outgoing id).filter (·.kind.isHierarchy)).map (·.target)

/-- The classes directly below one, the latest edge first. -/
def children (g : Graph) (id : NodeId) : List NodeId :=
  ((g.incoming id).filter (·.kind.isHierarchy)).map (·.source)

/-- Everything above a class, breadth first. -/
def ancestors (g : Graph) (id : NodeId) : List NodeId :=
  (breadthFirst g.parents (g.nodes.map Node.id) [id]).filter (· ≠ id)

def hierarchy (g : Graph) : Hierarchy where
  rows := g.classes.map fun c => (c.id, g.ancestors c.id)

end Graph

namespace Hierarchy

def supertypes (h : Hierarchy) (id : NodeId) : List NodeId := (h.rows.lookup id).getD []

def subtypes (h : Hierarchy) (id : NodeId) : List NodeId :=
  (h.rows.filter (id ∈ ·.2)).map (·.1)

/-- A class is a subtype of itself. -/
def isSubtype (h : Hierarchy) (sub sup : NodeId) : Bool := sub = sup || sup ∈ h.supertypes sub

end Hierarchy

namespace Graph

/-- What a class on the superclass chain decides for a receiver: it stops the search when it has
an instance method of that key, and then runs it unless it is abstract or outside the program. -/
def chainDecision (g : Graph) (key : MemberKey) (name : String) : Option (Option NodeId) := do
  let c ← g.class? name
  let id ← g.declared name .method key
  let m ← g.member? id
  if m.modifiers.isStatic || m.modifiers.isPrivate then none
  else if m.modifiers.isAbstract || !c.isProgram then some none
  else some (some id)

/-- The method of that key that an interface of the program supplies to classes below it. -/
def defaultMethod? (g : Graph) (key : MemberKey) (id : NodeId) : Option NodeId := do
  let c ← (← g.node? id).class?
  if !c.modifiers.isInterface || !c.isProgram then none
  else
    let id ← g.declared c.name .method key
    let m ← g.member? id
    if m.modifiers.isAbstract || m.modifiers.isStatic then none else some id

/-- The method that a receiver of that class runs: the nearest on the superclass chain, else a
default method of an interface above it. -/
def implementation (g : Graph) (h : Hierarchy) (id : NodeId) (key : MemberKey) : Option NodeId :=
  match (g.superclassChain id.className).findSome? (g.chainDecision key) with
  | some decision => decision
  | none => (h.supertypes id).findSome? (g.defaultMethod? key)

end Graph

end Winnow
