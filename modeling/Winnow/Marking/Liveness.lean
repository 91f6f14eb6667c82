import Winnow.Graph.Hierarchy

/-!
# Liveness and dispatch

A virtual call runs whatever method the class of the receiver has for it. So a
class that comes to life meets every call already seen on it or on a type above
it, and a call that is seen meets every class below its receiver that is alive.
-/
namespace Winnow

structure Liveness where
  /-- Classes that are instantiated, or are roots. -/
  live : List NodeId := []
  /-- Calls seen: the static type of the receiver and the method it names. -/
  callSites : List (NodeId × NodeId) := []
deriving DecidableEq, Repr, Inhabited

namespace Graph

/-- What an object of class `id` runs when the method `decl` is called on it. -/
def implementationOf (g : Graph) (h : Hierarchy) (id decl : NodeId) : Option NodeId := do
  let m ← g.member? decl
  g.implementation h id ⟨m.name, m.descriptor⟩

end Graph

namespace Liveness

/-- The methods named by the calls seen on a receiver. -/
def declarationsOn (l : Liveness) (receiver : NodeId) : List NodeId :=
  (l.callSites.filter (·.1 = receiver)).map (·.2)

/-- What the calls seen so far run on objects of a class. -/
def runBy (l : Liveness) (g : Graph) (h : Hierarchy) (id : NodeId) : List NodeId :=
  ((id :: h.supertypes id).flatMap l.declarationsOn).filterMap (g.implementationOf h id)

/-- What a call runs on the live classes below its receiver. -/
def runOn (l : Liveness) (g : Graph) (h : Hierarchy) (receiver decl : NodeId) : List NodeId :=
  ((receiver :: h.subtypes receiver).filter (· ∈ l.live)).filterMap (g.implementationOf h · decl)

/-- A class comes to life, with the methods that this makes run. -/
def enter (l : Liveness) (g : Graph) (h : Hierarchy) (id : NodeId) : Liveness × List NodeId :=
  if id ∈ l.live then (l, []) else ({ l with live := l.live ++ [id] }, l.runBy g h id)

/-- A call is seen, with the methods that this makes run. -/
def call (l : Liveness) (g : Graph) (h : Hierarchy) (receiver decl : NodeId) :
    Liveness × List NodeId :=
  if (receiver, decl) ∈ l.callSites then (l, [])
  else ({ l with callSites := l.callSites ++ [(receiver, decl)] }, l.runOn g h receiver decl)

/-- What an edge out of a kept node does to dispatch. -/
def follow (l : Liveness) (g : Graph) (h : Hierarchy) (e : Edge) : Liveness × List NodeId :=
  match e.kind with
  | .uses .instantiate => l.enter g h e.target
  | .uses (.virtualCall receiver) =>
    if g.contains (.class_ receiver) then l.call g h (.class_ receiver) e.target else (l, [])
  | _ => (l, [])

/-- What an edge out of a kept member says about dispatch, with nothing run for it. -/
def note (g : Graph) (l : Liveness) (e : Edge) : Liveness :=
  match e.kind with
  | .uses .instantiate =>
    if e.target ∈ l.live then l else { l with live := l.live ++ [e.target] }
  | .uses (.virtualCall receiver) =>
    if g.contains (.class_ receiver) && (.class_ receiver, e.target) ∉ l.callSites then
      { l with callSites := l.callSites ++ [(.class_ receiver, e.target)] }
    else l
  | _ => l

/-- The live classes and the calls that given roots and kept members amount to. -/
def ofKept (g : Graph) (roots kept : List NodeId) : Liveness :=
  let isClass (id : NodeId) : Bool := ((g.node? id).bind Node.class?).isSome
  let sources := kept.filter fun id => (g.member? id).isSome
  (sources.flatMap g.outgoing).foldl (note g) { live := roots.filter isClass }

end Liveness

end Winnow
