import Winnow.NodeId

/-!
# Edges

The kinds of dependency between nodes, and how much of the source's being kept
each kind passes on to its target.
-/
namespace Winnow

/-- What a method body does with the target of a use. -/
inductive Use
  /-- A call bound to exactly this method: static, constructor, private or super call. -/
  | call
  /-- A virtual or interface call on the static type `receiver`. -/
  | virtualCall (receiver : String)
  | fieldAccess
  | instantiate
  | typeReference
  | reflection
deriving DecidableEq, Repr

inductive EdgeKind
  /-- From a class to a member that it declares. -/
  | contains
  | super
  | implements
  | typeRef
  | uses (use : Use)
  | overrides
  | annotatedBy
  | annotationDefault
  /-- From an inner class to its outer class. -/
  | nestedIn
  /-- From a class to a member that exists whenever the class does. -/
  | implicit
  /-- A mention in a generic signature. -/
  | signature
deriving DecidableEq, Repr

/-- How much being kept an edge passes to its target. -/
inductive Propagation
  | none | shell | full
deriving DecidableEq, Repr

def Use.label : Use → String
  | .call => "Call"
  | .virtualCall receiver => s!"virtual on {receiver}"
  | .fieldAccess => "FieldAccess"
  | .instantiate => "Instantiate"
  | .typeReference => "TypeReference"
  | .reflection => "Reflection"

namespace EdgeKind

def propagation : EdgeKind → Propagation
  | .super | .implements | .typeRef | .annotatedBy | .annotationDefault | .nestedIn => .shell
  | .uses _ | .implicit => .full
  | .contains | .overrides | .signature => .none

/-- The kinds that come from method bodies and generic signatures, and may change between runs. -/
def isBody : EdgeKind → Bool
  | .uses _ | .signature => true
  | _ => false

def isHierarchy : EdgeKind → Bool
  | .super | .implements => true
  | _ => false

def label : EdgeKind → String
  | .contains => "CONTAINS"
  | .super => "SUPER"
  | .implements => "IMPLEMENTS"
  | .typeRef => "TYPE_REF"
  | .uses use => s!"USES({use.label})"
  | .overrides => "OVERRIDES"
  | .annotatedBy => "ANNOTATED_BY"
  | .annotationDefault => "ANNOTATION_DEFAULT"
  | .nestedIn => "NESTED_IN"
  | .implicit => "IMPLICIT"
  | .signature => "SIGNATURE"

end EdgeKind

structure Edge where
  source : NodeId
  target : NodeId
  kind : EdgeKind
deriving DecidableEq, Repr

def Edge.text (e : Edge) : String :=
  e.source.text ++ " " ++ e.kind.label ++ " " ++ e.target.text

end Winnow
