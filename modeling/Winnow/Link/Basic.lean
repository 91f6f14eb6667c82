import Winnow.Descriptor
import Winnow.Graph.Hierarchy
import Winnow.Platform

/-!
# Links

A link is one thing that a unit says about how its nodes depend on others. It
becomes edges when it is applied to the graph, where names are looked up and
placeholders for unknown classes are made. A link from a node that the graph
does not have does nothing. Linking reports the edges that were new.
-/
namespace Winnow

inductive Link
  /-- The class `name` stands above the source in the hierarchy. -/
  | supertype (source : NodeId) (kind : EdgeKind) (name : String)
  /-- The source mentions the class `name`. -/
  | mention (source : NodeId) (kind : EdgeKind) (name : String)
  /-- The target is there already, or there is no edge. -/
  | known (edge : Edge)
  /-- The source calls a method, searched from `start` on, on the static type `receiver`. -/
  | call (source : NodeId) (dispatch : Dispatch) (start receiver : String) (key : MemberKey)
  | access (source : NodeId) (owner : String) (key : MemberKey)
  /-- The source asks at run time for the members of a class that are called `member`. -/
  | lookup (source : NodeId) (name member : String) (descriptor : Option String)
deriving DecidableEq, Repr

def Link.source : Link → NodeId
  | .supertype source .. | .mention source .. | .call source .. | .access source ..
  | .lookup source .. => source
  | .known edge => edge.source

/-- A method that calls reach without choosing among overriding methods. -/
def MemberNode.isExact (m : MemberNode) : Bool :=
  m.modifiers.isStatic || m.modifiers.isPrivate || m.name = constructorName

namespace Graph

/-- The class that a mention of `name` leads to: none for the root of the hierarchy, for arrays of
primitive types and for platform types, unless these stand in the hierarchy or are there anyway. -/
def mentioned? (g : Graph) (platform : Platform) (inHierarchy : Bool) (name : String) :
    Option String := do
  let name ← Descriptor.elementClass name
  if name = objectClass then none
  else if g.contains (.class_ name) || inHierarchy || !platform.recognizes name then some name
  else none

/-- Makes sure that a class is there. An unknown one is warned of when it is first mentioned. -/
def provide (g : Graph) (platform : Platform) (name : String) : Graph :=
  if g.contains (.class_ name) then g
  else if platform.recognizes name then g.ensureClass name .library
  else g.recordWarning.ensureClass name .unresolved

def linkClass (g : Graph) (platform : Platform) (inHierarchy : Bool) (source : NodeId)
    (kind : EdgeKind) (name : String) : Graph × List Edge :=
  match g.mentioned? platform inHierarchy name with
  | none => (g, [])
  | some name => (g.provide platform name).insertEdges [⟨source, .class_ name, kind⟩]

/-- How a call uses the method it resolves to. -/
def useOfCall (g : Graph) (dispatch : Dispatch) (receiver : String) (id : NodeId) : Use :=
  let exact_ := ((g.member? id).map MemberNode.isExact).getD true
  match dispatch with
  | .virtual | .interface => if exact_ then .call else .virtualCall receiver
  | .static | .special => .call

/-- The members of a class with the given name, and the given descriptor if there is one. -/
def lookedUp (g : Graph) (name member : String) (descriptor : Option String) : List NodeId :=
  ((g.membersOf name).filter fun m =>
    m.name = member && (descriptor.all fun d => m.descriptor = d)).map (·.id)

/-- The edge from `source` to what a reference resolves to, or a missing reference. -/
def linkResolved (g : Graph) (source : NodeId) (use : NodeId → Use) :
    Resolution → Graph × List Edge
  | .declared id => g.insertEdges [⟨source, id, .uses (use id)⟩]
  | .external => (g, [])
  | .missing => (g.recordMissing source, [])

/-- Applies a link, with the edges that were new. -/
def link (g : Graph) (platform : Platform) (link : Link) : Graph × List Edge :=
  if !g.contains link.source then (g, [])
  else match link with
    | .supertype source kind name => g.linkClass platform true source kind name
    | .mention source kind name => g.linkClass platform false source kind name
    | .known edge => g.insertEdges [edge]
    | .call source dispatch start receiver key =>
      g.linkResolved source (g.useOfCall dispatch receiver) (g.resolve start .method key)
    | .access source owner key =>
      g.linkResolved source (fun _ => .fieldAccess) (g.resolve owner .field key)
    | .lookup source name member descriptor =>
      match g.mentioned? platform false name with
      | none => (g, [])
      | some name => g.insertEdges
          ((g.lookedUp name member descriptor).map fun id => ⟨source, id, .uses .reflection⟩)

/-- Applies links in turn, with the edges that were new. -/
def linkAll (g : Graph) (platform : Platform) : List Link → Graph × List Edge
  | [] => (g, [])
  | link :: links =>
    let r := g.link platform link
    let s := r.1.linkAll platform links
    (s.1, r.2 ++ s.2)

/-- The graph with a link applied; no one asks which edges are new. -/
def applyLink (platform : Platform) (g : Graph) (link : Link) : Graph := (g.link platform link).1

def applyLinks (platform : Platform) (g : Graph) (links : List Link) : Graph :=
  links.foldl (applyLink platform) g

end Graph

end Winnow
