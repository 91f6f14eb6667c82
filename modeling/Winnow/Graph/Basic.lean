import Winnow.Edge
import Winnow.Node.Basic
import Winnow.Sorted.Map

/-!
# The program graph

Nodes in the order in which they came, one per identity, and typed edges
between them, the latest first. Whoever walks the edges of a node walks them
latest first, so this order is part of the meaning of a graph.

The graph also counts what could not be resolved: one warning for every class
that is only a placeholder for an unknown one, and per member the references
of its body that lead nowhere.
-/
namespace Winnow

structure Graph where
  nodes : List Node := []
  edges : List Edge := []
  classWarnings : Nat := 0
  missingRefs : SortedMap NodeId Nat := ∅
deriving DecidableEq, Repr, Inhabited

/-- The sum of a quantity over a list. -/
def total {α : Type} (f : α → Nat) : List α → Nat
  | [] => 0
  | a :: l => f a + total f l

namespace Graph

def empty : Graph := {}

instance : EmptyCollection Graph := ⟨empty⟩

def node? (g : Graph) (id : NodeId) : Option Node := g.nodes.find? (·.id = id)

def contains (g : Graph) (id : NodeId) : Bool := g.nodes.any (·.id = id)

def class? (g : Graph) (name : String) : Option ClassNode := (g.node? (.class_ name)).bind Node.class?

def member? (g : Graph) (id : NodeId) : Option MemberNode := (g.node? id).bind Node.member?

def classes (g : Graph) : List ClassNode := g.nodes.filterMap Node.class?

def members (g : Graph) : List MemberNode := g.nodes.filterMap Node.member?

def programClasses (g : Graph) : List ClassNode := g.classes.filter (·.isProgram)

/-- The members that a class lists and the graph has. -/
def membersOf (g : Graph) (name : String) : List MemberNode :=
  match g.class? name with
  | none => []
  | some c => c.members.toList.filterMap g.member?

def nodeCount (g : Graph) : Nat := g.nodes.length

def edgeCount (g : Graph) : Nat := g.edges.length

def hasEdge (g : Graph) (e : Edge) : Bool := e ∈ g.edges

/-- The edges out of a node, latest first. -/
def outgoing (g : Graph) (id : NodeId) : List Edge := g.edges.filter (·.source = id)

/-- The edges into a node, latest first. -/
def incoming (g : Graph) (id : NodeId) : List Edge := g.edges.filter (·.target = id)

/-- Every warning, for classes and for members. -/
def warnings (g : Graph) : Nat := g.classWarnings + total (·.2) g.missingRefs.toList

/-- The names of the classes that are mentioned and not known. -/
def unresolvedClasses (g : Graph) : SortedSet String :=
  .ofList ((g.classes.filter (·.origin = .unresolved)).map (·.name))

/-- The member of that kind and key that a class declares itself. -/
def declared (g : Graph) (name : String) (kind : NodeKind) (key : MemberKey) : Option NodeId :=
  let ref : MemberRef := ⟨name, key.name, key.descriptor⟩
  let id? : Option NodeId := match kind with
    | .class_ => none
    | .method => some (.method ref)
    | .field => some (.field ref)
  id?.filter g.contains

/-- Changes the node of that identity in place. -/
def update (g : Graph) (id : NodeId) (f : Node → Node) : Graph :=
  { g with nodes := g.nodes.map fun n => if n.id = id then f n else n }

/-- A node that is already there is replaced and keeps its place. -/
def insert (g : Graph) (n : Node) : Graph :=
  if g.contains n.id then g.update n.id fun _ => n
  else { g with nodes := g.nodes ++ [n] }

def updateClass (g : Graph) (name : String) (f : ClassNode → ClassNode) : Graph :=
  g.update (.class_ name) fun n => match n with
    | .class_ c => .class_ (f c)
    | .member m => .member m

def updateMember (g : Graph) (id : NodeId) (f : MemberNode → MemberNode) : Graph :=
  g.update id fun n => match n with
    | .class_ c => .class_ c
    | .member m => .member (f m)

def addClass (g : Graph) (c : ClassNode) : Graph := g.insert (.class_ c)

/-- The member is also entered in the list of its owner. -/
def addMember (g : Graph) (m : MemberNode) : Graph :=
  (g.updateClass m.id.className fun c => { c with members := c.members.insert m.id }).insert
    (.member m)

/-- A class that is not there yet comes as a placeholder. -/
def ensureClass (g : Graph) (name : String) (origin : Origin) : Graph :=
  if g.contains (.class_ name) then g else g.addClass (.placeholder name origin)

/-- An edge is new and has both ends. -/
def accepts (g : Graph) (e : Edge) : Bool :=
  g.contains e.source && g.contains e.target && !g.hasEdge e

/-- The same edge is there only once, and never without its ends. -/
def addEdge (g : Graph) (e : Edge) : Graph :=
  if g.accepts e then { g with edges := e :: g.edges } else g

def addEdges (g : Graph) (edges : List Edge) : Graph := edges.foldl addEdge g

/-- Adds edges in turn, with those that were new. -/
def insertEdges (g : Graph) : List Edge → Graph × List Edge
  | [] => (g, [])
  | e :: edges =>
    if g.accepts e then
      let r := (g.addEdge e).insertEdges edges
      (r.1, e :: r.2)
    else g.insertEdges edges

/-- The edges out of `id` of the kinds that `p` selects. -/
def edgesFrom (g : Graph) (id : NodeId) (p : EdgeKind → Bool) : List Edge :=
  (g.outgoing id).filter (p ·.kind)

def removeEdgesFrom (g : Graph) (id : NodeId) (p : EdgeKind → Bool) : Graph :=
  { g with edges := g.edges.filter fun e => !(e.source = id && p e.kind) }

/-- Removes the edges out of `id` of the kinds that `p` selects, and returns them. -/
def takeEdgesFrom (g : Graph) (id : NodeId) (p : EdgeKind → Bool) : Graph × List Edge :=
  (g.removeEdgesFrom id p, g.edgesFrom id p)

/-- The node goes with its edges, its missing references and its entry in its owner. -/
def removeNode (g : Graph) (id : NodeId) : Graph :=
  match g.node? id with
  | none => g
  | some n =>
    let g : Graph := { g with
      nodes := g.nodes.filter (·.id ≠ id)
      edges := g.edges.filter fun e => e.source ≠ id && e.target ≠ id
      missingRefs := g.missingRefs.erase id }
    match n with
    | .class_ _ => g
    | .member _ =>
      g.updateClass id.className fun c => { c with members := c.members.erase id }

def recordWarning (g : Graph) : Graph := { g with classWarnings := g.classWarnings + 1 }

def discardWarning (g : Graph) : Graph := { g with classWarnings := g.classWarnings - 1 }

/-- One more reference of `id` that leads nowhere. -/
def recordMissing (g : Graph) (id : NodeId) : Graph :=
  if g.contains id then
    { g with missingRefs := g.missingRefs.insert id ((g.missingRefs.get? id).getD 0 + 1) }
  else g

def clearMissing (g : Graph) (id : NodeId) : Graph :=
  { g with missingRefs := g.missingRefs.erase id }

def setMissing (g : Graph) (refs : List (NodeId × Nat)) : Graph :=
  { g with missingRefs := .ofList (refs.filter (0 < ·.2)) }

/-- Enters what a unit declares: the class, then its members. -/
def declare (g : Graph) (u : CompiledUnit) (origin : Origin) : Graph :=
  u.memberNodes.foldl addMember (g.addClass (u.node origin))

end Graph

end Winnow
