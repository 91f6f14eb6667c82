import Winnow.Link.Relink
import Winnow.Marking.Basic

/-!
# Marking again

After body edges changed, what might have hung on a removed edge is unmarked,
and then marked again as far as what is left still supports it. The new edges
are followed last.
-/
namespace Winnow

/-- What marking again changed. -/
structure RemarkStats where
  /-- Unmarked for the time being. -/
  overDeleted : Nat := 0
  /-- Of these, marked again. -/
  restored : Nat := 0
  /-- No longer kept at all. -/
  removed : Nat := 0
  /-- Newly kept. -/
  added : Nat := 0
  /-- In full before, now a shell. -/
  demoted : Nat := 0
  /-- A shell before, now in full. -/
  promoted : Nat := 0
deriving DecidableEq, Repr, Inhabited

namespace RemarkStats

def changed (s : RemarkStats) : Bool := 0 < s.removed + s.added + s.demoted + s.promoted

def toData (s : RemarkStats) : Data :=
  .record [
    ("over_deleted", .natural s.overDeleted),
    ("restored", .natural s.restored),
    ("removed", .natural s.removed),
    ("added", .natural s.added),
    ("demoted", .natural s.demoted),
    ("promoted", .natural s.promoted)]

end RemarkStats

namespace Marking

def states (m : Marking) : List (NodeId × KeepState) :=
  (m.marks.toList.filter (·.2.isKept)).map fun (id, r) => (id, r.state)

def stateOf (m : Marking) (id : NodeId) : Option KeepState :=
  ((m.marks.get? id).filter Retention.isKept).map (·.state)

/-- What runs only because of an edge. -/
def dispatchedBy (g : Graph) (h : Hierarchy) (l : Liveness) (e : Edge) : List NodeId :=
  match e.kind with
  | .uses .instantiate => l.runBy g h e.target
  | .uses (.virtualCall receiver) =>
    if g.contains (.class_ receiver) then l.runOn g h (.class_ receiver) e.target else []
  | _ => []

/-- What might hang on an edge. -/
def dependents (g : Graph) (h : Hierarchy) (l : Liveness) (e : Edge) : List NodeId :=
  (if e.kind.propagation = .none then [] else [e.target]) ++ dispatchedBy g h l e

/-- What might hang on a node. -/
def consequences (g : Graph) (h : Hierarchy) (l : Liveness) (id : NodeId) : List NodeId :=
  match g.node? id with
  | none => []
  | some n =>
    (match n with
      | .member m => [.class_ m.id.className]
      | .class_ _ => if id ∈ l.live then l.runBy g h id else []) ++
    (g.outgoing id).flatMap (dependents g h l)

/-- Roots and placeholders do not hang on any edge. -/
def isDeletable (g : Graph) (m : Marking) (id : NodeId) : Bool :=
  id ∉ m.roots && match g.node? id with
    | some n => !isUnresolved n
    | none => false

/-- Every marked node that might hang on a removed edge. -/
def overDeleted (g : Graph) (h : Hierarchy) (m : Marking) (removed : List Edge) : List NodeId :=
  breadthFirst (consequences g h m.liveness) (m.markedIds.filter (isDeletable g m))
    ((removed.filter fun e => m.isMarked e.source).flatMap (dependents g h m.liveness))

/-- The marking without anything about the given nodes. -/
def unmark (m : Marking) (ids : List NodeId) : Marking :=
  { m with marks := m.marks.filter fun id _ => id ∉ ids }

/-- The demands of marked nodes for an unmarked one. -/
def support (g : Graph) (m : Marking) (id : NodeId) : List Demand :=
  ((g.incoming id).filter fun e => m.isMarked e.source).filterMap Edge.demand? ++
    match (g.node? id).bind Node.class? with
    | some c => if c.members.toList.any fun id => g.contains id && m.isMarked id
        then [⟨id, .shell⟩] else []
    | none => []

/-- The placeholders that are not marked yet. -/
def newPlaceholders (g : Graph) (m : Marking) : List NodeId :=
  ((g.nodes.filter isUnresolved).map Node.id).filter fun id => !m.isMarked id

/-- Everything that the live classes run for the calls seen. -/
def dispatched (g : Graph) (h : Hierarchy) (l : Liveness) : List NodeId :=
  l.callSites.flatMap fun (receiver, decl) => l.runOn g h receiver decl

def keepUnmarked (g : Graph) (m : Marking) (id : NodeId) : Marking :=
  if m.isMarked id then m else m.keep g ⟨id, .full⟩

/-- Marks what is left again, given the nodes unmarked in the meantime. -/
def rederive (g : Graph) (h : Hierarchy) (m : Marking) (deleted : List NodeId)
    (added : List Edge) : Marking :=
  let m := { m with liveness := .ofKept g m.roots.toList m.markedIds }
  let m := deleted.foldl (fun m id => m.keepAll g (m.support g id)) m
  let m := added.foldl
    (fun m e => if m.isMarked e.source then m.keepAll g e.demand?.toList else m) m
  let m := m.keepAll g ((m.newPlaceholders g).map (⟨·, .shell⟩))
  let m := (dispatched g h m.liveness).foldl (keepUnmarked g) m
  m.drain g h

def compareStates (before after : Marking) (deleted : List NodeId) : RemarkStats :=
  let changes := before.states.map fun (id, old) => (old, after.stateOf id)
  { overDeleted := deleted.length
    restored := (deleted.filter after.isMarked).length
    removed := (changes.filter fun (_, new) => new = none).length
    added := (after.markedIds.filter fun id => !before.isMarked id).length
    demoted := (changes.filter fun (old, new) => old = .full && new = some .shell).length
    promoted := (changes.filter fun (old, new) => old = .shell && new = some .full).length }

/-- Brings the marking of the graph before a change up to date with the graph after it. The
hierarchy is the same before and after. -/
def remark (g : Graph) (h : Hierarchy) (before : Marking) (delta : EdgeDelta) :
    Marking × RemarkStats :=
  let m : Marking := { before.unmark delta.dropped with
    roots := before.roots.filter (· ∉ delta.dropped) }
  let deleted := overDeleted g h m delta.removed
  let after := (m.unmark deleted).rederive g h deleted delta.added
  (after, compareStates before after deleted)

end Marking

end Winnow
