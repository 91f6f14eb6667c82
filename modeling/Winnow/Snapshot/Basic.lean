import Winnow.Fingerprint
import Winnow.Graph.Basic
import Winnow.Platform
import Winnow.Retention

/-!
# Snapshots

Everything that a run leaves for the next one: the graph, the tables of all
counter-sets, and the fingerprints of the files. Classes and members are sorted,
and so are edges, by their ends.
-/
namespace Winnow

/-- What decides which units are written, and where. -/
structure EmitSettings where
  counterSet : String := ""
  output : Option Path := none
  omitEmptyShells : Bool := false
deriving DecidableEq, Repr, Inhabited

/-- The settings agree; two texts of one path are no difference. -/
def EmitSettings.same (a b : EmitSettings) : Bool :=
  a.counterSet = b.counterSet && a.omitEmptyShells = b.omitEmptyShells &&
    a.output.map Path.components = b.output.map Path.components

/-- The result of marking under one set of rules, with the fingerprint of these. -/
structure CounterSetState where
  fingerprint : String
  table : CounterTable
deriving DecidableEq, Repr

structure Snapshot where
  version : Nat
  createdAt : Nat
  platform : Platform
  emit : EmitSettings
  classes : List ClassNode
  members : List MemberNode
  edges : List Edge
  counterSets : SortedMap String CounterSetState := ∅
  units : Fingerprints := ∅
  libraries : Fingerprints := ∅
  warnings : Nat
  missingRefs : List (NodeId × Nat) := []
deriving DecidableEq, Repr

inductive SnapshotError
  | missing (path : Path)
  | unreadable (detail : String)
  | unparsable (detail : String)
  | wrongVersion (found expected : Nat)
  | orphanMember (id : NodeId)
  | danglingEdge (source target : NodeId)
  | fingerprint (path : Path) (detail : String)
deriving DecidableEq, Repr

def SnapshotError.message : SnapshotError → String
  | .missing path => s!"No snapshot at {path.text}"
  | .unreadable detail => s!"Failed to read snapshot: {detail}"
  | .unparsable detail => s!"Failed to parse snapshot: {detail}"
  | .wrongVersion found expected => s!"Snapshot version {found} does not match {expected}"
  | .orphanMember id => s!"Snapshot is inconsistent: member {id.display} has no owner"
  | .danglingEdge source target =>
    s!"Snapshot is inconsistent: edge {source.display} -> {target.display} names an unknown node"
  | .fingerprint path detail => s!"Failed to fingerprint {path.text}: {detail}"

namespace Snapshot

/-- The version of the format. -/
def currentVersion : Nat := 1

/-- Edges by source and target; edges with the same ends in the order in which they came. -/
def sortedEdges (g : Graph) : List Edge :=
  g.edges.reverse.mergeSort fun a b =>
    ((compare a.source b.source).then (compare a.target b.target)).isLE

/-- The part of a snapshot that describes a graph. -/
def ofGraph (g : Graph) (platform : Platform) (emit : EmitSettings) (now : Nat) : Snapshot where
  version := currentVersion
  createdAt := now
  platform := platform
  emit := emit
  classes := g.classes.mergeSort fun a b => (compare a.name b.name).isLE
  members := g.members.mergeSort fun a b => (compare a.id b.id).isLE
  edges := sortedEdges g
  warnings := g.classWarnings
  missingRefs := g.missingRefs.toList

def withCounterSet (s : Snapshot) (name fingerprint : String) (table : CounterTable) : Snapshot :=
  { s with counterSets := s.counterSets.insert name ⟨fingerprint, table⟩ }

def addMember (g : Graph) (m : MemberNode) : Except SnapshotError Graph :=
  if g.contains (.class_ m.id.className) then .ok (g.addMember m)
  else .error (.orphanMember m.id)

def addEdge (g : Graph) (e : Edge) : Except SnapshotError Graph :=
  if g.contains e.source && g.contains e.target then .ok (g.addEdge e)
  else .error (.danglingEdge e.source e.target)

/-- The graph that a snapshot describes. -/
def graph (s : Snapshot) : Except SnapshotError Graph := do
  let g := s.classes.foldl Graph.addClass Graph.empty
  let g ← s.members.foldlM addMember g
  let g ← s.edges.foldlM addEdge g
  return { g with classWarnings := s.warnings }.setMissing s.missingRefs

def statsText (s : Snapshot) : String :=
  s!"{s.classes.length} classes, {s.members.length} members, {s.edges.length} edges, " ++
    s!"{s.counterSets.size} counter-sets"

end Snapshot

end Winnow
