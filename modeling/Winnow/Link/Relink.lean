import Winnow.Link.Unit

/-!
# Relinking

When only the bodies and signatures of a unit changed, its body edges are taken
out and linked anew. What was taken out and what linking reports as new are held
against each other, and the difference is what later analyses work on.
-/
namespace Winnow

/-- How body edges differ between two graphs. -/
structure EdgeDelta where
  removed : List Edge := []
  added : List Edge := []
  /-- Placeholders that lost their last edge. -/
  dropped : List NodeId := []
deriving DecidableEq, Repr, Inhabited

namespace EdgeDelta

def isEmpty (d : EdgeDelta) : Bool := d.removed.isEmpty && d.added.isEmpty && d.dropped.isEmpty

def append (a b : EdgeDelta) : EdgeDelta :=
  ⟨a.removed ++ b.removed, a.added ++ b.added, a.dropped ++ b.dropped⟩

instance : Append EdgeDelta := ⟨append⟩

end EdgeDelta

namespace Graph

/-- Takes out all that comes from the bodies of the given nodes, with the edges. -/
def takeBodies (g : Graph) : List NodeId → Graph × List Edge
  | [] => (g, [])
  | id :: ids =>
    let r := (g.clearMissing id).takeEdgesFrom id EdgeKind.isBody
    let s := r.1.takeBodies ids
    (s.1, r.2 ++ s.2)

def setSignatures (g : Graph) (u : CompiledUnit) : Graph :=
  let g := g.updateClass u.name fun c => { c with signature := u.signature }
  let g := u.methods.foldl
    (fun g m => g.updateMember (m.id u.name) fun n => { n with signature := m.signature }) g
  u.fields.foldl
    (fun g f => g.updateMember (f.id u.name) fun n => { n with signature := f.signature }) g

/-- Replaces the body edges of a unit by those that it has now. An edge that was taken out and came
back is no difference. -/
def relinkBodies (g : Graph) (platform : Platform) (u : CompiledUnit) : Graph × EdgeDelta :=
  let taken := g.takeBodies u.nodeIds
  let linked := (taken.1.setSignatures u).linkAll platform u.bodyLinks
  (linked.1, {
    removed := taken.2.filter (· ∉ linked.2)
    added := linked.2.filter (· ∉ taken.2) })

/-- Relinks the units of a batch, one after the other. -/
def relinkBatch (platform : Platform) (g : Graph) (batch : List CompiledUnit) : Graph × EdgeDelta :=
  batch.foldl (fun (r : Graph × EdgeDelta) u =>
    let s := r.1.relinkBodies platform u
    (s.1, r.2 ++ s.2)) (g, {})

/-- A placeholder for an unknown class that nothing refers to. -/
def isOrphan (g : Graph) (id : NodeId) : Bool :=
  match (g.node? id).bind Node.class? with
  | some c => c.origin = .unresolved && (g.incoming id).isEmpty
  | none => false

/-- Drops the orphans among `candidates`, each with the warning for it. -/
def dropOrphans (g : Graph) : List NodeId → Graph × List NodeId
  | [] => (g, [])
  | id :: candidates =>
    if g.isOrphan id then
      let r := (g.removeNode id).discardWarning.dropOrphans candidates
      (r.1, id :: r.2)
    else g.dropOrphans candidates

/-- Drops the placeholders that the removal of edges left without any, once all units with new
bodies are linked. -/
def settle (g : Graph) (delta : EdgeDelta) : Graph × EdgeDelta :=
  let targets := delta.removed.map (·.target)
  let r := g.dropOrphans ((g.nodes.map Node.id).filter (· ∈ targets))
  (r.1, { delta with dropped := delta.dropped ++ r.2 })

end Graph

end Winnow
