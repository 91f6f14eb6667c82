import Winnow.Graph.Hierarchy

/-!
# Cycles in the hierarchy

A depth-first walk upwards lists the nodes in the order in which they are
finished. Without a cycle every node comes after all that is above it, so in
the reverse of that list a walk downwards from each node in turn meets nothing
but the node itself. The first other node that is met lies on a cycle.
-/
namespace Winnow

/-- Walks along `next` with a stack, listing each place when everything beyond it is done, the
last one first. A place that is next to itself ends the walk. -/
def finishOrder {α : Type} [DecidableEq α] (next : α → List α) (fresh stack finished : List α) :
    Except α (List α × List α) :=
  match stack with
  | [] => .ok (fresh, finished)
  | a :: stack =>
    if a ∈ fresh then
      if a ∈ next a then .error a
      else
        let fresh := without a fresh
        finishOrder next fresh (((next a).filter (· ∈ fresh)).reverse ++ a :: stack) finished
    else finishOrder next fresh stack (if a ∈ finished then finished else a :: finished)
termination_by (fresh.length, stack.length)
decreasing_by
  · exact Prod.Lex.left _ _ (length_without_lt (by assumption))
  · exact Prod.Lex.right _ (by simp)

/-- Walks along `next` with a stack: the places visited, in order, and those not visited. -/
def depthFirst {α : Type} [DecidableEq α] (next : α → List α) (fresh stack : List α) :
    List α × List α :=
  match stack with
  | [] => ([], fresh)
  | a :: stack =>
    if a ∈ fresh then
      let later := without a fresh
      let r := depthFirst next later (((next a).filter (· ∈ later)).reverse ++ stack)
      (a :: r.1, r.2)
    else depthFirst next fresh stack
termination_by (fresh.length, stack.length)
decreasing_by
  · exact Prod.Lex.left _ _ (length_without_lt (by assumption))
  · exact Prod.Lex.right _ (by simp)

/-- The second place that one of the walks from `starts` meets; what a walk has visited is left
out by the later ones. -/
def secondMet {α : Type} [DecidableEq α] (next : α → List α) (fresh : List α) :
    List α → Option α
  | [] => none
  | a :: starts =>
    match depthFirst next fresh [a] with
    | (_ :: b :: _, _) => some b
    | (_, fresh) => secondMet next fresh starts

namespace Graph

/-- The finish order over all nodes, the last one first. -/
def finishAll (g : Graph) (fresh finished : List NodeId) :
    List NodeId → Except NodeId (List NodeId)
  | [] => .ok finished
  | id :: ids =>
    if id ∈ fresh then
      match finishOrder g.parents fresh [id] finished with
      | .error id => .error id
      | .ok (fresh, finished) => g.finishAll fresh finished ids
    else g.finishAll fresh finished ids

/-- A node on a cycle of the hierarchy. -/
def cycleNode? (g : Graph) : Option NodeId :=
  let ids := g.nodes.map Node.id
  match g.finishAll ids [] ids with
  | .error id => some id
  | .ok order => secondMet g.children ids order

/-- The class that is named when the hierarchy has a cycle. -/
def cycle? (g : Graph) : Option String := g.cycleNode?.map NodeId.className

end Graph

end Winnow
