import Winnow.Proofs.Graph.Cycle
import Winnow.Proofs.Graph.Ladder
import Winnow.Proofs.SearchOrder

/-!
# Supertypes

The supertypes of a class are what stands above it in one or more steps. They
come nearest first.
-/
namespace Winnow

namespace Graph

variable {g : Graph} {id above : NodeId} {name : String}

def IsInterface (g : Graph) (name : String) : Prop :=
  ∃ c, g.class? name = some c ∧ c.modifiers.isInterface = true

/-- The class stands below the other one, in however many steps. -/
def ProperlyBelow (g : Graph) (sub sup : String) : Prop :=
  Relation.TransGen g.DirectlyBelow (.class_ sub) (.class_ sup)

/-- Fewer steps lead from `name` to `first` than to `second`. -/
def Nearer (g : Graph) (name first second : String) : Prop :=
  ∃ n, StepsTo g.parents (.class_ name) n (.class_ first) ∧
    ∀ m ≤ n, ¬ StepsTo g.parents (.class_ name) m (.class_ second)

theorem exists_stepsTo (h : Relation.ReflTransGen g.DirectlyBelow id above) :
    ∃ n, StepsTo g.parents id n above := by
  induction h with
  | refl => exact ⟨0, .here⟩
  | tail _ hc ih =>
    obtain ⟨n, hn⟩ := ih
    exact ⟨n + 1, .step hn hc⟩

section Coherent

variable (hg : g.Coherent)
include hg

theorem Coherent.mem_ancestors_iff : above ∈ g.ancestors id ↔
    above ≠ id ∧ Relation.TransGen g.DirectlyBelow id above := by
  have hsearch := isBreadthFirst_breadthFirst g.parents (g.nodes.map Node.id) [id]
  rw [ancestors, List.mem_filter, and_comm, decide_eq_true_eq]
  refine and_congr_right fun hne => ⟨fun hmem => ?_, fun hbelow => ?_⟩
  · obtain ⟨start, hstart, hreach⟩ := reachable_of_mem_breadthFirst hmem
    rw [List.mem_singleton.mp hstart, Relation.reflTransGen_iff_eq_or_transGen] at hreach
    exact hreach.resolve_left hne
  · -- There is an edge out of the class, so it is there to start from.
    obtain ⟨_, hup, _⟩ := Relation.TransGen.head'_iff.mp hbelow
    obtain ⟨n, hn⟩ := exists_stepsTo hbelow.to_reflTransGen
    exact hn.mem_order hsearch (decide_eq_true (hg.ends_parents hup).1)
      fun x _ y hy => decide_eq_true (hg.ends_parents hy).2

/-- No supertype is farther away than those after it. -/
theorem Coherent.pairwise_ancestors (id : NodeId) : (g.ancestors id).Pairwise
    fun x y => ∀ n, StepsTo g.parents id n y → ∃ m ≤ n, StepsTo g.parents id m x := by
  have hsearch := isBreadthFirst_breadthFirst g.parents (g.nodes.map Node.id) [id]
  by_cases hid : id ∈ g.nodes.map Node.id
  · exact (hsearch.pairwise_nearer (decide_eq_true hid)
      fun x _ y hy => decide_eq_true (hg.ends_parents hy).2).filter _
  · -- What is not in the graph has nothing above it.
    rw [ancestors, breadthFirst, if_neg hid, breadthFirst]
    exact .nil

end Coherent

theorem WellFormed.mem_supertypes_iff (hg : g.WellFormed) (hacyclic : ∀ id, ¬ g.OnCycle id) :
    above ∈ g.hierarchy.supertypes (.class_ name) ↔
      Relation.TransGen g.DirectlyBelow (.class_ name) above := by
  rw [hg.supertypes_class, hg.coherent.mem_ancestors_iff, and_iff_right_iff_imp]
  intro hbelow heq
  exact hacyclic (.class_ name) (heq ▸ hbelow)

end Graph

end Winnow
