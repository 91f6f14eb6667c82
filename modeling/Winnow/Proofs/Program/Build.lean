import Winnow.Program
import Winnow.Proofs.Graph.Cycle
import Winnow.Proofs.Link.Apply

/-!
# Graphs that are built

Declaring units and applying their links, in any number and whatever they say,
leaves a graph well formed; so every graph that is built is.
-/
namespace Winnow

theorem CompiledUnit.id_of_mem_memberNodes {u : CompiledUnit} {m : MemberNode}
    (hm : m ∈ u.memberNodes) : m.id.isClass = false ∧ m.id.className = u.name := by
  rcases List.mem_append.mp hm with hm | hm
  all_goals
    obtain ⟨_, _, rfl⟩ := List.mem_map.mp hm
    exact ⟨rfl, rfl⟩

namespace Graph

variable {g : Graph} {u : CompiledUnit} {origin : Origin} {h : Hierarchy}

theorem WellFormed.foldl_addMember {name : String} {members : List MemberNode} (hg : g.WellFormed)
    (hc : g.contains (.class_ name) = true)
    (hm : ∀ m ∈ members, m.id.isClass = false ∧ m.id.className = name) :
    (members.foldl Graph.addMember g).WellFormed := by
  induction members generalizing g with
  | nil => exact hg
  | cons m members ih =>
    obtain ⟨hid, hname⟩ := hm m List.mem_cons_self
    exact ih (hg.addMember hid (hname ▸ hc)) (contains_addMember.mpr (.inr hc))
      fun k hk => hm k (List.mem_cons_of_mem m hk)

theorem WellFormed.declare (hg : g.WellFormed) : (g.declare u origin).WellFormed :=
  hg.addClass.foldl_addMember (contains_insert.mpr (.inl rfl))
    fun _ hm => CompiledUnit.id_of_mem_memberNodes hm

theorem WellFormed.linkOverrides (hg : g.WellFormed) : (linkOverrides h g u).WellFormed := by
  unfold Graph.linkOverrides
  induction u.methods generalizing g with
  | nil => exact hg
  | cons m methods ih => exact ih hg.addEdges

end Graph

namespace Program

variable {p : Program} {g : Graph}

theorem wellFormed_declared (p : Program) : p.declared.WellFormed := by
  refine List.foldlRecOn _ _ (List.foldlRecOn _ _ Graph.wellFormed_empty ?_) ?_
  · intro g hg s _
    exact hg.declare
  · intro g hg u _
    exact hg.declare

theorem wellFormed_skeleton (p : Program) : p.skeleton.WellFormed :=
  List.foldlRecOn _ _ p.wellFormed_declared fun _ hg _ _ => hg.applyLinks

theorem wellFormed_complete (hg : g.WellFormed) : (p.complete g).WellFormed := by
  refine List.foldlRecOn _ _ (List.foldlRecOn _ _ hg ?_) ?_
  · intro g hg s _
    exact hg.applyLinks
  · intro g hg s _
    exact hg.linkOverrides

theorem build_eq_ok_iff : p.build = .ok g ↔ p.skeleton.cycle? = none ∧ p.complete p.skeleton = g := by
  unfold build
  split
  next name hc => simp [hc]
  next hc => simp [hc]

theorem wellFormed_of_build (hp : p.build = .ok g) : g.WellFormed := by
  obtain ⟨_, rfl⟩ := build_eq_ok_iff.mp hp
  exact wellFormed_complete p.wellFormed_skeleton

/-- A program is built exactly if its hierarchy can be ranked. -/
theorem exists_build_iff : (∃ g, p.build = .ok g) ↔ ∃ rank, p.skeleton.Ranked rank := by
  rw [← p.wellFormed_skeleton.cycle?_eq_none_iff]
  constructor
  · rintro ⟨g, hg⟩
    exact (build_eq_ok_iff.mp hg).1
  · intro hc
    exact ⟨_, build_eq_ok_iff.mpr ⟨hc, rfl⟩⟩

theorem build_of_ranked {rank : NodeId → Nat} (hrank : p.skeleton.Ranked rank) :
    p.build = .ok (p.complete p.skeleton) := by
  obtain ⟨g, hg⟩ := exists_build_iff.mpr ⟨rank, hrank⟩
  obtain ⟨_, rfl⟩ := build_eq_ok_iff.mp hg
  exact hg

/-- A program is built if no class of it extends or implements another known one. -/
theorem build_of_edges_eq_nil (hnone : p.skeleton.edges = []) :
    p.build = .ok (p.complete p.skeleton) := by
  have hranked : p.skeleton.Ranked fun _ => 0 := Graph.ranked_of_edges fun e he => by
    rw [hnone] at he
    cases he
  exact build_of_ranked hranked

section Shapes

def shapesMain : NodeId := .method ⟨"a/Main", "main", "()V"⟩

/-- An interface, a class below it, and a method that calls the one through the other. -/
def shapes : Program where
  platform := {}
  units := [
    ⟨{ CompiledUnit.blank "a/Shape" with
        modifiers := ⟨0x601⟩
        methods := [{ Method.blank "area" "()I" with modifiers := ⟨0x401⟩ }] }, ⟨"in/Shape.json"⟩⟩,
    ⟨{ CompiledUnit.blank "a/Disc" with
        interfaces := ["a/Shape"]
        methods := [.defaultConstructor objectClass, .blank "area" "()I"] }, ⟨"in/Disc.json"⟩⟩,
    ⟨{ CompiledUnit.blank "a/Main" with
        methods := [((Method.blank "main" "()V").instantiates "a/Disc").calls .interface
          ⟨"a/Shape", "area", "()I"⟩] }, ⟨"in/Main.json"⟩⟩]

theorem edges_skeleton_shapes :
    shapes.skeleton.edges = [⟨.class_ "a/Disc", .class_ "a/Shape", .implements⟩] := by decide

theorem exists_build_shapes : ∃ g, shapes.build = .ok g := by
  have hranked : shapes.skeleton.Ranked fun id => if id = .class_ "a/Disc" then 1 else 0 :=
    Graph.ranked_of_edges fun e he _ => by
      rw [edges_skeleton_shapes] at he
      rw [List.mem_singleton.mp he]
      decide
  exact ⟨_, build_of_ranked hranked⟩

end Shapes

end Program

end Winnow
