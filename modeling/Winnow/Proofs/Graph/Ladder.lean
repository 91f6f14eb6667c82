import Winnow.Proofs.Graph.Core

/-!
# The hierarchy hangs on its own edges

The supertypes of a class, with their order, depend on the edges of the
hierarchy alone. Linking outside the hierarchy adds no such edge and leaves the
core of a graph as it is, so all that linking looks up stays the same.
-/
namespace Winnow

namespace Graph

variable {g g' : Graph} {platform : Platform} {id : NodeId}

/-- The edges of the hierarchy, latest first. -/
def ladder (g : Graph) : List Edge := g.edges.filter (·.kind.isHierarchy)

theorem parents_eq_ladder (g : Graph) (id : NodeId) :
    g.parents id = (g.ladder.filter (·.source = id)).map (·.target) := by
  rw [parents, outgoing, ladder, List.filter_filter, List.filter_filter]
  congr 2
  funext e
  exact Bool.and_comm _ _

theorem parents_congr (h : g.ladder = g'.ladder) : g.parents = g'.parents := by
  funext id
  rw [parents_eq_ladder, parents_eq_ladder, h]

theorem ancestors_eq_nil_of_parents (h : g.parents id = []) : g.ancestors id = [] := by
  rw [ancestors, List.filter_eq_nil_iff]
  intro x hx
  obtain ⟨q, hq, hreach⟩ := reachable_of_mem_breadthFirst hx
  obtain rfl : q = id := by simpa using hq
  rcases Relation.ReflTransGen.cases_head hreach with rfl | ⟨y, hy, _⟩
  · simp
  · simp [h] at hy

/-- What is above a node depends on what is directly above each node, in order, and on nothing
else. -/
theorem WellFormed.ancestors_congr (hw : g.WellFormed) (hw' : g'.WellFormed)
    (h : g.parents = g'.parents) (id : NodeId) : g.ancestors id = g'.ancestors id := by
  by_cases hid : g.parents id = []
  · rw [ancestors_eq_nil_of_parents hid, ancestors_eq_nil_of_parents (h ▸ hid)]
  · -- Every place of the search is an end of an edge, so it is in both graphs.
    have hends : ∀ {g : Graph}, g.WellFormed → ∀ a b, b ∈ g.parents a →
        a ∈ g.nodes.map Node.id ∧ b ∈ g.nodes.map Node.id := by
      intro g hw a b hb
      simp only [parents, List.mem_map, List.mem_filter, mem_outgoing] at hb
      obtain ⟨e, ⟨⟨he, rfl⟩, _⟩, rfl⟩ := hb
      exact ⟨contains_iff_mem.mp (hw.ends e he).1, contains_iff_mem.mp (hw.ends e he).2⟩
    rw [ancestors, ancestors]
    congr 1
    refine breadthFirst_congr (fun a => a ∈ g.nodes.map Node.id ∧ a ∈ g'.nodes.map Node.id)
      ?_ ?_ ?_ ?_
    · rintro a _ b hb
      exact ⟨(hends hw a b hb).2, (hends hw' a b (h ▸ hb)).2⟩
    · intro a _
      rw [h]
    · rintro a ⟨ha, ha'⟩
      exact ⟨fun _ => ha', fun _ => ha⟩
    · intro a ha
      obtain rfl : a = id := by simpa using ha
      obtain ⟨b, hb⟩ := List.exists_mem_of_ne_nil _ hid
      exact ⟨(hends hw a b hb).1, (hends hw' a b (h ▸ hb)).1⟩

theorem WellFormed.supertypes_class (hw : g.WellFormed) (name : String) :
    g.hierarchy.supertypes (.class_ name) = g.ancestors (.class_ name) := by
  rw [hw.supertypes_eq]
  split
  next => rfl
  next hnone =>
    have hc : g.contains (.class_ name) = false := by
      refine Bool.eq_false_iff.mpr fun hc => hnone ?_
      obtain ⟨c, hc⟩ := hw.class?_of_contains hc
      obtain ⟨hn, rfl⟩ := class?_eq_some hc
      exact ⟨c, mem_classes.mpr (mem_of_node? hn), rfl⟩
    refine (ancestors_eq_nil_of_parents ?_).symm
    rw [parents, List.map_eq_nil_iff, List.filter_eq_nil_iff]
    intro e he
    obtain ⟨he, hs⟩ := mem_outgoing.mp he
    have := (hw.ends e he).1
    simp [hs, hc] at this

theorem WellFormed.supertypes_of_not_class (hw : g.WellFormed) (hid : id.isClass = false) :
    g.hierarchy.supertypes id = [] := by
  rw [hw.supertypes_eq, if_neg]
  rintro ⟨c, _, rfl⟩
  cases hid

/-- Graphs with the same hierarchy have the same supertypes, in order. -/
theorem WellFormed.supertypes_congr (hw : g.WellFormed) (hw' : g'.WellFormed)
    (h : g.parents = g'.parents) (id : NodeId) :
    g.hierarchy.supertypes id = g'.hierarchy.supertypes id := by
  cases id with
  | class_ name => rw [hw.supertypes_class, hw'.supertypes_class, hw.ancestors_congr hw' h]
  | method ref => rw [hw.supertypes_of_not_class rfl, hw'.supertypes_of_not_class rfl]
  | field ref => rw [hw.supertypes_of_not_class rfl, hw'.supertypes_of_not_class rfl]

section Extension
variable {b : Bool}

theorem isUnresolved_standIn {name : String} :
    Marking.isUnresolved (standIn platform name) = !platform.recognizes name := by
  cases hp : platform.recognizes name <;>
    simp [standIn, hp, Marking.isUnresolved, ClassNode.placeholder]

theorem Extension.member? (h : Extension platform b g g') (id : NodeId) :
    g'.member? id = g.member? id := by
  cases hm : g.member? id with
  | some m => exact member?_of_node? (h.retains _ _ (member?_eq_some hm).1)
  | none =>
    cases hm' : g'.member? id with
    | none => rfl
    | some m =>
      obtain ⟨hn', _⟩ := member?_eq_some hm'
      cases hn : g.node? id with
      | none =>
        obtain ⟨name, hname, _⟩ := h.introduced id _ hn' hn
        cases hname
      | some n =>
        have := h.retains id n hn
        obtain rfl : n = .member m := by simpa [this] using hn'
        simp [member?_of_node? hn] at hm

theorem Extension.class? (h : Extension platform b g g') {name : String} {c : ClassNode}
    (hc : g.class? name = some c) : g'.class? name = some c :=
  class?_of_node? (h.retains _ _ (class?_eq_some hc).1)

theorem Tame.extend (hg : g.Tame platform) (h : Extension platform b g g') : g'.Tame platform where
  standIn id n hn hu := by
    cases hold : g.node? id with
    | some k =>
      obtain rfl : k = n := by simpa [h.retains id k hold] using hn
      exact hg.standIn id k hold hu
    | none =>
      obtain ⟨name, rfl, _⟩ := h.introduced id n hn hold
      rw [isUnresolved_standIn, Bool.not_eq_true'] at hu
      exact ⟨name, by simp [Graph.standIn, hu], hu⟩
  owner id m hm := by
    rw [h.member?] at hm
    obtain ⟨c, hc, ho⟩ := hg.owner id m hm
    exact ⟨c, h.class? hc, ho⟩

/-- Outside the hierarchy, new nodes only stand in for unknown classes. -/
theorem Extension.sameCore (h : Extension platform false g g') : SameCore g g' := by
  intro id
  cases hold : g.node? id with
  | some n => rw [core, core, hold, h.retains id n hold]
  | none =>
    have hnone : g.core id = none := core_eq_none_iff.mpr (by simp [hold])
    rw [hnone, eq_comm, core_eq_none_iff]
    intro n hn
    obtain ⟨name, rfl, hp⟩ := h.introduced id n hn hold
    rw [isUnresolved_standIn, Bool.not_eq_true']
    exact Bool.eq_false_iff.mpr fun hr => by simpa using hp hr

end Extension

end Graph

end Winnow
