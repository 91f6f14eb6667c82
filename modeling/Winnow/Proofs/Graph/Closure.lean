import Mathlib.Order.Lattice.Nat
import Winnow.Proofs.Graph.Edit
import Winnow.Proofs.Graph.Hierarchy

/-!
# The hierarchy as a closure

In every graph that edits can make, with or without cycles, the supertypes of a
class are what lies above it, each once and nearest first. Subtypes are the same
relation read the other way, so that being a subtype is a preorder.
-/
namespace Winnow

namespace Graph

variable {g : Graph} {id above : NodeId} {e : Edge} {c : ClassNode} {m : MemberNode} {name : String}

section Editing

theorem Coherent.addMember (hg : g.Coherent) : (g.addMember m).Coherent := by
  rw [addMember_eq]
  exact (hg.updateClass (ClassNode.name_listing m)).insert

theorem Coherent.ensureClass (hg : g.Coherent) {origin : Origin} :
    (g.ensureClass name origin).Coherent := by
  unfold Graph.ensureClass
  split
  · exact hg
  · exact hg.insert

theorem Coherent.updateMember (hg : g.Coherent) {f : MemberNode → MemberNode}
    (hf : ∀ m, (f m).id = m.id) : (g.updateMember id f).Coherent := by
  have hids : (g.updateMember id f).nodes.map Node.id = g.nodes.map Node.id := by
    refine ids_update fun n hn => ?_
    cases n with
    | class_ c => exact hn
    | member m => exact (hf m).trans hn
  refine ⟨hids ▸ hg.distinct, fun e he => ?_⟩
  rw [contains_congr hids, contains_congr hids]
  exact hg.ends e he

theorem Coherent.addEdge (hg : g.Coherent) : (g.addEdge e).Coherent where
  distinct := by
    rw [nodes_addEdge]
    exact hg.distinct
  ends x hx := by
    rw [contains_addEdge]
    rcases mem_addEdge.mp hx with hx | ⟨rfl, hsource, htarget⟩
    · exact hg.ends x hx
    · exact ⟨hsource, htarget⟩

theorem Coherent.removeEdgesFrom (hg : g.Coherent) {p : EdgeKind → Bool} :
    (g.removeEdgesFrom id p).Coherent :=
  ⟨hg.distinct, fun x hx => hg.ends x (List.mem_of_mem_filter hx)⟩

/-- The edges of a node go with it. -/
theorem Coherent.removeNode (hg : g.Coherent) : (g.removeNode id).Coherent := by
  have hrest : ∀ missing, Coherent { g with
      nodes := g.nodes.filter (·.id ≠ id)
      edges := g.edges.filter fun e => e.source ≠ id && e.target ≠ id
      missingRefs := missing } := by
    refine fun missing => ⟨hg.distinct.sublist (List.filter_sublist.map _), fun e he => ?_⟩
    obtain ⟨he, hne⟩ := List.mem_filter.mp he
    obtain ⟨hsource, htarget⟩ : e.source ≠ id ∧ e.target ≠ id := by simpa using hne
    have hstays : ∀ x ≠ id, g.contains x = true → (g.nodes.filter (·.id ≠ id)).any (·.id = x) = true := by
      intro x hx hc
      obtain ⟨n, hn, hid⟩ := List.any_eq_true.mp hc
      obtain rfl : n.id = x := by simpa using hid
      exact List.any_eq_true.mpr ⟨n, List.mem_filter.mpr ⟨hn, by simpa using hx⟩, hid⟩
    exact ⟨hstays _ hsource (hg.ends e he).1, hstays _ htarget (hg.ends e he).2⟩
  unfold Graph.removeNode
  split
  · exact hg
  next n _ =>
    cases n with
    | class_ c => exact hrest _
    | member m => exact (hrest _).updateClass fun _ => rfl

/-- The graphs that can be made, edit by edit. -/
inductive Edited : Graph → Prop
  | empty : Edited empty
  | addClass {g : Graph} (c : ClassNode) : Edited g → Edited (g.addClass c)
  | addMember {g : Graph} (m : MemberNode) : Edited g → Edited (g.addMember m)
  | ensureClass {g : Graph} (name : String) (origin : Origin) :
      Edited g → Edited (g.ensureClass name origin)
  | updateClass {g : Graph} (name : String) {f : ClassNode → ClassNode} :
      (∀ c, (f c).name = c.name) → Edited g → Edited (g.updateClass name f)
  | updateMember {g : Graph} (id : NodeId) {f : MemberNode → MemberNode} :
      (∀ m, (f m).id = m.id) → Edited g → Edited (g.updateMember id f)
  | addEdge {g : Graph} (e : Edge) : Edited g → Edited (g.addEdge e)
  | removeEdgesFrom {g : Graph} (id : NodeId) (p : EdgeKind → Bool) :
      Edited g → Edited (g.removeEdgesFrom id p)
  | removeNode {g : Graph} (id : NodeId) : Edited g → Edited (g.removeNode id)
  /-- Warnings and missing references may be counted anew. -/
  | recount {g : Graph} (warnings : Nat) (missing : SortedMap NodeId Nat) :
      Edited g → Edited { g with classWarnings := warnings, missingRefs := missing }

theorem Edited.coherent (h : Edited g) : g.Coherent := by
  induction h with
  | empty => exact ⟨List.nodup_nil, nofun⟩
  | addClass c _ ih => exact ih.insert
  | addMember m _ ih => exact ih.addMember
  | ensureClass name origin _ ih => exact ih.ensureClass
  | updateClass name hf _ ih => exact ih.updateClass hf
  | updateMember id hf _ ih => exact ih.updateMember hf
  | addEdge e _ ih => exact ih.addEdge
  | removeEdgesFrom id p _ ih => exact ih.removeEdgesFrom
  | removeNode id _ ih => exact ih.removeNode
  | recount warnings missing _ ih => exact ⟨ih.distinct, ih.ends⟩

end Editing

section Distance

/-- The least number of steps from a node to one above it. -/
noncomputable def distance (g : Graph) (id above : NodeId) : Nat :=
  sInf {n | StepsTo g.parents id n above}

theorem distance_le {n : Nat} (h : StepsTo g.parents id n above) : g.distance id above ≤ n :=
  Nat.sInf_le h

theorem stepsTo_distance (h : Relation.ReflTransGen g.DirectlyBelow id above) :
    StepsTo g.parents id (g.distance id above) above :=
  Nat.sInf_mem (s := {n | StepsTo g.parents id n above}) (exists_stepsTo h)

end Distance

section Closure

theorem directlyBelow_iff : g.DirectlyBelow id above ↔
    ∃ e ∈ g.edges, (e.kind = .super ∨ e.kind = .implements) ∧ e.source = id ∧ e.target = above := by
  have hkind : ∀ k : EdgeKind, k.isHierarchy = true ↔ k = .super ∨ k = .implements := by
    intro k
    cases k <;> simp [EdgeKind.isHierarchy]
  simp only [DirectlyBelow, mem_parents, hkind]

theorem nodup_ancestors (id : NodeId) : (g.ancestors id).Nodup :=
  (isBreadthFirst_breadthFirst g.parents (g.nodes.map Node.id) [id]).nodup.filter _

variable (hg : g.Coherent)
include hg

theorem Coherent.supertypes_of_mem (hc : c ∈ g.classes) :
    g.hierarchy.supertypes c.id = g.ancestors c.id := by
  rw [hg.supertypes_eq, if_pos ⟨c, hc, rfl⟩]

/-- Only classes have supertypes. -/
theorem Coherent.exists_class_of_mem_supertypes (h : above ∈ g.hierarchy.supertypes id) :
    ∃ c ∈ g.classes, c.id = id := by
  by_contra hnone
  rw [hg.supertypes_eq, if_neg hnone] at h
  cases h

theorem Coherent.nearer_ancestors (id : NodeId) :
    (g.ancestors id).Pairwise fun x y => g.distance id x ≤ g.distance id y := by
  refine (hg.pairwise_ancestors id).imp_of_mem fun {x y} _ hy hnearer => ?_
  obtain ⟨m, hm, hsteps⟩ :=
    hnearer _ (stepsTo_distance (hg.mem_ancestors_iff.mp hy).2.to_reflTransGen)
  exact (distance_le hsteps).trans hm

/-- What has supertypes is a class, so the walk up from the lower node goes on where it meets the
middle one. -/
theorem Coherent.isSubtype_trans {a b c : NodeId} (hab : g.hierarchy.isSubtype a b = true)
    (hbc : g.hierarchy.isSubtype b c = true) : g.hierarchy.isSubtype a c = true := by
  rw [Hierarchy.isSubtype_iff] at hab hbc ⊢
  rcases hab with rfl | hab
  · exact hbc
  rcases hbc with rfl | hbc
  · exact .inr hab
  by_cases hac : a = c
  · exact .inl hac
  obtain ⟨A, hA, rfl⟩ := hg.exists_class_of_mem_supertypes hab
  obtain ⟨B, hB, rfl⟩ := hg.exists_class_of_mem_supertypes hbc
  rw [hg.supertypes_of_mem hA, hg.mem_ancestors_iff] at hab ⊢
  rw [hg.supertypes_of_mem hB, hg.mem_ancestors_iff] at hbc
  exact .inr ⟨Ne.symm hac, hab.2.trans hbc.2⟩

theorem Coherent.nodup_subtypes (above : NodeId) : (g.hierarchy.subtypes above).Nodup :=
  hg.functional.sublist (List.filter_sublist.map _)

end Closure

/-- The supertypes of a class are what its edges lead up to in one or more steps, apart from itself,
each once and the nearer ones first. The subtypes of a node are the classes that have it among
their supertypes, each once. Being a subtype is reflexive and transitive. -/
theorem hierarchy_isClosure (hg : g.Coherent) :
    (∀ id above, g.DirectlyBelow id above ↔ ∃ e ∈ g.edges,
      (e.kind = .super ∨ e.kind = .implements) ∧ e.source = id ∧ e.target = above) ∧
    (∀ c ∈ g.classes, (g.hierarchy.supertypes c.id).Nodup ∧
      (∀ above, above ∈ g.hierarchy.supertypes c.id ↔
        above ≠ c.id ∧ Relation.TransGen g.DirectlyBelow c.id above) ∧
      (g.hierarchy.supertypes c.id).Pairwise fun x y => g.distance c.id x ≤ g.distance c.id y) ∧
    (∀ above, (g.hierarchy.subtypes above).Nodup ∧ ∀ id, id ∈ g.hierarchy.subtypes above ↔
      (∃ c ∈ g.classes, c.id = id) ∧ above ∈ g.hierarchy.supertypes id) ∧
    (∀ id, g.hierarchy.isSubtype id id = true) ∧
    ∀ a b c, g.hierarchy.isSubtype a b = true → g.hierarchy.isSubtype b c = true →
      g.hierarchy.isSubtype a c = true := by
  refine ⟨fun id above => directlyBelow_iff, fun c hc => ?_, fun above => ⟨hg.nodup_subtypes above,
    fun id => ?_⟩, fun id => Hierarchy.isSubtype_iff.mpr (.inl rfl), fun a b c => hg.isSubtype_trans⟩
  · rw [hg.supertypes_of_mem hc]
    exact ⟨nodup_ancestors c.id, fun above => hg.mem_ancestors_iff, hg.nearer_ancestors c.id⟩
  · rw [hg.functional.mem_subtypes, iff_and_self]
    exact hg.exists_class_of_mem_supertypes

section Ring

/-- Two classes that extend each other, and an interface of either. -/
def ring : Graph :=
  ((((((((empty.addClass (.placeholder "a/A" .library)).addClass
    (.placeholder "a/B" .library)).addClass
    (.placeholder "a/I" .library)).addClass
    (.placeholder "a/J" .library)).addEdge
    ⟨.class_ "a/A", .class_ "a/B", .super⟩).addEdge
    ⟨.class_ "a/B", .class_ "a/A", .super⟩).addEdge
    ⟨.class_ "a/B", .class_ "a/J", .implements⟩).addEdge
    ⟨.class_ "a/A", .class_ "a/I", .implements⟩)

theorem edited_ring : ring.Edited := by
  unfold ring
  iterate 4 apply Edited.addEdge
  iterate 4 apply Edited.addClass
  exact .empty

/-- The edges lead round, and every class is still listed once, the farthest one last. -/
theorem hierarchy_isClosure_ring : ring.Coherent ∧ ring.OnCycle (.class_ "a/A") ∧
    ring.hierarchy.supertypes (.class_ "a/A") = [.class_ "a/I", .class_ "a/B", .class_ "a/J"] ∧
    ring.distance (.class_ "a/A") (.class_ "a/B") ≤ ring.distance (.class_ "a/A") (.class_ "a/J") ∧
    ring.hierarchy.isSubtype (.class_ "a/A") (.class_ "a/J") = true := by
  have hfacts : ring.hierarchy.supertypes (.class_ "a/A") =
        [.class_ "a/I", .class_ "a/B", .class_ "a/J"] ∧
      ClassNode.placeholder "a/A" .library ∈ ring.classes ∧
      .class_ "a/B" ∈ ring.parents (.class_ "a/A") ∧ .class_ "a/A" ∈ ring.parents (.class_ "a/B") ∧
      ring.hierarchy.isSubtype (.class_ "a/A") (.class_ "a/B") = true ∧
      ring.hierarchy.isSubtype (.class_ "a/B") (.class_ "a/J") = true := by
    decide +kernel
  obtain ⟨hsuper, hclass, hup, hback, hsub, hsub'⟩ := hfacts
  have hring := edited_ring.coherent
  obtain ⟨_, habove, _, _, htrans⟩ := hierarchy_isClosure hring
  have hnearest := (habove _ hclass).2.2
  rw [show (ClassNode.placeholder "a/A" .library).id = .class_ "a/A" from rfl, hsuper] at hnearest
  refine ⟨hring, .head hup (.single hback), hsuper, ?_, htrans _ _ _ hsub hsub'⟩
  simp only [List.pairwise_cons] at hnearest
  exact hnearest.2.1 _ (by simp)

end Ring

end Graph

end Winnow
