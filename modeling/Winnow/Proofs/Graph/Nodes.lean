import Mathlib.Tactic.Tauto
import Winnow.Graph.Hierarchy
import Winnow.Proofs.Search
import Winnow.Proofs.Sorted

/-!
# Well-formed graphs

One node per identity, no edge twice, edges between nodes that are there, and no
member without its owner. In such a graph a node is found by its identity, and the
hierarchy gives every class one row.
-/
namespace Winnow

namespace Graph

/-- One node per identity, and edges between nodes that are there. -/
structure Coherent (g : Graph) : Prop where
  distinct : (g.nodes.map Node.id).Nodup
  ends : ∀ e ∈ g.edges, g.contains e.source = true ∧ g.contains e.target = true

structure WellFormed (g : Graph) : Prop where
  distinct : (g.nodes.map Node.id).Nodup
  unique : g.edges.Nodup
  ends : ∀ e ∈ g.edges, g.contains e.source = true ∧ g.contains e.target = true
  owned : ∀ m, Node.member m ∈ g.nodes →
    m.id.isClass = false ∧ g.contains (.class_ m.id.className) = true

variable {g : Graph} {id : NodeId} {n : Node}

theorem WellFormed.coherent (hg : g.WellFormed) : g.Coherent := ⟨hg.distinct, hg.ends⟩

theorem mem_of_node? (h : g.node? id = some n) : n ∈ g.nodes := List.mem_of_find?_eq_some h

theorem id_of_node? (h : g.node? id = some n) : n.id = id := by
  simpa using List.find?_some h

theorem contains_iff_node? : g.contains id = true ↔ ∃ n, g.node? id = some n := by
  rw [contains, node?, ← Option.isSome_iff_exists, List.find?_isSome, List.any_eq_true]

theorem contains_iff_mem : g.contains id = true ↔ id ∈ g.nodes.map Node.id := by
  simp [contains]

theorem contains_of_mem (h : n ∈ g.nodes) : g.contains n.id = true :=
  contains_iff_mem.mpr (List.mem_map_of_mem h)

theorem node?_eq_none_iff : g.node? id = none ↔ g.contains id = false := by
  rw [← Bool.not_eq_true, contains_iff_node?]
  cases g.node? id <;> simp

theorem find?_id_of_nodup {l : List Node} (hd : (l.map Node.id).Nodup) (hn : n ∈ l) :
    l.find? (·.id = n.id) = some n := by
  induction l with
  | nil => cases hn
  | cons x l ih =>
    rw [List.map_cons, List.nodup_cons] at hd
    rcases List.mem_cons.mp hn with rfl | hn
    · simp
    · have hx : x.id ≠ n.id := fun e => hd.1 (e ▸ List.mem_map_of_mem hn)
      rw [List.find?_cons_of_neg (by simpa using hx)]
      exact ih hd.2 hn

theorem WellFormed.node?_of_mem (hg : g.WellFormed) (hn : n ∈ g.nodes) :
    g.node? n.id = some n := find?_id_of_nodup hg.distinct hn

theorem WellFormed.node?_eq_some_iff (hg : g.WellFormed) :
    g.node? id = some n ↔ n ∈ g.nodes ∧ n.id = id := by
  constructor
  · intro h
    exact ⟨mem_of_node? h, id_of_node? h⟩
  · rintro ⟨hn, rfl⟩
    exact hg.node?_of_mem hn

theorem class?_eq_some {name : String} {c : ClassNode} (h : g.class? name = some c) :
    g.node? (.class_ name) = some (.class_ c) ∧ c.name = name := by
  obtain ⟨n, hn, hc⟩ := Option.bind_eq_some_iff.mp h
  cases n with
  | class_ d =>
    obtain rfl : d = c := by simpa [Node.class?] using hc
    exact ⟨hn, by simpa [Node.id, ClassNode.id] using id_of_node? hn⟩
  | member m => simp [Node.class?] at hc

theorem member?_eq_some {m : MemberNode} (h : g.member? id = some m) :
    g.node? id = some (.member m) ∧ m.id = id := by
  obtain ⟨n, hn, hm⟩ := Option.bind_eq_some_iff.mp h
  cases n with
  | class_ c => simp [Node.member?] at hm
  | member m' =>
    obtain rfl : m' = m := by simpa [Node.member?] using hm
    exact ⟨hn, by simpa [Node.id] using id_of_node? hn⟩

theorem member?_of_node? {m : MemberNode} (h : g.node? id = some (.member m)) :
    g.member? id = some m := by
  simp [member?, h, Node.member?]

theorem class?_of_node? {name : String} {c : ClassNode}
    (h : g.node? (.class_ name) = some (.class_ c)) : g.class? name = some c := by
  simp [class?, h, Node.class?]

/-- A node under the identity of a class is a class. -/
theorem WellFormed.class?_of_contains (hg : g.WellFormed) {name : String}
    (h : g.contains (.class_ name) = true) : ∃ c, g.class? name = some c := by
  obtain ⟨n, hn⟩ := contains_iff_node?.mp h
  cases n with
  | class_ c => exact ⟨c, class?_of_node? hn⟩
  | member m =>
    have hid : m.id = .class_ name := id_of_node? hn
    have := (hg.owned m (mem_of_node? hn)).1
    simp [hid, NodeId.isClass] at this

theorem mem_classes {c : ClassNode} : c ∈ g.classes ↔ Node.class_ c ∈ g.nodes := by
  simp only [classes, List.mem_filterMap]
  constructor
  · rintro ⟨n, hn, hc⟩
    cases n with
    | class_ d =>
      obtain rfl : d = c := by simpa [Node.class?] using hc
      exact hn
    | member m => simp [Node.class?] at hc
  · intro hc
    exact ⟨.class_ c, hc, rfl⟩

theorem mem_outgoing {e : Edge} : e ∈ g.outgoing id ↔ e ∈ g.edges ∧ e.source = id := by
  simp [outgoing]

theorem mem_incoming {e : Edge} : e ∈ g.incoming id ↔ e ∈ g.edges ∧ e.target = id := by
  simp [incoming]

theorem contains_of_declared {name : String} {kind : NodeKind} {key : MemberKey}
    (h : g.declared name kind key = some id) : g.contains id = true := by
  simp only [declared, Option.filter_eq_some_iff] at h
  exact h.2

theorem contains_of_chainDecision {key : MemberKey} {name : String}
    (h : g.chainDecision key name = some (some id)) : g.contains id = true := by
  simp only [chainDecision, Option.bind_eq_bind, Option.bind_eq_some_iff] at h
  obtain ⟨c, _, id', hid, m, _, h⟩ := h
  split at h
  · cases h
  · split at h
    · cases h
    · obtain rfl : id' = id := by simpa using h
      exact contains_of_declared hid

theorem contains_of_defaultMethod? {key : MemberKey} {above : NodeId}
    (h : g.defaultMethod? key above = some id) : g.contains id = true := by
  simp only [defaultMethod?, Option.bind_eq_bind, Option.bind_eq_some_iff] at h
  obtain ⟨n, _, c, _, h⟩ := h
  split at h
  · cases h
  · obtain ⟨id', hid, h⟩ := Option.bind_eq_some_iff.mp h
    obtain ⟨m, _, h⟩ := Option.bind_eq_some_iff.mp h
    split at h
    · cases h
    · obtain rfl : id' = id := by simpa using h
      exact contains_of_declared hid

/-- What a receiver runs is always a node. -/
theorem contains_of_implementation {h : Hierarchy} {class_ : NodeId} {key : MemberKey}
    (hi : g.implementation h class_ key = some id) : g.contains id = true := by
  simp only [implementation] at hi
  split at hi
  next decision hd =>
    subst hi
    obtain ⟨name, _, hname⟩ := List.exists_of_findSome?_eq_some hd
    exact contains_of_chainDecision hname
  next =>
    obtain ⟨above, _, habove⟩ := List.exists_of_findSome?_eq_some hi
    exact contains_of_defaultMethod? habove

end Graph

namespace Hierarchy

/-- Every class has one row. -/
def Functional (h : Hierarchy) : Prop := (h.rows.map (·.1)).Nodup

theorem Functional.mem_subtypes {h : Hierarchy} (hf : h.Functional) {sub sup : NodeId} :
    sub ∈ h.subtypes sup ↔ sup ∈ h.supertypes sub := by
  simp only [subtypes, supertypes, List.mem_map, List.mem_filter, decide_eq_true_eq]
  constructor
  · rintro ⟨⟨id, above⟩, ⟨hrow, hsup⟩, rfl⟩
    rw [(lookup_eq_some_iff_mem hf).mpr hrow]
    exact hsup
  · intro hs
    cases hl : h.rows.lookup sub with
    | none => simp [hl] at hs
    | some above =>
      rw [hl] at hs
      exact ⟨(sub, above), ⟨(lookup_eq_some_iff_mem hf).mp hl, hs⟩, rfl⟩

theorem isSubtype_iff {h : Hierarchy} {sub sup : NodeId} :
    h.isSubtype sub sup = true ↔ sub = sup ∨ sup ∈ h.supertypes sub := by
  simp [isSubtype]

end Hierarchy

namespace Graph

theorem rows_hierarchy (g : Graph) :
    g.hierarchy.rows.map (·.1) = g.classes.map ClassNode.id := by
  simp [hierarchy]

theorem sublist_ids_classes (g : Graph) :
    (g.classes.map ClassNode.id).Sublist (g.nodes.map Node.id) := by
  rw [classes]
  induction g.nodes with
  | nil => simp
  | cons n nodes ih =>
    cases n with
    | class_ c => simpa [Node.class?, Node.id] using ih
    | member m =>
      rw [List.filterMap_cons_none rfl]
      exact ih.cons _

theorem WellFormed.nodup_classNames {g : Graph} (hg : g.WellFormed) : (g.classes.map (·.name)).Nodup := by
  have hids := (sublist_ids_classes g).nodup hg.distinct
  rw [List.Nodup, List.pairwise_map] at hids ⊢
  exact hids.imp fun hne heq => hne (congrArg NodeId.class_ heq)

theorem Coherent.functional {g : Graph} (hg : g.Coherent) : g.hierarchy.Functional := by
  rw [Hierarchy.Functional, rows_hierarchy]
  exact hg.distinct.sublist g.sublist_ids_classes

theorem WellFormed.functional {g : Graph} (hg : g.WellFormed) : g.hierarchy.Functional :=
  hg.coherent.functional

/-- The supertypes of a class are what can be found above it, and nothing else has any. -/
theorem Coherent.supertypes_eq {g : Graph} (hg : g.Coherent) (id : NodeId) :
    g.hierarchy.supertypes id =
      if (∃ c ∈ g.classes, c.id = id) then g.ancestors id else [] := by
  split
  next h =>
    obtain ⟨c, hc, rfl⟩ := h
    have hrow : (c.id, g.ancestors c.id) ∈ g.hierarchy.rows :=
      List.mem_map.mpr ⟨c, hc, rfl⟩
    rw [Hierarchy.supertypes, (lookup_eq_some_iff_mem hg.functional).mpr hrow]
    rfl
  next h =>
    cases hl : g.hierarchy.rows.lookup id with
    | none => simp [Hierarchy.supertypes, hl]
    | some above =>
      obtain ⟨c, hc, he⟩ := List.mem_map.mp (mem_of_lookup_eq_some hl)
      exact (h ⟨c, hc, (Prod.mk.inj he).1⟩).elim

theorem WellFormed.supertypes_eq {g : Graph} (hg : g.WellFormed) (id : NodeId) :
    g.hierarchy.supertypes id =
      if (∃ c ∈ g.classes, c.id = id) then g.ancestors id else [] :=
  hg.coherent.supertypes_eq id

theorem WellFormed.supertypes_eq_of_boundedSearch? {g : Graph} (hg : g.WellFormed) {id : NodeId}
    {n : Nat} {visited : List NodeId} (hc : ∃ c ∈ g.classes, c.id = id)
    (h : boundedSearch? g.parents n (g.nodes.map Node.id) [id] = some visited) :
    g.hierarchy.supertypes id = visited.filter (· ≠ id) := by
  rw [hg.supertypes_eq, if_pos hc, ancestors, breadthFirst_eq_of_boundedSearch? h]

end Graph

end Winnow
