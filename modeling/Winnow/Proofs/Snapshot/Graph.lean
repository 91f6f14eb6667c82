import Winnow.Proofs.Graph.Ladder
import Winnow.Proofs.Program.Declared
import Winnow.Snapshot.Basic

/-!
# The graph of a snapshot

A snapshot gives back the graph it was taken of, with its edges in stored order.
Nodes come back as they were, apart from the members that a class lists: a class
lists every member that is there for it. Look-ups do not see that difference, but
some of them see the order of the edges.
-/
namespace Winnow

/-- The class without the list of its members. -/
def ClassNode.unlisted (c : ClassNode) : ClassNode := { c with members := ∅ }

def Node.unlisted : Node → Node
  | .class_ c => .class_ c.unlisted
  | .member m => .member m

@[simp] theorem Node.id_unlisted (n : Node) : n.unlisted.id = n.id := by cases n <;> rfl

theorem ClassNode.profile_of_unlisted_eq {c c' : ClassNode} (h : c'.unlisted = c.unlisted) :
    c.SameProfile c' := by
  simp only [unlisted, ClassNode.mk.injEq] at h
  obtain ⟨hname, hmodifiers, hsuperclass, hinterfaces, _, _, _, _, _, horigin⟩ := h
  exact ⟨hname, hmodifiers, hsuperclass, hinterfaces, horigin⟩

namespace Graph

variable {g g' : Graph} {id : NodeId} {name : String} {key : MemberKey}

/-- The same graph, apart from the order of its nodes and the members that classes list. -/
structure Alike (g g' : Graph) : Prop where
  nodes : ∀ id, (g'.node? id).map Node.unlisted = (g.node? id).map Node.unlisted
  edges : g'.edges = g.edges

namespace Alike

theorem node?_cases (h : Alike g g') (id : NodeId) :
    (∃ c c', g.node? id = some (.class_ c) ∧ g'.node? id = some (.class_ c') ∧
      c'.unlisted = c.unlisted) ∨
    (∃ m, g.node? id = some (.member m) ∧ g'.node? id = some (.member m)) ∨
    g.node? id = none ∧ g'.node? id = none := by
  have hn := h.nodes id
  cases hg : g.node? id with
  | none => cases hg' : g'.node? id <;> simp_all
  | some n =>
    cases hg' : g'.node? id with
    | none => simp [hg, hg'] at hn
    | some n' => cases n <;> cases n' <;> simp_all [Node.unlisted]

theorem contains_eq (h : Alike g g') (id : NodeId) : g'.contains id = g.contains id := by
  rw [Bool.eq_iff_iff, contains_iff_node?, contains_iff_node?]
  rcases h.node?_cases id with ⟨c, c', hc, hc', _⟩ | ⟨m, hm, hm'⟩ | ⟨hn, hn'⟩ <;> simp [*]

theorem member?_eq (h : Alike g g') (id : NodeId) : g'.member? id = g.member? id := by
  unfold Graph.member?
  rcases h.node?_cases id with ⟨c, c', hc, hc', _⟩ | ⟨m, hm, hm'⟩ | ⟨hn, hn'⟩ <;>
    simp [*, Node.member?]

theorem class?_cases (h : Alike g g') (name : String) :
    (∃ c c', g.class? name = some c ∧ g'.class? name = some c' ∧ c'.unlisted = c.unlisted) ∨
      g.class? name = none ∧ g'.class? name = none := by
  unfold Graph.class?
  rcases h.node?_cases (.class_ name) with ⟨c, c', hc, hc', hu⟩ | ⟨m, hm, hm'⟩ | ⟨hn, hn'⟩ <;>
    simp [*, Node.class?]

theorem sameAbove (h : Alike g g') : SameAbove (fun _ => True) g g' where
  closed _ _ _ _ := trivial
  superclass name _ := by
    unfold Graph.superclass?
    rcases h.class?_cases name with ⟨c, c', hc, hc', hu⟩ | ⟨hc, hc'⟩
    · simp [hc, hc', (ClassNode.profile_of_unlisted_eq hu).superclass]
    · simp [hc, hc']
  interfaces name _ := by
    unfold Graph.interfacesOf
    rcases h.class?_cases name with ⟨c, c', hc, hc', hu⟩ | ⟨hc, hc'⟩
    · simp [hc, hc', (ClassNode.profile_of_unlisted_eq hu).interfaces]
    · simp [hc, hc']

theorem declared_eq (h : Alike g g') (name : String) (kind : NodeKind) (key : MemberKey) :
    g'.declared name kind key = g.declared name kind key := by
  unfold Graph.declared
  rw [show g'.contains = g.contains from funext h.contains_eq]

theorem chainDecision_eq (h : Alike g g') (key : MemberKey) (name : String) :
    g'.chainDecision key name = g.chainDecision key name := by
  unfold Graph.chainDecision
  rw [h.declared_eq, show g'.member? = g.member? from funext h.member?_eq]
  rcases h.class?_cases name with ⟨c, c', hc, hc', hu⟩ | ⟨hc, hc'⟩
  · simp [hc, hc', (ClassNode.profile_of_unlisted_eq hu).isProgram]
  · simp [hc, hc']

theorem defaultMethod?_eq (h : Alike g g') (key : MemberKey) (id : NodeId) :
    g'.defaultMethod? key id = g.defaultMethod? key id := by
  unfold Graph.defaultMethod?
  rw [show g'.member? = g.member? from funext h.member?_eq]
  rcases h.node?_cases id with ⟨c, c', hc, hc', hu⟩ | ⟨m, hm, hm'⟩ | ⟨hn, hn'⟩
  · have hprofile := ClassNode.profile_of_unlisted_eq hu
    simp [hc, hc', Node.class?, hprofile.isProgram, hprofile.name, hprofile.modifiers, h.declared_eq]
  · simp [hm, hm', Node.class?]
  · simp [hn, hn']

theorem core_eq_none_iff (h : Alike g g') (id : NodeId) : g'.core id = none ↔ g.core id = none := by
  rw [Graph.core_eq_none_iff, Graph.core_eq_none_iff]
  rcases h.node?_cases id with ⟨c, c', hc, hc', hsame⟩ | ⟨m, hm, hm'⟩ | ⟨hn, hn'⟩
  · have horigin : c'.origin = c.origin := (ClassNode.profile_of_unlisted_eq hsame).origin
    simp [hc, hc', Marking.isUnresolved, horigin]
  · simp [hm, hm']
  · simp [hn, hn']

section WellFormed
variable (h : Alike g g') (hg : g.WellFormed) (hg' : g'.WellFormed)
include h hg hg'

theorem supertypes_eq (id : NodeId) :
    g'.hierarchy.supertypes id = g.hierarchy.supertypes id :=
  hg'.supertypes_congr hg (parents_congr (by rw [ladder, ladder, h.edges])) id

theorem isSubtype_eq (sub sup : NodeId) :
    g'.hierarchy.isSubtype sub sup = g.hierarchy.isSubtype sub sup := by
  rw [Hierarchy.isSubtype, Hierarchy.isSubtype, h.supertypes_eq hg hg']

theorem implementationOf_eq (id decl : NodeId) :
    g'.implementationOf g'.hierarchy id decl = g.implementationOf g.hierarchy id decl := by
  have hchain : ∀ key, g'.chainDecision key = g.chainDecision key := fun key =>
    funext (h.chainDecision_eq key)
  have hdefault : ∀ key, g'.defaultMethod? key = g.defaultMethod? key := fun key =>
    funext (h.defaultMethod?_eq key)
  unfold Graph.implementationOf Graph.implementation
  rw [h.member?_eq]
  simp only [hchain, hdefault, h.supertypes_eq hg hg', ← h.sameAbove.superclassChain trivial]

theorem perm_nodes : (g'.nodes.map Node.unlisted).Perm (g.nodes.map Node.unlisted) := by
  have hnodup : ∀ {k : Graph}, k.WellFormed → (k.nodes.map Node.unlisted).Nodup := fun hk => by
    refine List.Nodup.of_map Node.id ?_
    simpa [Function.comp_def] using hk.distinct
  have hmem : ∀ {k : Graph}, k.WellFormed → ∀ n, n ∈ k.nodes.map Node.unlisted ↔
      (k.node? n.id).map Node.unlisted = some n := fun hk n => by
    rw [List.mem_map, Option.map_eq_some_iff]
    refine exists_congr fun m => and_congr_left fun heq => ?_
    rw [hk.node?_eq_some_iff, ← heq, Node.id_unlisted]
    exact ⟨fun hm => ⟨hm, rfl⟩, fun hm => hm.1⟩
  refine (List.perm_ext_iff_of_nodup (hnodup hg') (hnodup hg)).mpr fun n => ?_
  rw [hmem hg', hmem hg, h.nodes]

end WellFormed

end Alike

/-! ## Edges in stored order -/

/-- The graph with its edges as a snapshot gives them back. -/
def stored (g : Graph) : Graph := { g with edges := (Snapshot.sortedEdges g).reverse }

theorem perm_edges_stored (g : Graph) : g.stored.edges.Perm g.edges :=
  (List.reverse_perm _).trans ((List.mergeSort_perm _ _).trans (List.reverse_perm _))

/-- Edges by source and target. -/
def compareEnds : Edge → Edge → Ordering :=
  compareLex (compareOn Edge.source) (compareOn Edge.target)

instance : Std.TransCmp compareEnds :=
  inferInstanceAs (Std.TransCmp (compareLex (compareOn Edge.source) (compareOn Edge.target)))

theorem pairwise_sortedEdges (g : Graph) :
    (Snapshot.sortedEdges g).Pairwise fun a b => (compareEnds a b).isLE = true := by
  refine List.pairwise_mergeSort (fun _ _ _ => Std.TransCmp.isLE_trans) (fun a b => ?_) _
  show ((compareEnds a b).isLE || (compareEnds b a).isLE) = true
  have hswap : compareEnds a b = (compareEnds b a).swap := Std.OrientedCmp.eq_swap
  rw [hswap]
  cases compareEnds b a <;> rfl

/-- Edges with different ends have one stored order. -/
theorem stored_eq_of_perm {l : List Edge} (hp : l.Perm g.edges)
    (hl : l.Pairwise fun a b => compareEnds b a = .lt) : g.stored = { g with edges := l } := by
  have hperm : (Snapshot.sortedEdges g).Perm l.reverse :=
    (List.mergeSort_perm _ _).trans
      ((List.reverse_perm _).trans (hp.symm.trans (List.reverse_perm _).symm))
  have hswap : ∀ a b, compareEnds a b = (compareEnds b a).swap := fun _ _ => Std.OrientedCmp.eq_swap
  have hends : ∀ ⦃a⦄, a ∈ l → ∀ ⦃b⦄, b ∈ l → compareEnds a b = .eq → a = b := by
    refine List.Pairwise.forall_of_forall_of_flip (fun _ _ _ => rfl) (hl.imp ?_) (hl.imp ?_)
    · intro a b hlt heq
      rw [hswap, heq] at hlt
      cases hlt
    · intro a b hlt heq
      cases hlt.symm.trans heq
  have hsorted : Snapshot.sortedEdges g = l.reverse := by
    refine hperm.eq_of_pairwise ?_ (pairwise_sortedEdges g)
      (List.pairwise_reverse.mpr (hl.imp fun hlt => by rw [hlt]; rfl))
    intro a b ha hb hab hba
    refine hends (List.mem_reverse.mp (hperm.mem_iff.mp ha)) (List.mem_reverse.mp hb) ?_
    rw [hswap b a] at hba
    cases h : compareEnds a b <;> simp [h] at hab hba ⊢
  rw [stored, hsorted, List.reverse_reverse]

theorem WellFormed.stored (hg : g.WellFormed) : g.stored.WellFormed where
  distinct := hg.distinct
  unique := (perm_edges_stored g).nodup_iff.mpr hg.unique
  ends e he := hg.ends e ((perm_edges_stored g).mem_iff.mp he)
  owned := hg.owned

/-! ## Rebuilding -/

theorem mem_members {m : MemberNode} : m ∈ g.members ↔ Node.member m ∈ g.nodes := by
  rw [members, List.mem_filterMap]
  constructor
  · rintro ⟨n, hn, hm⟩
    cases n with
    | class_ c => simp [Node.member?] at hm
    | member k =>
      obtain rfl : k = m := by simpa [Node.member?] using hm
      exact hn
  · intro hm
    exact ⟨.member m, hm, rfl⟩

theorem sublist_ids_members (g : Graph) :
    (g.members.map MemberNode.id).Sublist (g.nodes.map Node.id) := by
  rw [members]
  induction g.nodes with
  | nil => simp
  | cons n nodes ih =>
    cases n with
    | class_ c =>
      rw [List.filterMap_cons_none rfl]
      exact ih.cons _
    | member m => simpa [Node.member?, Node.id] using ih

theorem nodes_foldl_addClass {classes : List ClassNode}
    (hd : (g.nodes.map Node.id ++ classes.map ClassNode.id).Nodup) :
    (classes.foldl addClass g).nodes = g.nodes ++ classes.map Node.class_ := by
  induction classes generalizing g with
  | nil => simp
  | cons c classes ih =>
    have hc : g.contains c.id = false := by
      rw [Bool.eq_false_iff, ne_eq, contains_iff_mem]
      exact fun hm => (List.disjoint_of_nodup_append hd) hm List.mem_cons_self
    have hnodes : (g.addClass c).nodes = g.nodes ++ [.class_ c] := by
      show (if g.contains c.id then _ else _ : Graph).nodes = _
      rw [hc]
      rfl
    rw [List.foldl_cons, ih, hnodes]
    · simp
    · rw [hnodes]
      simpa [Node.id] using hd

theorem edges_foldl_addClass (classes : List ClassNode) :
    (classes.foldl addClass g).edges = g.edges := by
  induction classes generalizing g with
  | nil => rfl
  | cons c classes ih =>
    rw [List.foldl_cons, ih]
    exact edges_insert

theorem edges_foldl_addMember (members : List MemberNode) :
    (members.foldl addMember g).edges = g.edges := by
  induction members generalizing g with
  | nil => rfl
  | cons m members ih => rw [List.foldl_cons, ih, edges_addMember]

theorem WellFormed.foldl_addOwned {members : List MemberNode} (hg : g.WellFormed)
    (hm : ∀ m ∈ members, m.id.isClass = false ∧ g.contains (.class_ m.id.className) = true) :
    (members.foldl Graph.addMember g).WellFormed := by
  induction members generalizing g with
  | nil => exact hg
  | cons m members ih =>
    obtain ⟨hid, ho⟩ := hm m List.mem_cons_self
    refine ih (hg.addMember hid ho) fun k hk => ?_
    obtain ⟨hkid, hko⟩ := hm k (List.mem_cons_of_mem m hk)
    exact ⟨hkid, contains_addMember.mpr (.inr hko)⟩

theorem unlisted_foldl_addMember {members : List MemberNode}
    (hm : ∀ m ∈ members, m.id.isClass = false) (hid : id.isClass = true) :
    ((members.foldl addMember g).node? id).map Node.unlisted = (g.node? id).map Node.unlisted := by
  induction members generalizing g with
  | nil => rfl
  | cons m members ih =>
    have hne : id ≠ m.id := by
      rintro rfl
      simp [hm m List.mem_cons_self] at hid
    rw [List.foldl_cons, ih fun k hk => hm k (List.mem_cons_of_mem m hk), node?_addMember,
      if_neg hne]
    split
    next =>
      cases g.node? id with
      | none => rfl
      | some n => cases n <;> rfl
    next => rfl

/-- Members enter the list of the class that owns them, and no other. -/
theorem listed_foldl_addMember {members : List MemberNode}
    (hm : ∀ m ∈ members, m.id.isClass = false) {c : ClassNode} (hc : g.class? name = some c) :
    ∃ c', (members.foldl addMember g).class? name = some c' ∧ c'.unlisted = c.unlisted ∧
      ∀ id, id ∈ c'.members ↔
        id ∈ c.members ∨ id ∈ members.map MemberNode.id ∧ id.className = name := by
  induction members generalizing g c with
  | nil => exact ⟨c, hc, rfl, fun id => by simp⟩
  | cons m members ih =>
    have hmid := hm m List.mem_cons_self
    have hne : NodeId.class_ name ≠ m.id := by
      intro heq
      rw [← heq] at hmid
      cases hmid
    have hadd : (g.addMember m).class? name =
        some (if m.id.className = name then c.listing m else c) := by
      rw [class?, node?_addMember, if_neg hne, (class?_eq_some hc).1]
      by_cases hname : m.id.className = name
      · simp [hname, Node.mapClass, Node.class?]
      · simp [hname, Ne.symm hname, Node.class?]
    obtain ⟨c', hc', hsame, hiff⟩ := ih (fun k hk => hm k (List.mem_cons_of_mem m hk)) hadd
    refine ⟨c', hc', hsame.trans (by split <;> rfl), fun id => ?_⟩
    rw [hiff, List.map_cons, List.mem_cons]
    by_cases hname : m.id.className = name
    · rw [if_pos hname, ClassNode.listing, SortedSet.mem_insert]
      grind
    · rw [if_neg hname]
      grind

theorem edges_addEdges_of_nodup {edges : List Edge} (hd : (edges ++ g.edges).Nodup)
    (he : ∀ e ∈ edges, g.contains e.source = true ∧ g.contains e.target = true) :
    (g.addEdges edges).edges = edges.reverse ++ g.edges := by
  induction edges generalizing g with
  | nil => rfl
  | cons e edges ih =>
    obtain ⟨hs, ht⟩ := he e List.mem_cons_self
    have hnew : e ∉ g.edges := fun hm =>
      (List.disjoint_of_nodup_append hd) List.mem_cons_self hm
    have hedges : (g.addEdge e).edges = e :: g.edges := by
      simp [addEdge, accepts, hasEdge, hs, ht, hnew]
    rw [addEdges, List.foldl_cons, ← addEdges, ih, hedges]
    · simp
    · rw [hedges]
      exact (List.perm_middle.nodup_iff).mpr hd
    · intro x hx
      simpa using he x (List.mem_cons_of_mem e hx)

end Graph

namespace Snapshot

open Graph

variable {g : Graph} {s : Snapshot}

theorem foldlM_addMember {members : List MemberNode}
    (hm : ∀ m ∈ members, g.contains (.class_ m.id.className) = true) :
    members.foldlM addMember g = .ok (members.foldl Graph.addMember g) := by
  induction members generalizing g with
  | nil => rfl
  | cons m members ih =>
    have hadd : addMember g m = .ok (g.addMember m) := if_pos (hm m List.mem_cons_self)
    rw [List.foldlM_cons, hadd]
    exact ih fun k hk => contains_addMember.mpr (.inr (hm k (List.mem_cons_of_mem m hk)))

theorem foldlM_addEdge {edges : List Edge}
    (he : ∀ e ∈ edges, g.contains e.source = true ∧ g.contains e.target = true) :
    edges.foldlM addEdge g = .ok (g.addEdges edges) := by
  induction edges generalizing g with
  | nil => rfl
  | cons e edges ih =>
    obtain ⟨hs, ht⟩ := he e List.mem_cons_self
    have hadd : addEdge g e = .ok (g.addEdge e) := if_pos (by simp [hs, ht])
    rw [List.foldlM_cons, hadd]
    exact ih fun x hx => by simpa using he x (List.mem_cons_of_mem e hx)

/-- The snapshot describes the graph. -/
structure Of (g : Graph) (s : Snapshot) : Prop where
  classes : s.classes.Perm g.classes
  members : s.members.Perm g.members
  edges : s.edges = sortedEdges g

/-- The graph of the classes and members of a snapshot, without its edges. -/
def bare (s : Snapshot) : Graph :=
  s.members.foldl Graph.addMember (s.classes.foldl Graph.addClass Graph.empty)

/-- What a snapshot holds, put together: its nodes, its edges and its counts. -/
def rebuilt (s : Snapshot) : Graph :=
  { s.bare.addEdges s.edges with classWarnings := s.warnings }.setMissing s.missingRefs

namespace Of

variable (hs : Of g s) (hg : g.WellFormed)
include hs hg

theorem nodes_classes :
    (s.classes.foldl Graph.addClass Graph.empty).nodes = s.classes.map Node.class_ := by
  refine nodes_foldl_addClass ?_
  exact (hs.classes.map _).nodup_iff.mpr ((sublist_ids_classes g).nodup hg.distinct)

theorem wellFormed_classes : (s.classes.foldl Graph.addClass Graph.empty).WellFormed where
  distinct := by
    rw [hs.nodes_classes hg, List.map_map]
    exact (hs.classes.map _).nodup_iff.mpr ((sublist_ids_classes g).nodup hg.distinct)
  unique := by rw [edges_foldl_addClass]; exact List.nodup_nil
  ends e he := by rw [edges_foldl_addClass] at he; cases he
  owned m hm := by
    rw [hs.nodes_classes hg] at hm
    simp at hm

theorem node?_class (name : String) :
    (s.classes.foldl Graph.addClass Graph.empty).node? (.class_ name) = g.node? (.class_ name) := by
  ext n
  rw [(hs.wellFormed_classes hg).node?_eq_some_iff, hs.nodes_classes hg, hg.node?_eq_some_iff]
  refine and_congr_left fun hid => ?_
  cases n with
  | class_ c => simp [hs.classes.mem_iff, mem_classes]
  | member m =>
    -- A member is not called like a class.
    refine iff_of_false (by simp) fun hm => ?_
    have := (hg.owned m hm).1
    rw [show m.id = .class_ name from hid] at this
    cases this

theorem owned {m : MemberNode} (hm : m ∈ s.members) : m.id.isClass = false ∧
    (s.classes.foldl Graph.addClass Graph.empty).contains (.class_ m.id.className) = true := by
  have hmem : Node.member m ∈ g.nodes := mem_members.mp (hs.members.mem_iff.mp hm)
  obtain ⟨hid, ho⟩ := hg.owned m hmem
  refine ⟨hid, ?_⟩
  rw [contains_iff_node?, hs.node?_class hg, ← contains_iff_node?]
  exact ho

theorem wellFormed_bare : s.bare.WellFormed :=
  (hs.wellFormed_classes hg).foldl_addOwned fun _ hm => hs.owned hg hm

theorem node?_bare (id : NodeId) :
    (s.bare.node? id).map Node.unlisted = (g.node? id).map Node.unlisted := by
  have hclass : ∀ m ∈ s.members, m.id.isClass = false := fun m hm => (hs.owned hg hm).1
  cases hid : id.isClass with
  | true =>
    obtain ⟨name, rfl⟩ : ∃ name, id = .class_ name := by
      cases id with
      | class_ name => exact ⟨name, rfl⟩
      | method => cases hid
      | field => cases hid
    rw [bare, unlisted_foldl_addMember hclass hid, hs.node?_class hg]
  | false =>
    by_cases hmem : id ∈ s.members.map MemberNode.id
    · obtain ⟨m, hm, rfl⟩ := List.mem_map.mp hmem
      have hd : (s.members.map MemberNode.id).Nodup :=
        (hs.members.map _).nodup_iff.mpr ((sublist_ids_members g).nodup hg.distinct)
      rw [bare, node?_foldl_addMember_of_mem hclass hd hm,
        ← hg.node?_of_mem (mem_members.mp (hs.members.mem_iff.mp hm))]
      rfl
    · have hnone : g.node? id = none := by
        rw [Option.eq_none_iff_forall_not_mem]
        intro n hn
        have hmn := mem_of_node? hn
        cases n with
        | class_ c => simp [← id_of_node? hn, Node.id, ClassNode.id, NodeId.isClass] at hid
        | member m =>
          refine hmem (List.mem_map.mpr ⟨m, hs.members.mem_iff.mpr (mem_members.mpr hmn), ?_⟩)
          exact id_of_node? hn
      rw [bare, node?_foldl_addMember_of_not_mem hid hmem, hnone]
      rw [Option.map_none, Option.map_eq_none_iff, Option.eq_none_iff_forall_not_mem]
      intro n hn
      have hmn := mem_of_node? hn
      rw [hs.nodes_classes hg] at hmn
      obtain ⟨c, -, rfl⟩ := List.mem_map.mp hmn
      simp [← id_of_node? hn, Node.id, ClassNode.id, NodeId.isClass] at hid

theorem contains_bare (id : NodeId) : s.bare.contains id = g.contains id := by
  have h := congrArg Option.isSome (hs.node?_bare hg id)
  rw [Option.isSome_map, Option.isSome_map] at h
  rw [Bool.eq_iff_iff, contains_iff_node?, contains_iff_node?, ← Option.isSome_iff_exists,
    ← Option.isSome_iff_exists, h]

omit hg in
theorem perm_edges : s.edges.Perm g.edges := by
  rw [hs.edges]
  exact (List.mergeSort_perm _ _).trans (List.reverse_perm _)

theorem ends_bare {e : Edge} (he : e ∈ s.edges) :
    s.bare.contains e.source = true ∧ s.bare.contains e.target = true := by
  rw [hs.contains_bare hg, hs.contains_bare hg]
  exact hg.ends e (hs.perm_edges.mem_iff.mp he)

/-- A snapshot that describes a graph can be put together again. -/
theorem graph_eq : s.graph = .ok s.rebuilt := by
  have hmembers : s.members.foldlM addMember (s.classes.foldl Graph.addClass Graph.empty) =
      .ok s.bare := foldlM_addMember fun m hm => (hs.owned hg hm).2
  simp only [graph, hmembers, foldlM_addEdge fun e he => hs.ends_bare hg he, bind, Except.bind]
  rfl

theorem alike_rebuilt : g.stored.Alike s.rebuilt where
  nodes id := by
    show ((s.bare.addEdges s.edges).node? id).map _ = (g.node? id).map _
    rw [node?_addEdges, hs.node?_bare hg]
  edges := by
    have hnil : s.bare.edges = [] := by
      rw [bare, edges_foldl_addMember, edges_foldl_addClass]
      rfl
    show (s.bare.addEdges s.edges).edges = (sortedEdges g).reverse
    rw [edges_addEdges_of_nodup _ fun e he => hs.ends_bare hg he, hnil, List.append_nil, hs.edges]
    rw [hnil, List.append_nil]
    exact hs.perm_edges.nodup_iff.mpr hg.unique

theorem wellFormed_rebuilt : s.rebuilt.WellFormed :=
  have hwf : (s.bare.addEdges s.edges).WellFormed := (hs.wellFormed_bare hg).addEdges
  ⟨hwf.distinct, hwf.unique, hwf.ends, hwf.owned⟩

/-- A class lists what it listed before, and every member that it owns. -/
theorem listed_rebuilt {name : String} {c' : ClassNode} (hc' : s.rebuilt.class? name = some c') :
    ∃ c, g.class? name = some c ∧ c'.unlisted = c.unlisted ∧ ∀ id, id ∈ c'.members ↔
      id ∈ c.members ∨ g.contains id = true ∧ id.isClass = false ∧ id.className = name := by
  have hclass : ∀ m ∈ s.members, m.id.isClass = false := fun m hm => (hs.owned hg hm).1
  obtain ⟨c, hc⟩ : ∃ c, g.class? name = some c := by
    rcases (hs.alike_rebuilt hg).class?_cases name with ⟨c, _, hc, _⟩ | ⟨_, hnone⟩
    · exact ⟨c, hc⟩
    · rw [hnone] at hc'
      cases hc'
  have hc₀ : (s.classes.foldl Graph.addClass Graph.empty).class? name = some c := by
    rw [class?, hs.node?_class hg]
    exact hc
  obtain ⟨k, hk, hsame, hiff⟩ := listed_foldl_addMember hclass hc₀
  have hnode : s.rebuilt.class? name = s.bare.class? name := by
    show ((s.bare.addEdges s.edges).node? _).bind _ = _
    rw [node?_addEdges]
    rfl
  obtain rfl : c' = k := Option.some.inj (hc'.symm.trans (hnode.trans hk))
  refine ⟨c, hc, hsame, fun id => ?_⟩
  have hids : id ∈ s.members.map MemberNode.id ↔ g.contains id = true ∧ id.isClass = false := by
    rw [(hs.members.map _).mem_iff, List.mem_map]
    constructor
    · rintro ⟨m, hm, rfl⟩
      have hmem := mem_members.mp hm
      exact ⟨contains_of_mem hmem, (hg.owned m hmem).1⟩
    · rintro ⟨hin, hid⟩
      obtain ⟨m, hm⟩ := member?_of_contains hid hin
      obtain ⟨hnode, rfl⟩ := member?_eq_some hm
      exact ⟨m, mem_members.mpr (mem_of_node? hnode), rfl⟩
  rw [hiff, hids, and_assoc]

/-- A snapshot that describes a graph gives it back, in stored order. -/
theorem exists_graph : ∃ g', s.graph = .ok g' ∧ g.stored.Alike g' ∧ g'.WellFormed :=
  ⟨s.rebuilt, hs.graph_eq hg, hs.alike_rebuilt hg, hs.wellFormed_rebuilt hg⟩

end Of

end Snapshot

end Winnow
