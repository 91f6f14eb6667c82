import Winnow.Proofs.Program.Regular

/-!
# Units that declare the same

Two versions of a unit declare the same if their nodes differ in signatures at
most. With one in the place of the other a program has the same classes, members
and hierarchy, and the same edges from declarations and overriding methods, those
to the types of annotations apart: a node does not tell which of its annotations
are visible.
-/
namespace Winnow

/-- The nodes of the two units differ in signatures at most. -/
structure CompiledUnit.SameDeclarations (u v : CompiledUnit) : Prop where
  class_ : ∀ origin, (v.node origin).bare = (u.node origin).bare
  members : ∀ n ∈ u.memberNodes, ∃ k ∈ v.memberNodes, k.bare = n.bare
  back : ∀ k ∈ v.memberNodes, ∃ n ∈ u.memberNodes, n.bare = k.bare

/-- The type of a visible annotation on a class or member. -/
def CompiledUnit.ShowsOn (u : CompiledUnit) (id : NodeId) (type : String) : Prop :=
  (id = u.id ∧ ∃ a ∈ u.annotations, a.visible = true ∧ a.type = type) ∨
    (∃ m ∈ u.methods, id = m.id u.name ∧ ∃ a ∈ m.annotations, a.visible = true ∧ a.type = type) ∨
    ∃ f ∈ u.fields, id = f.id u.name ∧ ∃ a ∈ f.annotations, a.visible = true ∧ a.type = type

theorem AnnotationUse.mem_links {source : NodeId} {annotations : List AnnotationUse} {l : Link} :
    l ∈ annotations.flatMap (AnnotationUse.links source) ↔
      (∃ a ∈ annotations, a.visible = true ∧ l = .mention source .annotatedBy a.type) ∨
        ∃ name ∈ AnnotationUse.allReferences annotations, l = .mention source .typeRef name := by
  simp only [List.mem_flatMap, AnnotationUse.links, List.mem_append, AnnotationUse.allReferences,
    SortedSet.mem_ofList, List.mem_map]
  constructor
  · rintro ⟨a, ha, hl | ⟨name, hn, rfl⟩⟩
    · split at hl
      next hv => exact .inl ⟨a, ha, hv, List.mem_singleton.mp hl⟩
      next => cases hl
    · exact .inr ⟨name, ⟨a, ha, hn⟩, rfl⟩
  · rintro (⟨a, ha, hv, rfl⟩ | ⟨name, ⟨a, ha, hn⟩, rfl⟩)
    · exact ⟨a, ha, .inl (by simp [hv])⟩
    · exact ⟨a, ha, .inr ⟨name, hn, rfl⟩⟩

theorem Descriptor.kinds_links {source : NodeId} {descriptor : String} {l : Link}
    (hl : l ∈ Descriptor.links source descriptor) : l.Kinds (· ≠ .annotatedBy) := by
  unfold Descriptor.links at hl
  split at hl
  next =>
    obtain ⟨_, _, rfl⟩ := List.mem_map.mp hl
    exact nofun
  next => cases hl

namespace CompiledUnit

namespace SameDeclarations

variable {u v : CompiledUnit} (h : u.SameDeclarations v)
include h

omit h in
theorem refl (u : CompiledUnit) : u.SameDeclarations u :=
  ⟨fun _ => rfl, fun n hn => ⟨n, hn, rfl⟩, fun n hn => ⟨n, hn, rfl⟩⟩

theorem symm : v.SameDeclarations u := ⟨fun origin => (h.class_ origin).symm, h.back, h.members⟩

/-- The data of the class itself. -/
theorem class_eq : v.name = u.name ∧ v.modifiers = u.modifiers ∧ v.superclass = u.superclass ∧
    v.interfaces = u.interfaces ∧
    AnnotationUse.allReferences v.annotations = AnnotationUse.allReferences u.annotations ∧
    v.innerClasses = u.innerClasses := by
  have hclass := h.class_ .library
  simp only [CompiledUnit.node, ClassNode.bare, ClassNode.mk.injEq] at hclass
  obtain ⟨hname, hmodifiers, hsuper, hinterfaces, _, hrefs, _, hinner, _⟩ := hclass
  exact ⟨hname, hmodifiers, hsuper, hinterfaces, hrefs, hinner⟩

theorem name_eq : v.name = u.name := h.class_eq.1

theorem id_eq : v.id = u.id := congrArg NodeId.class_ h.name_eq

theorem hierarchyLinks_eq : v.hierarchyLinks = u.hierarchyLinks := by
  obtain ⟨_, _, hsuper, hinterfaces, _⟩ := h.class_eq
  rw [hierarchyLinks, hierarchyLinks, hsuper, hinterfaces, h.id_eq]

theorem mem_ids {id : NodeId} (hid : id ∈ u.memberNodes.map MemberNode.id) :
    id ∈ v.memberNodes.map MemberNode.id := by
  obtain ⟨n, hn, rfl⟩ := List.mem_map.mp hid
  obtain ⟨k, hk, hbare⟩ := h.members n hn
  exact List.mem_map.mpr ⟨k, hk, (Graph.MemberNode.of_bare_eq hbare).1⟩

theorem mem_nodeIds {id : NodeId} (hid : id ∈ u.nodeIds) : id ∈ v.nodeIds := by
  rw [mem_nodeIds_iff] at hid ⊢
  rw [h.id_eq]
  exact hid.imp_right h.mem_ids

theorem bare_fullNode (origin : Origin) : (v.fullNode origin).bare = (u.fullNode origin).bare := by
  have hmembers : SortedSet.ofList (v.memberNodes.map MemberNode.id) =
      .ofList (u.memberNodes.map MemberNode.id) := by
    refine SortedSet.ext_mem fun id => ?_
    rw [SortedSet.mem_ofList, SortedSet.mem_ofList]
    exact ⟨h.symm.mem_ids, h.mem_ids⟩
  rw [fullNode, fullNode, hmembers]
  exact congrArg (fun c : ClassNode =>
    { c with members := SortedSet.ofList (u.memberNodes.map MemberNode.id) }) (h.class_ origin)

/-- A method has a counterpart that differs from it in its signature, its body and the spelling of its
annotations at most. -/
theorem method {m : Method} (hm : m ∈ u.methods) :
    ∃ k ∈ v.methods, (k.node v.name).bare = (m.node u.name).bare := by
  obtain ⟨n, hn, hbare⟩ := h.members (m.node u.name)
    (List.mem_append_left _ (List.mem_map_of_mem hm))
  rcases List.mem_append.mp hn with hn | hn
  · obtain ⟨k, hk, rfl⟩ := List.mem_map.mp hn
    exact ⟨k, hk, hbare⟩
  · obtain ⟨f, _, rfl⟩ := List.mem_map.mp hn
    cases (Graph.MemberNode.of_bare_eq hbare).1

theorem field {f : Field} (hf : f ∈ u.fields) :
    ∃ k ∈ v.fields, (k.node v.name).bare = (f.node u.name).bare := by
  obtain ⟨n, hn, hbare⟩ := h.members (f.node u.name)
    (List.mem_append_right _ (List.mem_map_of_mem hf))
  rcases List.mem_append.mp hn with hn | hn
  · obtain ⟨m, _, rfl⟩ := List.mem_map.mp hn
    cases (Graph.MemberNode.of_bare_eq hbare).1
  · obtain ⟨k, hk, rfl⟩ := List.mem_map.mp hn
    exact ⟨k, hk, hbare⟩

end SameDeclarations

end CompiledUnit

/-- The data of a method that its node tells. -/
theorem Method.of_node_bare_eq {u v : String} {m k : Method}
    (h : (k.node v).bare = (m.node u).bare) : k.id v = m.id u ∧ k.key = m.key ∧
      k.modifiers = m.modifiers ∧ k.exceptions = m.exceptions ∧
      AnnotationUse.allReferences k.annotations = AnnotationUse.allReferences m.annotations ∧
      ∀ name, name ∈ k.annotationDefault ↔ name ∈ m.annotationDefault := by
  simp only [Method.node, MemberNode.bare, MemberNode.mk.injEq] at h
  obtain ⟨hid, hmodifiers, _, hrefs, hexceptions, hdefault, _⟩ := h
  refine ⟨hid, ?_, hmodifiers, hexceptions, hrefs, fun name => ?_⟩
  · simp only [Method.id, NodeId.method.injEq, MemberRef.mk.injEq] at hid
    rw [Method.key, Method.key, hid.2.1, hid.2.2]
  · rw [← SortedSet.mem_ofList, hdefault, SortedSet.mem_ofList]

theorem Field.of_node_bare_eq {u v : String} {f k : Field}
    (h : (k.node v).bare = (f.node u).bare) : k.id v = f.id u ∧ k.descriptor = f.descriptor ∧
      AnnotationUse.allReferences k.annotations = AnnotationUse.allReferences f.annotations := by
  simp only [Field.node, MemberNode.bare, MemberNode.mk.injEq] at h
  obtain ⟨hid, _, _, hrefs, _⟩ := h
  refine ⟨hid, ?_, hrefs⟩
  simp only [Field.id, NodeId.field.injEq, MemberRef.mk.injEq] at hid
  exact hid.2.2

namespace CompiledUnit

variable {u v : CompiledUnit} {l : Link}

theorem mem_methodLinks {m : Method} : l ∈ u.methodLinks m ↔
    l = .known ⟨u.id, m.id u.name, .contains⟩ ∨ l ∈ Descriptor.links (m.id u.name) m.descriptor ∨
      (∃ name ∈ m.exceptions, l = .mention (m.id u.name) .typeRef name) ∨
      (∃ a ∈ m.annotations, a.visible = true ∧ l = .mention (m.id u.name) .annotatedBy a.type) ∨
      (∃ name ∈ AnnotationUse.allReferences m.annotations,
        l = .mention (m.id u.name) .typeRef name) ∨
      (∃ name ∈ m.annotationDefault, l = .mention (m.id u.name) .annotationDefault name) ∨
      u.isImplicit m = true ∧ l = .known ⟨u.id, m.id u.name, .implicit⟩ := by
  simp only [methodLinks, List.cons_append, List.append_assoc, List.mem_cons, List.mem_append,
    AnnotationUse.mem_links, List.mem_map, or_assoc, eq_comm (b := l)]
  split
  next himplicit => simp [himplicit]
  next himplicit => simp [himplicit]

theorem mem_fieldLinks {f : Field} : l ∈ u.fieldLinks f ↔
    l = .known ⟨u.id, f.id u.name, .contains⟩ ∨ l ∈ Descriptor.links (f.id u.name) f.descriptor ∨
      (∃ a ∈ f.annotations, a.visible = true ∧ l = .mention (f.id u.name) .annotatedBy a.type) ∨
      ∃ name ∈ AnnotationUse.allReferences f.annotations,
        l = .mention (f.id u.name) .typeRef name := by
  simp only [fieldLinks, List.cons_append, List.mem_cons, List.mem_append, AnnotationUse.mem_links]

theorem mem_declarationLinks : l ∈ u.declarationLinks ↔
    (∃ a ∈ u.annotations, a.visible = true ∧ l = .mention u.id .annotatedBy a.type) ∨
      (∃ name ∈ AnnotationUse.allReferences u.annotations, l = .mention u.id .typeRef name) ∨
      (∃ name ∈ u.outerClasses, l = .mention u.id .nestedIn name) ∨
      (∃ m ∈ u.methods, l ∈ u.methodLinks m) ∨ ∃ f ∈ u.fields, l ∈ u.fieldLinks f := by
  simp only [declarationLinks, List.append_assoc, List.mem_append, AnnotationUse.mem_links,
    List.mem_map, List.mem_flatMap (f := u.methodLinks), List.mem_flatMap (f := u.fieldLinks),
    or_assoc, eq_comm (b := l)]

theorem ShowsOn.mem_nodeIds {id : NodeId} {type : String} (h : u.ShowsOn id type) :
    id ∈ u.nodeIds := by
  rcases h with ⟨rfl, _⟩ | ⟨m, hm, rfl, _⟩ | ⟨f, hf, rfl, _⟩
  · exact u.id_mem_nodeIds
  · exact method_mem_nodeIds hm
  · exact field_mem_nodeIds hf

/-- What a visible annotation says is a link of the declarations. -/
theorem ShowsOn.link_mem {id : NodeId} {type : String} (h : u.ShowsOn id type) :
    .mention id .annotatedBy type ∈ u.declarationLinks := by
  rw [mem_declarationLinks]
  rcases h with ⟨rfl, a, ha, hv, rfl⟩ | ⟨m, hm, rfl, a, ha, hv, rfl⟩ | ⟨f, hf, rfl, a, ha, hv, rfl⟩
  · exact .inl ⟨a, ha, hv, rfl⟩
  · exact .inr (.inr (.inr (.inl ⟨m, hm,
      mem_methodLinks.mpr (.inr (.inr (.inr (.inl ⟨a, ha, hv, rfl⟩))))⟩)))
  · exact .inr (.inr (.inr (.inr ⟨f, hf, mem_fieldLinks.mpr (.inr (.inr (.inl ⟨a, ha, hv, rfl⟩)))⟩)))

namespace SameDeclarations

variable (h : u.SameDeclarations v)
include h

theorem mem_methodLinks {m : Method} (hm : m ∈ u.methods) (hl : l ∈ u.methodLinks m) :
    (∃ type, u.ShowsOn (m.id u.name) type ∧ l = .mention (m.id u.name) .annotatedBy type) ∨
      l.Kinds (· ≠ .annotatedBy) ∧ ∃ k ∈ v.methods, l ∈ v.methodLinks k := by
  obtain ⟨_, hmodifiers, _⟩ := h.class_eq
  obtain ⟨k, hk, hbare⟩ := h.method hm
  obtain ⟨hid, hkey, _, hexceptions, hrefs, hdefault⟩ := Method.of_node_bare_eq hbare
  have hname : k.name = m.name := congrArg MemberKey.name hkey
  have hdescriptor : k.descriptor = m.descriptor := congrArg MemberKey.descriptor hkey
  have hlinks := CompiledUnit.mem_methodLinks (u := v) (m := k) (l := l)
  rw [isImplicit, hname, hmodifiers, ← isImplicit, hid, h.id_eq, hdescriptor, hexceptions,
    hrefs] at hlinks
  simp only [hdefault] at hlinks
  rcases CompiledUnit.mem_methodLinks.mp hl with rfl | hl | ⟨name, hn, rfl⟩ | ⟨a, ha, hv, rfl⟩ |
    ⟨name, hn, rfl⟩ | ⟨name, hn, rfl⟩ | ⟨himplicit, rfl⟩
  · exact .inr ⟨nofun, k, hk, hlinks.mpr (.inl rfl)⟩
  · exact .inr ⟨Descriptor.kinds_links hl, k, hk, hlinks.mpr (.inr (.inl hl))⟩
  · exact .inr ⟨nofun, k, hk, hlinks.mpr (.inr (.inr (.inl ⟨name, hn, rfl⟩)))⟩
  · exact .inl ⟨a.type, .inr (.inl ⟨m, hm, rfl, a, ha, hv, rfl⟩), rfl⟩
  · exact .inr ⟨nofun, k, hk, hlinks.mpr (.inr (.inr (.inr (.inr (.inl ⟨name, hn, rfl⟩)))))⟩
  · exact .inr ⟨nofun, k, hk, hlinks.mpr (.inr (.inr (.inr (.inr (.inr (.inl ⟨name, hn, rfl⟩))))))⟩
  · exact .inr ⟨nofun, k, hk, hlinks.mpr (.inr (.inr (.inr (.inr (.inr (.inr ⟨himplicit, rfl⟩))))))⟩

theorem mem_fieldLinks {f : Field} (hf : f ∈ u.fields) (hl : l ∈ u.fieldLinks f) :
    (∃ type, u.ShowsOn (f.id u.name) type ∧ l = .mention (f.id u.name) .annotatedBy type) ∨
      l.Kinds (· ≠ .annotatedBy) ∧ ∃ k ∈ v.fields, l ∈ v.fieldLinks k := by
  obtain ⟨k, hk, hbare⟩ := h.field hf
  obtain ⟨hid, hdescriptor, hrefs⟩ := Field.of_node_bare_eq hbare
  have hlinks := CompiledUnit.mem_fieldLinks (u := v) (f := k) (l := l)
  rw [hid, h.id_eq, hdescriptor, hrefs] at hlinks
  rcases CompiledUnit.mem_fieldLinks.mp hl with rfl | hl | ⟨a, ha, hv, rfl⟩ | ⟨name, hn, rfl⟩
  · exact .inr ⟨nofun, k, hk, hlinks.mpr (.inl rfl)⟩
  · exact .inr ⟨Descriptor.kinds_links hl, k, hk, hlinks.mpr (.inr (.inl hl))⟩
  · exact .inl ⟨a.type, .inr (.inr ⟨f, hf, rfl, a, ha, hv, rfl⟩), rfl⟩
  · exact .inr ⟨nofun, k, hk, hlinks.mpr (.inr (.inr (.inr ⟨name, hn, rfl⟩)))⟩

/-- Apart from visible annotations, the links of the declarations are told by the nodes. -/
theorem mem_declarationLinks (hl : l ∈ u.declarationLinks) :
    (∃ id type, u.ShowsOn id type ∧ l = .mention id .annotatedBy type) ∨
      l.Kinds (· ≠ .annotatedBy) ∧ l ∈ v.declarationLinks := by
  obtain ⟨hname, _, _, _, hrefs, hinner⟩ := h.class_eq
  have hlinks := CompiledUnit.mem_declarationLinks (u := v) (l := l)
  rw [h.id_eq, hrefs, outerClasses, hinner, hname, ← outerClasses] at hlinks
  rcases CompiledUnit.mem_declarationLinks.mp hl with
    ⟨a, ha, hv, rfl⟩ | ⟨name, hn, rfl⟩ | ⟨name, hn, rfl⟩ | ⟨m, hm, hl⟩ | ⟨f, hf, hl⟩
  · exact .inl ⟨u.id, a.type, .inl ⟨rfl, a, ha, hv, rfl⟩, rfl⟩
  · exact .inr ⟨nofun, hlinks.mpr (.inr (.inl ⟨name, hn, rfl⟩))⟩
  · exact .inr ⟨nofun, hlinks.mpr (.inr (.inr (.inl ⟨name, hn, rfl⟩)))⟩
  · rcases h.mem_methodLinks hm hl with hshow | ⟨hkinds, hl⟩
    · exact .inl ⟨_, hshow⟩
    · exact .inr ⟨hkinds, hlinks.mpr (.inr (.inr (.inr (.inl hl))))⟩
  · rcases h.mem_fieldLinks hf hl with hshow | ⟨hkinds, hl⟩
    · exact .inl ⟨_, hshow⟩
    · exact .inr ⟨hkinds, hlinks.mpr (.inr (.inr (.inr (.inr hl))))⟩

end SameDeclarations

end CompiledUnit

namespace Graph

variable {g g' : Graph} {platform : Platform} {links : List Link}

/-- The same nodes, apart from signatures, and the same edges in the same order. -/
structure Agree (g g' : Graph) : Prop where
  nodes : ∀ id, (g'.node? id).map Node.bare = (g.node? id).map Node.bare
  edges : g'.edges = g.edges

namespace Agree

variable (h : Agree g g')
include h

theorem contains : g'.contains = g.contains := by
  funext id
  have hnode := congrArg Option.isSome (h.nodes id)
  rw [Option.isSome_map, Option.isSome_map] at hnode
  rw [Bool.eq_iff_iff, contains_iff_node?, contains_iff_node?, ← Option.isSome_iff_exists,
    ← Option.isSome_iff_exists, hnode]

theorem sameCore : SameCore g g' := by
  intro id
  rw [← core_bare, ← core_bare (g := g'), core, core, node?_bare, node?_bare, h.nodes]

theorem linkClass {b : Bool} {source : NodeId} {kind : EdgeKind} {name : String} :
    Agree (g.linkClass platform b source kind name).1
      (g'.linkClass platform b source kind name).1 := by
  have hmention : g'.mentioned? platform b name = g.mentioned? platform b name := by
    rw [mentioned?, mentioned?, h.contains]
  unfold Graph.linkClass
  rw [hmention]
  split
  next => exact h
  next target _ =>
    rw [fst_insertEdges_singleton, fst_insertEdges_singleton]
    constructor
    · intro id
      rw [node?_addEdge, node?_addEdge, node?_provide, node?_provide, h.contains]
      split
      next => rfl
      next => exact h.nodes id
    · have hprovide : (g'.provide platform target).contains = (g.provide platform target).contains := by
        funext id
        rw [Bool.eq_iff_iff, contains_provide, contains_provide, h.contains]
      unfold addEdge accepts hasEdge
      rw [hprovide, edges_provide, edges_provide, h.edges]
      split
      next => rfl
      next => rw [edges_provide, edges_provide, h.edges]

/-- Links of the hierarchy only ask which classes are there. -/
theorem applyLinks (hl : ∀ l ∈ links, l.inHierarchy = true) :
    Agree (g.applyLinks platform links) (g'.applyLinks platform links) := by
  induction links generalizing g g' with
  | nil => exact h
  | cons l links ih =>
    refine ih ?_ fun k hk => hl k (List.mem_cons_of_mem l hk)
    unfold applyLink link
    rw [h.contains]
    split
    next => exact h
    next =>
      cases l with
      | supertype => exact h.linkClass
      | _ => cases hl _ List.mem_cons_self

end Agree

end Graph

namespace Program

open Graph

variable {p : Program} {u : CompiledUnit} {s : SourcedUnit} {e : Edge}

@[simp] theorem visibleLibraries_replace (p : Program) (u : CompiledUnit) :
    (p.replace u).visibleLibraries = p.visibleLibraries := by
  rw [visibleLibraries, visibleLibraries, names_replace]
  rfl

/-- Versions of a unit that declare the same stand alike in their graphs. -/
theorem bare_node?_declared {q : Program} {t t' : SourcedUnit} {id : NodeId} (hp : p.Admissible)
    (hq : q.Admissible) (ht : t ∈ p.units) (ht' : t' ∈ q.units) (hsource : t'.source = t.source)
    (hd : t.unit.SameDeclarations t'.unit) (hid : id.className = t.unit.name) :
    (q.declared.node? id).map Node.bare = (p.declared.node? id).map Node.bare := by
  by_cases hmem : id ∈ t.unit.nodeIds
  · rcases CompiledUnit.mem_nodeIds_iff.mp hmem with rfl | hmem
    · have hclass := (class?_eq_some (class?_declared hp ht)).1
      have hclass' := (class?_eq_some (class?_declared hq ht')).1
      rw [hd.name_eq] at hclass'
      rw [CompiledUnit.id, hclass, hclass', hsource]
      exact congrArg (some <| Node.class_ ·) (hd.bare_fullNode _)
    · obtain ⟨n, hn, rfl⟩ := List.mem_map.mp hmem
      obtain ⟨k, hk, hbare⟩ := hd.members n hn
      have hkid := (MemberNode.of_bare_eq hbare).1
      rw [(member?_eq_some (member?_declared hp ht hn)).1,
        ← hkid, (member?_eq_some (member?_declared hq ht' hk)).1]
      exact congrArg (some <| Node.member ·) hbare
  · have hnone : p.declared.node? id = none := node?_eq_none_iff.mpr (Bool.eq_false_iff.mpr
      fun hc => hmem (mem_nodeIds_of_contains hp ht hid hc))
    have hnone' : q.declared.node? id = none := node?_eq_none_iff.mpr (Bool.eq_false_iff.mpr
      fun hc => hmem (hd.symm.mem_nodeIds
        (mem_nodeIds_of_contains hq ht' (hid.trans hd.name_eq.symm) hc)))
    rw [hnone, hnone']

section Replace

variable (hp : p.Admissible) (hs : s ∈ p.units) (hd : s.unit.SameDeclarations u)
include hp hs hd

/-- The units of the program are the new version and all others. -/
theorem mem_units_replace_iff {t : SourcedUnit} :
    t ∈ (p.replace u).units ↔ t = ⟨u, s.source⟩ ∨ t ∈ p.units ∧ t ≠ s := by
  simp only [replace, List.mem_map]
  have hsame : ∀ t ∈ p.units, t.unit.name = u.name → t = s := fun t ht hname =>
    List.inj_on_of_nodup_map hp.distinct ht hs (hname.trans hd.name_eq)
  constructor
  · rintro ⟨t, ht, rfl⟩
    split
    next hname => exact .inl (by rw [hsame t ht hname])
    next hname => exact .inr ⟨ht, fun heq => hname (heq ▸ hd.name_eq.symm)⟩
  · rintro (rfl | ⟨ht, hne⟩)
    · exact ⟨s, hs, if_pos hd.name_eq.symm⟩
    · exact ⟨t, ht, if_neg fun hname => hne (hsame t ht hname)⟩

/-- Every unit has its version after the replacement. -/
theorem exists_version {t : SourcedUnit} (ht : t ∈ p.units) : ∃ t' ∈ (p.replace u).units,
    t'.source = t.source ∧ t.unit.SameDeclarations t'.unit ∧ (t = s ∧ t'.unit = u ∨ t ≠ s ∧ t' = t) := by
  by_cases hts : t = s
  · subst hts
    exact ⟨⟨u, t.source⟩, (mem_units_replace_iff hp hs hd).mpr (.inl rfl), rfl, hd, .inl ⟨rfl, rfl⟩⟩
  · exact ⟨t, (mem_units_replace_iff hp hs hd).mpr (.inr ⟨ht, hts⟩), rfl, .refl _, .inr ⟨hts, rfl⟩⟩

theorem replace_replace : (p.replace u).replace s.unit = p := by
  have hunits : (p.replace u).units.map
      (fun t => if t.unit.name = s.unit.name then ⟨s.unit, t.source⟩ else t) = p.units := by
    rw [replace, List.map_map]
    refine (List.map_congr_left fun t ht => ?_).trans (List.map_id _)
    by_cases hname : t.unit.name = u.name
    · obtain rfl : t = s := List.inj_on_of_nodup_map hp.distinct ht hs (hname.trans hd.name_eq)
      simp only [Function.comp_apply]
      rw [if_pos hname, if_pos hd.name_eq]
      rfl
    · have hne : t.unit.name ≠ s.unit.name := fun heq => hname (heq.trans hd.name_eq.symm)
      simp [hname, hne]
  exact congrArg (fun units => { p with units := units }) hunits

theorem admissible_replace (hc : u.check = .ok ()) (hlib : u.library = false) :
    (p.replace u).Admissible where
  units t ht := by
    rcases (mem_units_replace_iff hp hs hd).mp ht with rfl | ⟨ht, _⟩
    · exact ⟨hc, hd.name_eq ▸ (hp.units s hs).2.1, hlib⟩
    · exact hp.units t ht
  libraries := hp.libraries
  distinct := by
    rw [names_replace]
    exact hp.distinct

theorem hierarchyLinks_replace : (p.replace u).roster.flatMap CompiledUnit.hierarchyLinks =
    p.roster.flatMap CompiledUnit.hierarchyLinks := by
  have hunits : (p.replace u).units.flatMap (·.unit.hierarchyLinks) =
      p.units.flatMap (·.unit.hierarchyLinks) := by
    rw [replace, List.flatMap_map]
    refine List.flatMap_congr fun t ht => ?_
    split
    next hname =>
      obtain rfl : t = s := List.inj_on_of_nodup_map hp.distinct ht hs (hname.trans hd.name_eq)
      exact hd.hierarchyLinks_eq
    next => rfl
  rw [roster, roster, List.flatMap_append, List.flatMap_append, List.flatMap_map, List.flatMap_map,
    visibleLibraries_replace]
  exact congrArg (· ++ _) hunits

/-- What units declare is the same, apart from signatures. -/
theorem agree_declared_replace (hq : (p.replace u).Admissible) :
    Agree p.declared (p.replace u).declared := by
  refine ⟨fun id => ?_, by rw [edges_declared, edges_declared]⟩
  by_cases hname : id.className ∈ p.names
  swap
  · rw [node?_declared_congr (visibleLibraries_replace p u) (by rwa [names_replace]) hname]
  obtain ⟨t, ht, hid⟩ := List.mem_map.mp hname
  obtain ⟨t', ht', hsource, hsame, _⟩ := exists_version hp hs hd ht
  exact bare_node?_declared hp hq ht ht' hsource hsame hid.symm

theorem agree_skeleton_replace (hq : (p.replace u).Admissible) :
    Agree p.skeleton (p.replace u).skeleton := by
  rw [skeleton_eq_applyLinks, skeleton_eq_applyLinks, hierarchyLinks_replace hp hs hd]
  refine (agree_declared_replace hp hs hd hq).applyLinks fun l hl => ?_
  obtain ⟨v, _, hl⟩ := List.mem_flatMap.mp hl
  simp only [CompiledUnit.hierarchyLinks, List.mem_append, List.mem_map] at hl
  rcases hl with ⟨_, _, rfl⟩ | ⟨_, _, rfl⟩ <;> rfl

/-- Whether a program can be built does not depend on which version it has. -/
theorem exists_build_replace (hq : (p.replace u).Admissible) (hb : ∃ g, p.build = .ok g) :
    ∃ g, (p.replace u).build = .ok g := by
  obtain ⟨rank, hrank⟩ := exists_build_iff.mp hb
  have hparents : (p.replace u).skeleton.parents = p.skeleton.parents := by
    funext id
    rw [parents, parents, outgoing, outgoing, (agree_skeleton_replace hp hs hd hq).edges]
  refine exists_build_iff.mpr ⟨rank, fun id above ha => hrank id above ?_⟩
  rwa [← hparents]

/-- Visible annotations apart, an edge that is no matter of bodies is the same with the new version. -/
theorem Links.replace (hq : (p.replace u).Admissible) (hl : p.Links e) (hbody : e.kind.isBody = false)
    (hkind : e.kind ≠ .annotatedBy) : (p.replace u).Links e := by
  have hagree := agree_skeleton_replace hp hs hd hq
  have htame : (p.replace u).skeleton.Tame p.platform := (p.replace u).tame_skeleton
  have hsignature : e.kind ≠ .signature := by
    intro hk
    rw [hk] at hbody
    cases hbody
  cases hl with
  | @declaration t l ht hlink he =>
    obtain ⟨t', ht', _, hsame, _⟩ := exists_version hp hs hd ht
    have hlateral := (CompiledUnit.lateral_of_mem_declarationLinks hlink).1
    rcases hsame.mem_declarationLinks hlink with ⟨id, type, _, rfl⟩ | ⟨_, hlink⟩
    · exact absurd (kind_of_mention he) hkind
    · exact .declaration ht' hlink
        ((hagree.sameCore.mem_edges_iff p.tame_skeleton htame hlateral hsignature).mp he)
  | body _ _ _ _ hlink he =>
    obtain ⟨use, huse⟩ := (Instruction.bodyLink hlink).kinds.of_mem_edges he
    rw [huse] at hbody
    cases hbody
  | @override t m ht hm he =>
    obtain ⟨t', ht', _, hsame, _⟩ := exists_version hp hs hd ht
    obtain ⟨k, hk, hbare⟩ := hsame.method hm
    obtain ⟨_, hkey, hmodifiers, _⟩ := Method.of_node_bare_eq hbare
    refine .override ht' hk ?_
    have hladder : p.skeleton.ladder = (p.replace u).skeleton.ladder := by
      rw [ladder, ladder, hagree.edges]
    rwa [← hagree.sameCore.overrideEdges p.tame_skeleton htame p.wellFormed_skeleton
      (p.replace u).wellFormed_skeleton (parents_congr hladder) hsame.name_eq hkey hmodifiers]

end Replace

/-- The edges to the types of annotations are those that visible ones ask for. -/
theorem links_annotatedBy_iff (hk : e.kind = .annotatedBy) : p.Links e ↔
    ∃ t ∈ p.units, ∃ type, t.unit.ShowsOn e.source type ∧
      ∃ name, p.skeleton.mentioned? p.platform false type = some name ∧ e.target = .class_ name := by
  constructor
  · intro hl
    cases hl with
    | @declaration t l ht hlink he =>
      rcases (CompiledUnit.SameDeclarations.refl t.unit).mem_declarationLinks hlink with
        ⟨id, type, hshow, rfl⟩ | ⟨hkinds, _⟩
      · obtain ⟨name, hname, rfl⟩ := List.mem_map.mp he
        exact ⟨t, ht, type, hshow, name, Option.mem_toList.mp hname, rfl⟩
      · exact absurd hk (hkinds.of_mem_edges he)
    | body _ _ _ _ hlink he =>
      obtain ⟨use, huse⟩ := (Instruction.bodyLink hlink).kinds.of_mem_edges he
      rw [huse] at hk
      cases hk
    | override _ _ he =>
      rcases kind_of_mem_overrideEdges he with ⟨hc, _⟩ | rfl
      · rw [hc] at hk
        cases hk
      · cases hk
  · rintro ⟨t, ht, type, hshow, name, hname, htarget⟩
    refine .declaration ht hshow.link_mem (List.mem_map.mpr ⟨name, Option.mem_toList.mpr hname, ?_⟩)
    rw [← htarget, ← hk]

end Program

end Winnow
