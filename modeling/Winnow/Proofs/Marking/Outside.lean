import Winnow.Proofs.Incremental.Equivalence
import Winnow.Proofs.Marking.Idle
import Winnow.Proofs.Pruning.Linking

/-!
# What code outside the program may call

A method that overrides one of a type outside the program is there whenever its
class is. Whether it overrides one is asked of the class that declares it, and not
of the classes that inherit it. So what a live class runs for a library type is kept
when that type stands above the declaring class; when it stands above the live class
alone, the method is kept only if the program reaches it in another way.
-/
namespace Winnow

namespace Graph

open Marking

variable {g : Graph} {h : Hierarchy} {id m : NodeId} {key : MemberKey} {isRoot : Node → Bool}
  {A : Assignment}

/-- Every object has a method of that key, or a class above `id` and outside the program has, or may
have, one. -/
def AskedOutside (g : Graph) (key : MemberKey) (id : NodeId) : Prop :=
  isObjectMethod key = true ∨ ∃ c ∈ g.classesAbove id, g.overridesOutside key c = true

/-- The method is there whenever its class is: it initializes the class, the class is an annotation
type, or it can override others and code outside the program may call it. -/
def StandsWithClass (g : Graph) (id : NodeId) : Prop :=
  ∃ c m, g.class? id.className = some c ∧ g.member? id = some m ∧
    (m.name = staticInitializerName ∨ c.modifiers.isAnnotation = true ∨
      m.modifiers.isStatic = false ∧ m.modifiers.isPrivate = false ∧ m.name ≠ constructorName ∧
        m.name ≠ staticInitializerName ∧ g.AskedOutside ⟨m.name, m.descriptor⟩ (.class_ id.className))

/-- The program itself reaches the method: it is a root, a kept member uses it, or a live class runs it
for a call seen. -/
def Reaches (g : Graph) (isRoot : Node → Bool) (id : NodeId) : Prop :=
  id ∈ (g.mark g.hierarchy isRoot).roots ∨
    (∃ e ∈ g.edges, e.target = id ∧ (∃ use, e.kind = .uses use) ∧
      (g.mark g.hierarchy isRoot).isKept e.source = true) ∨
    id ∈ dispatched g g.hierarchy (drain g g.hierarchy (seed g g.hierarchy isRoot)).liveness

/-- Where the method that a receiver runs is declared, and what it is. -/
theorem implementation_spec (hi : g.implementation h id key = some m) :
    ∃ s c n, g.class? s = some c ∧ c.isProgram = true ∧ g.declared s .method key = some m ∧
      g.member? m = some n ∧ n.modifiers.isStatic = false ∧
      (s ∈ g.superclassChain id.className ∨ .class_ s ∈ h.supertypes id) := by
  unfold implementation at hi
  split at hi
  next decision hd =>
    obtain ⟨s, hchain, hs⟩ := List.exists_of_findSome?_eq_some hd
    rw [hi] at hs
    unfold chainDecision at hs
    obtain ⟨c, hc, hs⟩ := Option.bind_eq_some_iff.mp hs
    obtain ⟨id', hdecl, hs⟩ := Option.bind_eq_some_iff.mp hs
    obtain ⟨n, hn, hs⟩ := Option.bind_eq_some_iff.mp hs
    split at hs
    · cases hs
    next hfree =>
      split at hs
      · cases hs
      next hprog =>
        cases hs
        simp only [Bool.or_eq_true, not_or, Bool.not_eq_true] at hfree hprog
        exact ⟨s, c, n, hc, by simpa using hprog.2, hdecl, hn, hfree.1, .inl hchain⟩
  next =>
    obtain ⟨above, hmem, hs⟩ := List.exists_of_findSome?_eq_some hi
    unfold defaultMethod? at hs
    obtain ⟨k, hk, hs⟩ := Option.bind_eq_some_iff.mp hs
    obtain ⟨c, hc, hs⟩ := Option.bind_eq_some_iff.mp hs
    split at hs
    · cases hs
    next hprog =>
      obtain ⟨id', hdecl, hs⟩ := Option.bind_eq_some_iff.mp hs
      obtain ⟨n, hn, hs⟩ := Option.bind_eq_some_iff.mp hs
      split at hs
      · cases hs
      next hfree =>
        cases hs
        cases k with
        | member _ => cases hc
        | class_ k =>
          obtain rfl := Option.some.inj hc
          have hid : NodeId.class_ k.name = above := id_of_node? hk
          have hclass : g.class? k.name = some k := class?_of_node? (hid ▸ hk)
          simp only [Bool.or_eq_true, not_or, Bool.not_eq_true] at hfree hprog
          exact ⟨k.name, k, n, hclass, by simpa using hprog.2, hdecl, hn, hfree.2, .inr (hid ▸ hmem)⟩

/-- A closed assignment keeps the classes above a kept one. -/
theorem WellFormed.keeps_of_mem_supertypes (hg : g.WellFormed) (hA : A.Closed g h isRoot)
    {above : NodeId} (hk : A.keeps id .shell) (ha : above ∈ g.hierarchy.supertypes id) :
    A.keeps above .shell := by
  rw [hg.supertypes_eq] at ha
  split at ha
  next =>
    obtain ⟨start, hq, hreach⟩ := reachable_of_mem_breadthFirst (List.mem_of_mem_filter ha)
    rw [List.mem_singleton.mp hq] at hreach
    clear ha
    induction hreach with
    | refl => exact hk
    | tail _ hstep ih =>
      obtain ⟨e, he, hkind, rfl, rfl⟩ := mem_parents.mp hstep
      exact hA.keeps_target he ih (by cases hk : e.kind <;> simp_all [EdgeKind.isHierarchy,
        EdgeKind.propagation])
  next => cases ha

end Graph

/-- Why a member may have to be kept: it is a root, a kept node leads to it, or a live class runs it for
a call seen. -/
inductive Assignment.Reason (A : Assignment) (g : Graph) (h : Hierarchy) (isRoot : Node → Bool)
    (m : MemberNode) : Prop
  | root : Marking.inProgram g (.member m) = true → isRoot (.member m) = true → Reason A g h isRoot m
  | edge {e : Edge} : e ∈ g.edges → e.target = m.id → e.kind.propagation ≠ .none →
      A.keeps e.source .shell → Reason A g h isRoot m
  | dispatch {class_ receiver decl : NodeId} : class_ ∈ A.live → (receiver, decl) ∈ A.called →
      h.isSubtype class_ receiver = true → g.implementationOf h class_ decl = some m.id →
      Reason A g h isRoot m

namespace Assignment

variable {g : Graph} {h : Hierarchy} {isRoot : Node → Bool} {A : Assignment} {m : MemberNode}

theorem Closed.keeps_of_reason (hA : A.Closed g h isRoot) (hm : Node.member m ∈ g.nodes)
    (hr : A.Reason g h isRoot m) : A.keeps m.id .full := by
  cases hr with
  | root hprog hroot => exact hA.root _ hm hprog hroot
  | edge he ht hk hs => exact hA.member m hm (ht ▸ hA.keeps_target he hs hk)
  | dispatch hlive hcall hsub hi => exact hA.dispatch _ hlive _ _ hcall hsub _ hi

/-- The assignment without one node. -/
def except (A : Assignment) (id : NodeId) : Assignment :=
  { A with keeps := fun k s => A.keeps k s ∧ k ≠ id }

/-- The least assignment keeps no member without a reason. -/
theorem reason_of_isLeast (hA : IsLeast {A : Assignment | A.Closed g h isRoot} A)
    (hg : g.WellFormed) (hm : Node.member m ∈ g.nodes) {s : KeepState} (hk : A.keeps m.id s) :
    A.Reason g h isRoot m := by
  by_contra hno
  have hnode : ∀ n ∈ g.nodes, n.id = m.id → n = .member m := fun n hn hid =>
    Option.some.inj ((hid ▸ hg.node?_of_mem hn).symm.trans (hg.node?_of_mem hm))
  have hother : ∀ name, NodeId.class_ name ≠ m.id := fun name heq => by
    have := (hg.owned m hm).1
    rw [← heq] at this
    cases this
  have hclosed : (A.except m.id).Closed g h isRoot := {
    shell_of_full := fun id hid => ⟨hA.1.shell_of_full id hid.1, hid.2⟩
    member := fun k hk hs => ⟨hA.1.member k hk hs.1, hs.2⟩
    unresolved := fun n hn hu => ⟨hA.1.unresolved n hn hu, fun hid => by
      rw [hnode n hn hid] at hu
      cases hu⟩
    root := fun n hn hp hr => ⟨hA.1.root n hn hp hr, fun hid => by
      rw [hnode n hn hid] at hp hr
      exact hno (.root hp hr)⟩
    root_live := hA.1.root_live
    owner := fun k hk hs => ⟨hA.1.owner k hk hs.1, hother _⟩
    edge := fun e he hs d hd => ⟨hA.1.edge e he hs.1 d hd, fun hid => by
      obtain ⟨state, hstate, rfl⟩ := Option.map_eq_some_iff.mp hd
      refine hno (.edge he hid (fun hnone => ?_) hs.1)
      rw [hnone] at hstate
      cases hstate⟩
    instantiate := fun e he hs hkind => hA.1.instantiate e he hs.1 hkind
    call := fun e he hs receiver hkind hr => hA.1.call e he hs.1 receiver hkind hr
    dispatch := fun class_ hc receiver decl hcall hsub id hi =>
      ⟨hA.1.dispatch class_ hc receiver decl hcall hsub id hi, fun hid =>
        hno (.dispatch hc hcall hsub (hid ▸ hi))⟩ }
  exact ((hA.2 hclosed).1 m.id s hk).2 rfl

end Assignment

/-- What is declared as known leads from the class to a member: it contains it, or always has it. -/
theorem CompiledUnit.known_of_mem_declarationLinks {u : CompiledUnit} {e : Edge}
    (hl : Link.known e ∈ u.declarationLinks) :
    e.source = u.id ∧ (e.kind = .contains ∨
      ∃ m ∈ u.methods, u.isImplicit m = true ∧ e = ⟨u.id, m.id u.name, .implicit⟩) := by
  have hannotation : ∀ {source : NodeId} {annotations : List AnnotationUse},
      Link.known e ∉ annotations.flatMap (AnnotationUse.links source) := by
    intro source annotations hmem
    obtain ⟨a, _, ha⟩ := List.mem_flatMap.mp hmem
    unfold AnnotationUse.links at ha
    split at ha <;> simp at ha
  have hdescriptor : ∀ {source : NodeId} {descriptor : String},
      Link.known e ∉ Descriptor.links source descriptor := by
    intro source descriptor hmem
    unfold Descriptor.links at hmem
    split at hmem <;> simp at hmem
  simp only [declarationLinks, List.append_assoc, List.mem_append, hannotation, List.mem_map,
    reduceCtorEq, and_false, exists_false, false_or, List.mem_flatMap] at hl
  rcases hl with ⟨m, hm, hl⟩ | ⟨f, _, hl⟩
  · simp only [methodLinks, List.cons_append, List.append_assoc, List.mem_cons, List.mem_append,
      hannotation, hdescriptor, List.mem_map, reduceCtorEq, and_false, exists_false, false_or,
      Link.known.injEq] at hl
    rcases hl with rfl | hl
    · exact ⟨rfl, .inl rfl⟩
    · split at hl
      next himplicit =>
        obtain rfl := Link.known.inj (List.mem_singleton.mp hl)
        exact ⟨rfl, .inr ⟨m, hm, himplicit, rfl⟩⟩
      next => cases hl
  · simp only [fieldLinks, List.cons_append, List.mem_cons, List.mem_append, hannotation,
      hdescriptor, or_false, Link.known.injEq] at hl
    subst hl
    exact ⟨rfl, .inl rfl⟩

namespace Program

open Graph Marking

variable {p : Program} {g : Graph} {s : SourcedUnit} {e : Edge}

/-- Uses, and the class that always has it, are all that can keep a member. -/
theorem Linked.edge_to_member (hl : p.Linked g) (he : e ∈ g.edges) (ht : e.target.isClass = false)
    (hk : e.kind.propagation ≠ .none) : (∃ use, e.kind = .uses use) ∨ e.kind = .implicit := by
  rcases hl.links he with he | hsignature | hlinks
  · rw [isClass_of_mem_edges_skeleton he] at ht
    cases ht
  · rw [hsignature] at hk
    exact (hk rfl).elim
  · cases hlinks with
    | declaration hs hlink he =>
      obtain ⟨source, _, hdecl⟩ := CompiledUnit.declarationLink_of_mem hlink
      rcases hdecl.mentions with ⟨kind, name, rfl, _⟩ | ⟨e', rfl⟩
      · obtain ⟨_, _, rfl⟩ := List.mem_map.mp he
        cases ht
      · simp only [Link.edges] at he
        split at he
        next =>
          obtain rfl := List.mem_singleton.mp he
          rcases (CompiledUnit.known_of_mem_declarationLinks hlink).2 with hc | ⟨_, _, _, rfl⟩
          · rw [hc] at hk
            exact (hk rfl).elim
          · exact .inr rfl
        next => cases he
    | body _ _ _ _ hlink he => exact .inl ((Instruction.bodyLink hlink).kinds.of_mem_edges he)
    | override _ _ he =>
      rcases kind_of_mem_overrideEdges he with ⟨hc, _⟩ | rfl
      · rw [hc] at hk
        exact (hk rfl).elim
      · exact .inr rfl

theorem Linked.overrideEdges_eq (hl : p.Linked g) (u : CompiledUnit) (m : Method) :
    p.skeleton.overrideEdges p.skeleton.hierarchy u m = g.overrideEdges g.hierarchy u m :=
  hl.core.overrideEdges p.tame_skeleton hl.tame p.wellFormed_skeleton hl.wellFormed
    (parents_congr hl.ladder).symm rfl rfl rfl

theorem implicit_mem_overrideEdges {u : CompiledUnit} {m : Method} {id : NodeId} :
    (⟨u.id, id, .implicit⟩ : Edge) ∈ g.overrideEdges g.hierarchy u m ↔
      m.canOverride = true ∧ id = m.id u.name ∧ g.AskedOutside m.key u.id := by
  rw [Graph.overrideEdges_eq]
  cases hc : m.canOverride with
  | false => simp
  | true =>
    simp only [Bool.not_true, Bool.false_eq_true, if_false, List.mem_append, List.mem_map,
      Edge.mk.injEq, reduceCtorEq, and_false, exists_false, false_or, true_and, AskedOutside]
    split
    next hout =>
      simp only [List.mem_singleton, Edge.mk.injEq, true_and, and_true]
      rw [Bool.or_eq_true, List.any_eq_true] at hout
      exact ⟨fun hid => ⟨hid, hout⟩, fun hid => hid.1⟩
    next hout =>
      rw [Bool.or_eq_true, List.any_eq_true] at hout
      exact ⟨fun hmem => (List.not_mem_nil hmem).elim, fun hid => (hout hid.2).elim⟩

/-- Whatever a class always has is one of its methods, with a reason for it. -/
theorem Linked.of_implicit (hl : p.Linked g) (he : e ∈ g.edges) (hk : e.kind = .implicit) :
    ∃ s ∈ p.units, ∃ m ∈ s.unit.methods, e = ⟨s.unit.id, m.id s.unit.name, .implicit⟩ ∧
      (s.unit.isImplicit m = true ∨ m.canOverride = true ∧ g.AskedOutside m.key s.unit.id) := by
  rw [hl.edges e (by rw [hk]; rfl) (by rw [hk]; nofun)] at he
  cases he with
  | @declaration s l hs hlink he =>
    obtain ⟨source, _, hdecl⟩ := CompiledUnit.declarationLink_of_mem hlink
    rcases hdecl.mentions with ⟨kind, name, rfl, hkind⟩ | ⟨e', rfl⟩
    · obtain ⟨_, _, rfl⟩ := List.mem_map.mp he
      obtain rfl : kind = .implicit := hk
      cases hkind
    · simp only [Link.edges] at he
      split at he
      next =>
        obtain rfl := List.mem_singleton.mp he
        obtain ⟨_, hc | ⟨m, hm, himplicit, rfl⟩⟩ := CompiledUnit.known_of_mem_declarationLinks hlink
        · rw [hc] at hk
          cases hk
        · exact ⟨s, hs, m, hm, rfl, .inl himplicit⟩
      next => cases he
  | body _ _ _ _ hlink he =>
    obtain ⟨_, huse⟩ := (Instruction.bodyLink hlink).kinds.of_mem_edges he
    rw [huse] at hk
    cases hk
  | @override s m hs hm he =>
    rw [hl.overrideEdges_eq] at he
    rcases kind_of_mem_overrideEdges he with ⟨hc, _⟩ | rfl
    · rw [hc] at hk
      cases hk
    · obtain ⟨hover, _, hasked⟩ := implicit_mem_overrideEdges.mp he
      exact ⟨s, hs, m, hm, rfl, .inr ⟨hover, hasked⟩⟩

/-- A class always has a method just if it is the static initializer or one of an annotation type, or
if it can override others and code outside the program may call it. -/
theorem Linked.implicit_iff (hp : p.Admissible) (hl : p.Linked g) (hs : s ∈ p.units) {m : Method}
    (hm : m ∈ s.unit.methods) :
    (⟨s.unit.id, m.id s.unit.name, .implicit⟩ : Edge) ∈ g.edges ↔
      s.unit.isImplicit m = true ∨ (m.canOverride = true ∧ g.AskedOutside m.key s.unit.id) := by
  constructor
  · intro he
    obtain ⟨s', hs', m', hm', heq, hreason⟩ := hl.of_implicit he rfl
    obtain ⟨rfl, rfl⟩ := eq_of_method_id hp hs hs' hm hm' (congrArg Edge.target heq)
    exact hreason
  · intro hreason
    rw [hl.edges ⟨s.unit.id, m.id s.unit.name, .implicit⟩ rfl fun h => by cases h]
    rcases hreason with himplicit | hasked
    · refine .declaration hs (l := .known ⟨s.unit.id, m.id s.unit.name, .implicit⟩) ?_ ?_
      · simp only [CompiledUnit.declarationLinks, List.mem_append, List.mem_flatMap]
        refine .inl (.inr ⟨m, hm, ?_⟩)
        simp [CompiledUnit.methodLinks, himplicit]
      · have hin : p.skeleton.contains (m.id s.unit.name) = true :=
          contains_skeleton (unit_mem_roster hs) (CompiledUnit.method_mem_nodeIds hm)
        simp [Link.edges, hin]
    · refine .override hs hm ?_
      rw [hl.overrideEdges_eq]
      exact implicit_mem_overrideEdges.mpr ⟨hasked.1, rfl, hasked.2⟩

section Inherited

variable {A : Assignment} {isRoot : Node → Bool} {t : CounterTable} {name : String} {id : NodeId}
  {key : MemberKey}

/-- The class that declares what a kept class runs is kept, and has the method in its unit. -/
theorem Linked.declares_implementation (hp : p.Admissible) (hl : p.Linked g)
    (hA : A.Closed g g.hierarchy isRoot) (ht : t.Records g A)
    (hnames : ∀ u ∈ p.roster, Text.startsWith u.name "[" = false)
    (hkept : A.keeps (.class_ name) .shell)
    (hi : g.implementation g.hierarchy (.class_ name) key = some id) :
    ∃ s ∈ p.units, ∃ x ∈ s.unit.methods, x.id s.unit.name = id ∧ x.key = key ∧
      x.modifiers.isStatic = false ∧ A.keeps s.unit.id .shell ∧
      ∀ n, g.member? id = some n → n.modifiers = x.modifiers := by
  obtain ⟨owner, c, n, hc, hprog, hdecl, hn, hstatic, hwhere⟩ := implementation_spec hi
  obtain ⟨s, hs, rfl⟩ := List.mem_map.mp (hl.mem_names_of_isProgram hc hprog)
  have hdeclared := contains_declared_of_mem_names (mem_names hs)
  obtain ⟨hclass, hkind, hmember, _⟩ := declared_eq_some_iff.mp hdecl
  rcases hl.core.member?_cases id with ⟨n₀, n', hn₀, hn', hbare⟩ | ⟨_, hnone⟩
  swap
  · rw [hnone] at hn
    cases hn
  obtain rfl := Option.some.inj (hn.symm.trans hn')
  obtain ⟨hid, hmod⟩ := Graph.MemberNode.of_bare_eq hbare
  rw [p.skeleton_extension.member?] at hn₀
  obtain ⟨hmem, hid₀⟩ := exists_memberNode hp hs (declared_spec hdecl).2 hn₀
  have hkeep : A.keeps s.unit.id .shell := by
    rcases hwhere with hchain | habove
    · have hc := hl.coherent hA ht hnames
      rw [← (hl.core.sameAbove p.tame_skeleton hl.tame).superclassChain trivial] at hchain
      exact hc.kept_of_mem_superclassChain hp (fun _ => hkept) hchain hdeclared
    · exact hl.wellFormed.keeps_of_mem_supertypes hA hkept habove
  rcases List.mem_append.mp hmem with hmem | hmem
  · obtain ⟨x, hx, rfl⟩ := List.mem_map.mp hmem
    have hxid : x.id s.unit.name = id := hid₀
    subst hxid
    have href := Option.some.inj hmember
    refine ⟨s, hs, x, hx, rfl, ?_, ?_, hkeep, fun k hk => ?_⟩
    · rw [Method.key, show x.name = key.name from congrArg MemberRef.name href,
        show x.descriptor = key.descriptor from congrArg MemberRef.descriptor href]
    · rw [hmod] at hstatic
      exact hstatic
    · obtain rfl := Option.some.inj (hk.symm.trans hn)
      exact hmod
  · obtain ⟨f, _, rfl⟩ := List.mem_map.mp hmem
    rw [← hid₀] at hkind
    cases hkind

/-- What stands with its class is what the class always has. -/
theorem Linked.standsWithClass_iff (hp : p.Admissible) (hl : p.Linked g) (hs : s ∈ p.units)
    {m : Method} (hm : m ∈ s.unit.methods) : g.StandsWithClass (m.id s.unit.name) ↔
      (⟨s.unit.id, m.id s.unit.name, .implicit⟩ : Edge) ∈ g.edges := by
  obtain ⟨c, hclass, hclass_bare⟩ := hl.class?_unit hp hs
  obtain ⟨n, hmember, hmember_bare⟩ := hl.member?_unit hp hs (n := m.node s.unit.name)
    (List.mem_append_left _ (List.mem_map_of_mem hm))
  have hmod : c.modifiers = s.unit.modifiers := (ClassNode.profile_of_bare_eq hclass_bare).modifiers
  obtain ⟨hid, hmodifiers⟩ := MemberNode.of_bare_eq hmember_bare
  change n.id = m.id s.unit.name at hid
  change g.member? (m.id s.unit.name) = some n at hmember
  change n.modifiers = m.modifiers at hmodifiers
  have hkey : (⟨n.name, n.descriptor⟩ : MemberKey) = m.key := by
    rw [MemberNode.name, MemberNode.descriptor, hid]
    rfl
  have hname : n.name = m.name := congrArg MemberKey.name hkey
  have hdescriptor : n.descriptor = m.descriptor := congrArg MemberKey.descriptor hkey
  rw [hl.implicit_iff hp hs hm, StandsWithClass]
  simp only [show (m.id s.unit.name).className = s.unit.name from rfl, hclass, hmember,
    Option.some.injEq, exists_eq_left', exists_and_left, hname, hdescriptor, hmod, hmodifiers,
    CompiledUnit.isImplicit, Method.canOverride, Bool.or_eq_true, Bool.and_eq_true,
    decide_eq_true_eq, Bool.not_eq_true', or_assoc, and_assoc]
  rfl

/-- What a live class runs is kept just if it stands with its class or the program reaches it. -/
theorem Linked.keeps_implementation_iff (hp : p.Admissible) (hl : p.Linked g)
    (hnames : ∀ u ∈ p.roster, Text.startsWith u.name "[" = false)
    (hkept : (drain g g.hierarchy (seed g g.hierarchy isRoot)).assignment.keeps (.class_ name) .shell)
    (hi : g.implementation g.hierarchy (.class_ name) key = some id) :
    (g.mark g.hierarchy isRoot).state? id = some .full ↔
      g.StandsWithClass id ∨ g.Reaches isRoot id := by
  obtain ⟨hleast, hrecords⟩ := hl.wellFormed.isLeast_mark isRoot
  obtain ⟨_, _, htracks⟩ := hl.wellFormed.exists_tracks isRoot
  have hA := hleast.1
  obtain ⟨s, hs, x, hx, rfl, rfl, _, howner, _⟩ :=
    hl.declares_implementation hp hA hrecords hnames hkept hi
  have hfull : (g.mark g.hierarchy isRoot).state? (x.id s.unit.name) = some .full ↔
      (drain g g.hierarchy (seed g g.hierarchy isRoot)).assignment.keeps (x.id s.unit.name) .full := by
    rw [← hrecords.keeps, ← CounterTable.isFullyKept_iff, CounterTable.isFullyKept, decide_eq_true_eq]
  have hsource : ∀ source, (g.mark g.hierarchy isRoot).isKept source = true ↔
      (drain g g.hierarchy (seed g g.hierarchy isRoot)).assignment.keeps source .shell := fun source => by
    rw [← hrecords.keeps, CounterTable.isKept_iff]
  obtain ⟨n, hn⟩ : ∃ n, g.member? (x.id s.unit.name) = some n := by
    obtain ⟨_, _, n, _, _, _, hn, _⟩ := implementation_spec hi
    exact ⟨n, hn⟩
  obtain ⟨hnode, hid⟩ := member?_eq_some hn
  have hmem := mem_of_node? hnode
  have hreason : (drain g g.hierarchy (seed g g.hierarchy isRoot)).assignment.keeps
      (x.id s.unit.name) .full ↔
      (drain g g.hierarchy (seed g g.hierarchy isRoot)).assignment.Reason g g.hierarchy isRoot n := by
    rw [← hid]
    exact ⟨Assignment.reason_of_isLeast hleast hl.wellFormed hmem, hA.keeps_of_reason hmem⟩
  rw [hfull, hreason, hl.standsWithClass_iff hp hs hx]
  constructor
  · intro hr
    cases hr with
    | root hprog hroot => exact .inr (.inl ((htracks.roots _).mpr ⟨_, ⟨hmem, hprog, hroot⟩, hid⟩))
    | @edge e he ht hk hsrc =>
      rw [hid] at ht
      rcases hl.edge_to_member he (ht ▸ rfl) hk with huse | himplicit
      · exact .inr (.inr (.inl ⟨e, he, ht, huse, (hsource _).mpr hsrc⟩))
      · obtain ⟨source, target, kind⟩ := e
        obtain rfl : target = x.id s.unit.name := ht
        obtain rfl : kind = .implicit := himplicit
        obtain ⟨s', _, m', _, heq, _⟩ := hl.of_implicit he rfl
        have howner : s'.unit.name = s.unit.name :=
          (congrArg (fun e : Edge => e.target.className) heq).symm
        obtain rfl : source = s.unit.id :=
          (congrArg Edge.source heq).trans (congrArg NodeId.class_ howner)
        exact .inl he
    | dispatch hlive hcall hsub himpl =>
      rw [hid] at himpl
      exact .inr (.inr (.inr ((mem_dispatched hl.wellFormed.functional).mpr
        ⟨_, hlive, _, _, hcall, hsub, himpl⟩)))
  · rintro (himplicit | hroot | ⟨e, he, ht, ⟨use, huse⟩, hsrc⟩ | hdispatch)
    · exact .edge himplicit hid.symm (fun h => by cases h) howner
    · obtain ⟨k, ⟨hk, hprog, hroot⟩, hkid⟩ := (htracks.roots _).mp hroot
      have hsame : k = .member n := Option.some.inj
        ((hl.wellFormed.node?_of_mem hk).symm.trans (hkid ▸ hnode))
      exact .root (hsame ▸ hprog) (hsame ▸ hroot)
    · exact .edge he (ht.trans hid.symm) (fun h => by rw [huse] at h; cases h) ((hsource _).mp hsrc)
    · obtain ⟨class_, hlive, receiver, decl, hcall, hsub, himpl⟩ :=
        (mem_dispatched hl.wellFormed.functional).mp hdispatch
      exact .dispatch hlive hcall hsub (hid ▸ himpl)

end Inherited

/-- A root among what the units declare is kept in full. -/
theorem Linked.keeps_of_isRoot {A : Assignment} {isRoot : Node → Bool} {h : Hierarchy} {n : Node}
    (hl : p.Linked g) (hA : A.Closed g h isRoot) (hn : n ∈ p.skeleton.nodes)
    (hprog : inProgram p.skeleton n = true) (hroot : ∀ k : Node, k.id = n.id → isRoot k = true) :
    A.keeps n.id .full := by
  obtain ⟨k, hk, hbare, _⟩ := hl.core.exists_node? (p.wellFormed_skeleton.node?_of_mem hn)
    (isUnresolved_of_inProgram hprog)
  have hid : k.id = n.id := by rw [← Node.id_bare, hbare, Node.id_bare]
  rw [hl.core.inProgram p.tame_skeleton hl.tame hbare] at hprog
  exact hid ▸ hA.root k (mem_of_node? hk) hprog (hroot k hid)

section Tasks

/-- A class that runs a method of its superclass for an interface of a library, which the superclass
may or may not have above it too. -/
def tasks (direct : Bool) : Program where
  platform := {}
  units := [
    ⟨{ CompiledUnit.blank "a/Base" with
        interfaces := if direct then ["l/Job"] else []
        methods := [.blank "run" "()V"] }, ⟨"in/Base.json"⟩⟩,
    ⟨{ CompiledUnit.blank "a/Task" with
        superclass := some "a/Base"
        interfaces := ["l/Job"] }, ⟨"in/Task.json"⟩⟩,
    ⟨{ CompiledUnit.blank "a/Main" with
        methods := [(Method.blank "main" "()V").extend (.new "a/Task")] }, ⟨"in/Main.json"⟩⟩]
  libraries := [
    { CompiledUnit.blank "l/Job" with
      modifiers := ⟨0x601⟩
      methods := [{ Method.blank "run" "()V" with modifiers := ⟨0x401⟩ }] }]

def tasksMain : NodeId := .method ⟨"a/Main", "main", "()V"⟩

def tasksRun : NodeId := .method ⟨"a/Base", "run", "()V"⟩

def tasksKey : MemberKey := ⟨"run", "()V"⟩

theorem gathered_tasks (direct : Bool) : (tasks direct).Gathered :=
  gathered_iff.mpr (by cases direct <;> exact ⟨by decide +kernel, by decide +kernel, by decide⟩)

/-- A class ranks above the one that it extends. -/
def tasksRank (id : NodeId) : Nat :=
  if id = .class_ "a/Task" then 2 else if id = .class_ "a/Base" then 1 else 0

/-- What the skeleton of the program comes to, and what its bodies lead to. -/
structure TasksSkeleton (direct : Bool) : Prop where
  ranked : ∀ e ∈ (tasks direct).skeleton.edges, tasksRank e.target < tasksRank e.source
  chain : boundedSearch? (fun n => ((tasks direct).skeleton.superclass? n).toList) 9
    ("a/Task" :: (tasks direct).skeleton.typeNames) ["a/Task"] =
      some ["a/Task", "a/Base", objectClass]
  decision : ["a/Task", "a/Base", objectClass].findSome?
    ((tasks direct).skeleton.chainDecision tasksKey) = some (some tasksRun)
  /-- The bodies use no method, and call none. -/
  use : ∀ s ∈ (tasks direct).units, ∀ m ∈ s.unit.methods, ∀ i ∈ m.body,
    ∀ l ∈ i.links s.unit (m.id s.unit.name),
      ∀ e ∈ l.edges (tasks direct).platform (tasks direct).skeleton,
        e = ⟨tasksMain, .class_ "a/Task", .uses .instantiate⟩
  made : ∃ s ∈ (tasks direct).units, s.unit.library = false ∧
    ∃ m ∈ s.unit.methods, ∃ i ∈ m.body, ∃ l ∈ i.links s.unit (m.id s.unit.name),
      ⟨tasksMain, .class_ "a/Task", .uses .instantiate⟩ ∈
        l.edges (tasks direct).platform (tasks direct).skeleton
  plain : ∀ s ∈ (tasks direct).units, ∀ m ∈ s.unit.methods,
    s.unit.isImplicit m = false ∧ isObjectMethod m.key = false
  main : ∃ n ∈ (tasks direct).skeleton.nodes,
    inProgram (tasks direct).skeleton n = true ∧ n.id = tasksMain
  run : ((tasks direct).skeleton.member? tasksRun).map (·.modifiers.isPrivate) = some false
  job : ∃ c ∈ (tasks direct).skeleton.classes, c.name = "l/Job" ∧
    c.origin = .library ∧ ((tasks direct).skeleton.overridable? c tasksKey).isSome = true
  base : ∃ c ∈ (tasks direct).skeleton.classes, c.id = .class_ "a/Base"
  task : ∃ c ∈ (tasks direct).skeleton.classes, c.id = .class_ "a/Task"
  aboveBase : boundedSearch? (tasks direct).skeleton.parents 9
    ((tasks direct).skeleton.nodes.map Node.id) [.class_ "a/Base"] =
      some (.class_ "a/Base" :: if direct then [.class_ "l/Job"] else [])
  aboveTask : boundedSearch? (tasks direct).skeleton.parents 9
    ((tasks direct).skeleton.nodes.map Node.id) [.class_ "a/Task"] =
      some [.class_ "a/Task", .class_ "l/Job", .class_ "a/Base"]

theorem tasksSkeleton (direct : Bool) : TasksSkeleton direct := by
  constructor <;> revert direct <;> decide +kernel

theorem exists_build_tasks (direct : Bool) : ∃ g, (tasks direct).build = .ok g :=
  ⟨_, build_of_ranked (Graph.ranked_of_edges fun e he _ => (tasksSkeleton direct).ranked e he)⟩

theorem superclassChain_skeleton_tasks (direct : Bool) :
    (tasks direct).skeleton.superclassChain "a/Task" = ["a/Task", "a/Base", objectClass] := by
  rw [Graph.superclassChain, breadthFirst_eq_of_boundedSearch? (tasksSkeleton direct).chain]

theorem implementation_tasks (direct : Bool) (h : Hierarchy) :
    (tasks direct).skeleton.implementation h (.class_ "a/Task") tasksKey = some tasksRun := by
  rw [Graph.implementation, show (NodeId.class_ "a/Task").className = "a/Task" from rfl,
    superclassChain_skeleton_tasks, (tasksSkeleton direct).decision]

section

variable {direct : Bool} (hb : (tasks direct).build = .ok g)
include hb

theorem implementation_of_build_tasks :
    g.implementation g.hierarchy (.class_ "a/Task") tasksKey = some tasksRun := by
  have hl := linked_of_build hb
  rw [← hl.core.implementation (tasks direct).tame_skeleton hl.tame (hl.supertypes _).symm]
  exact implementation_tasks direct _

theorem instantiated_tasks : ∃ e ∈ g.edges, e.target = .class_ "a/Task" ∧
    e.kind = .uses .instantiate ∧
      (g.mark g.hierarchy (·.id = tasksMain)).isKept e.source = true := by
  have hl := linked_of_build hb
  obtain ⟨hleast, hrecords⟩ := hl.wellFormed.isLeast_mark (·.id = tasksMain)
  obtain ⟨s, hs, hprog, m, hm, i, hi, l, hlink, he⟩ := (tasksSkeleton direct).made
  refine ⟨⟨tasksMain, .class_ "a/Task", .uses .instantiate⟩,
    (hl.edges _ rfl (fun h => by cases h)).mpr (.body hs hprog hm hi hlink he), rfl, rfl, ?_⟩
  obtain ⟨n, hn, hin, hid⟩ := (tasksSkeleton direct).main
  rw [CounterTable.isKept_iff, hrecords.keeps]
  have hfull := hl.keeps_of_isRoot hleast.1 hn hin fun k hk => decide_eq_true (hk.trans hid)
  rw [hid] at hfull
  exact hleast.1.shell_of_full _ hfull

theorem job_above_tasks (id : NodeId)
    (ha : .class_ "l/Job" ∈ (tasks direct).skeleton.hierarchy.supertypes id) :
    ∃ c ∈ g.classesAbove id, c.origin = .library ∧ (g.overridable? c tasksKey).isSome = true := by
  have hl := linked_of_build hb
  obtain ⟨c, hc, hname, horigin, hover⟩ := (tasksSkeleton direct).job
  have hnode := (tasks direct).wellFormed_skeleton.node?_of_mem (mem_classes.mp hc)
  obtain ⟨n, hn, hbare, _⟩ := hl.core.exists_node? hnode (by simp [isUnresolved, horigin])
  cases n with
  | member _ => cases hbare
  | class_ d =>
    have hbare : d.bare = c.bare := Node.class_.inj hbare
    rw [← hl.supertypes] at ha
    refine ⟨d, List.mem_filterMap.mpr ⟨.class_ "l/Job", ha, ?_⟩,
      (ClassNode.profile_of_bare_eq hbare).origin.trans horigin, ?_⟩
    · have hid : Node.id (.class_ c) = .class_ "l/Job" := congrArg NodeId.class_ hname
      rw [← hid, hn]
      rfl
    · rw [← hl.core.overridable? hbare]
      exact hover

end

theorem public_run_tasks {direct : Bool} (hb : (tasks direct).build = .ok g) :
    ∀ m, g.member? tasksRun = some m → m.modifiers.isPrivate = false := by
  intro m hm
  rcases (linked_of_build hb).core.member?_cases tasksRun with ⟨k, k', hk, hk', hbare⟩ | ⟨_, hnone⟩
  · have hprivate := (tasksSkeleton direct).run
    rw [hk] at hprivate
    rw [Option.some.inj (hm.symm.trans hk'), (MemberNode.of_bare_eq hbare).2]
    exact Option.some.inj hprivate
  · rw [hm] at hnone
    cases hnone

theorem supertypes_base_tasks (direct : Bool) :
    (tasks direct).skeleton.hierarchy.supertypes (.class_ "a/Base") =
      if direct then [.class_ "l/Job"] else [] := by
  rw [(tasks direct).wellFormed_skeleton.supertypes_eq_of_boundedSearch? (tasksSkeleton direct).base
    (tasksSkeleton direct).aboveBase]
  cases direct <;> decide

theorem job_mem_supertypes_tasks (direct : Bool) :
    .class_ "l/Job" ∈ (tasks direct).skeleton.hierarchy.supertypes (.class_ "a/Task") := by
  rw [(tasks direct).wellFormed_skeleton.supertypes_eq_of_boundedSearch? (tasksSkeleton direct).task
    (tasksSkeleton direct).aboveTask]
  decide

/-- Nothing but a root, a use or a class outside the program that is above `a/Base` would keep it. -/
theorem not_kept_run_tasks (hb : (tasks false).build = .ok g) :
    (g.mark g.hierarchy (·.id = tasksMain)).isKept tasksRun = false := by
  have hl := linked_of_build hb
  obtain ⟨hleast, hrecords⟩ := hl.wellFormed.isLeast_mark (·.id = tasksMain)
  have huse : ∀ e ∈ g.edges, ∀ use, e.kind = .uses use →
      e = ⟨tasksMain, .class_ "a/Task", .uses .instantiate⟩ := by
    intro e he use hk
    obtain ⟨s, hs, m, hm, i, hi, l, hlink, he⟩ := hl.body_of_use he hk
    exact (tasksSkeleton false).use s hs m hm i hi l hlink e he
  have hclosed : Assignment.Closed g g.hierarchy (·.id = tasksMain)
      ⟨fun id _ => id ≠ tasksRun, Set.univ, ∅⟩ := {
    shell_of_full := fun _ hid => hid
    member := fun _ _ hid => hid
    unresolved := fun n _ hu hid => by
      cases n with
      | member _ => cases hu
      | class_ c => cases hid
    root := fun n _ _ hr hid => by
      have hmain : n.id = tasksMain := of_decide_eq_true hr
      exact absurd (hid.symm.trans hmain) (by decide)
    root_live := fun _ _ _ _ => trivial
    owner := fun _ _ _ hid => by cases hid
    edge := fun e he _ d hd hid => by
      obtain ⟨state, hstate, rfl⟩ := Option.map_eq_some_iff.mp hd
      have hk : e.kind.propagation ≠ .none := fun hnone => by
        rw [hnone] at hstate
        cases hstate
      rcases hl.edge_to_member he (congrArg NodeId.isClass hid) hk with ⟨use, hu⟩ | himplicit
      · rw [huse e he use hu] at hid
        cases hid
      · obtain ⟨s, hs, m, hm, rfl, hreason⟩ := hl.of_implicit he himplicit
        obtain ⟨himplicit, hobject⟩ := (tasksSkeleton false).plain s hs m hm
        rcases hreason with hreason | ⟨_, hreason | ⟨c, hc, _⟩⟩
        · rw [himplicit] at hreason
          cases hreason
        · rw [hobject] at hreason
          cases hreason
        · have hname : s.unit.name = "a/Base" := congrArg NodeId.className hid
          have hbase : s.unit.id = .class_ "a/Base" := congrArg NodeId.class_ hname
          rw [hbase, classesAbove, hl.supertypes, supertypes_base_tasks] at hc
          cases hc
    instantiate := fun _ _ _ _ => trivial
    call := fun e he _ receiver hk _ => by
      rw [huse e he _ hk] at hk
      cases hk
    dispatch := fun _ _ _ _ hcall => hcall.elim }
  rw [Bool.eq_false_iff]
  intro hk
  rw [CounterTable.isKept_iff, hrecords.keeps] at hk
  exact (hleast.2 hclosed).1 _ _ hk rfl

end Tasks

/-- Code outside the program finds what it may call, as far as the class that declares it tells. Of a
live class, the method that it runs for some key is kept just if it stands with the class that declares
it or the program reaches it. It stands with that class if one outside the program is above that very
class and has an instance method of the key; one above the live class alone does not make it so. -/
theorem kept_iff_of_implementation (hp : p.Gathered) (hb : p.build = .ok g)
    (hnames : ∀ u ∈ p.roster, Text.startsWith u.name "[" = false) (isRoot : Node → Bool)
    {name : String} {key : MemberKey} {id : NodeId}
    (hlive : .class_ name ∈ (g.mark g.hierarchy isRoot).roots ∨
      ∃ e ∈ g.edges, e.target = .class_ name ∧ e.kind = .uses .instantiate ∧
        (g.mark g.hierarchy isRoot).isKept e.source = true)
    (hrun : g.implementation g.hierarchy (.class_ name) key = some id) :
    ((g.mark g.hierarchy isRoot).state? id = some .full ↔
      g.StandsWithClass id ∨ g.Reaches isRoot id) ∧
    (key.name ≠ constructorName → key.name ≠ staticInitializerName →
      (∀ m, g.member? id = some m → m.modifiers.isPrivate = false) →
      ∀ c ∈ g.classesAbove (.class_ id.className), c.isProgram = false →
        (g.overridable? c key).isSome = true →
        (g.mark g.hierarchy isRoot).state? id = some .full) := by
  have hl := linked_of_build hb
  obtain ⟨hleast, hrecords⟩ := hl.wellFormed.isLeast_mark isRoot
  obtain ⟨_, _, htracks⟩ := hl.wellFormed.exists_tracks isRoot
  have hkept : (drain g g.hierarchy (seed g g.hierarchy isRoot)).assignment.keeps
      (.class_ name) .shell := by
    rcases hlive with hroot | ⟨e, he, htarget, hkind, hsource⟩
    · obtain ⟨n, ⟨hn, hprog, hroot⟩, hid⟩ := (htracks.roots _).mp hroot
      exact hid ▸ hleast.1.shell_of_full _ (hleast.1.root n hn hprog hroot)
    · rw [CounterTable.isKept_iff, hrecords.keeps] at hsource
      exact htarget ▸ hleast.1.keeps_target he hsource (by rw [hkind]; nofun)
  have hiff := hl.keeps_implementation_iff hp.admissible hnames hkept hrun
  refine ⟨hiff, fun hconstructor hinitializer hprivate c hc hout hover => hiff.mpr (.inl ?_)⟩
  obtain ⟨owner, d, n, hd, _, hdecl, hn, hstatic, _⟩ := implementation_spec hrun
  obtain ⟨_, _, hmember, _⟩ := declared_eq_some_iff.mp hdecl
  have hid : n.id.member? = some ⟨owner, key.name, key.descriptor⟩ :=
    (member?_eq_some hn).2 ▸ hmember
  have hname : n.name = key.name := by rw [MemberNode.name, hid]; rfl
  have hdescriptor : n.descriptor = key.descriptor := by rw [MemberNode.descriptor, hid]; rfl
  refine ⟨d, n, (declared_spec hdecl).2 ▸ hd, hn,
    .inr (.inr ⟨hstatic, hprivate n hn, hname ▸ hconstructor, hname ▸ hinitializer, .inr ⟨c, hc, ?_⟩⟩)⟩
  rw [hname, hdescriptor, overridesOutside, hout, hover]
  rfl

theorem kept_iff_of_implementation_tasks : (tasks true).Gathered ∧
    (∀ u ∈ (tasks true).roster, Text.startsWith u.name "[" = false) ∧
    ∃ g, (tasks true).build = .ok g ∧
      (∃ e ∈ g.edges, e.target = .class_ "a/Task" ∧ e.kind = .uses .instantiate ∧
        (g.mark g.hierarchy (·.id = tasksMain)).isKept e.source = true) ∧
      g.implementation g.hierarchy (.class_ "a/Task") tasksKey = some tasksRun ∧
      (g.mark g.hierarchy (·.id = tasksMain)).state? tasksRun = some .full := by
  have hnames : ∀ u ∈ (tasks true).roster, Text.startsWith u.name "[" = false := by decide +kernel
  obtain ⟨g, hb⟩ := exists_build_tasks true
  have hlive := instantiated_tasks hb
  have hrun := implementation_of_build_tasks hb
  obtain ⟨c, hc, horigin, hover⟩ := job_above_tasks hb (.class_ "a/Base")
    (by rw [supertypes_base_tasks]; exact List.mem_singleton.mpr rfl)
  refine ⟨gathered_tasks true, hnames, g, hb, hlive, hrun, ?_⟩
  have hout : c.isProgram = false := by rw [ClassNode.isProgram, horigin]; rfl
  exact (kept_iff_of_implementation (gathered_tasks true) hb hnames (·.id = tasksMain)
    (.inr hlive) hrun).2 (by decide) (by decide) (public_run_tasks hb) c hc hout hover

/-- An interface of a library above the live class alone does not keep what the class runs for it. -/
theorem inherited_run_not_kept : (tasks false).Gathered ∧
    (∀ u ∈ (tasks false).roster, Text.startsWith u.name "[" = false) ∧
    ∃ g, (tasks false).build = .ok g ∧
      (∃ e ∈ g.edges, e.target = .class_ "a/Task" ∧ e.kind = .uses .instantiate ∧
        (g.mark g.hierarchy (·.id = tasksMain)).isKept e.source = true) ∧
      (∃ c ∈ g.classesAbove (.class_ "a/Task"), c.origin = .library ∧
        (g.overridable? c tasksKey).isSome = true) ∧
      g.implementation g.hierarchy (.class_ "a/Task") tasksKey = some tasksRun ∧
      (g.mark g.hierarchy (·.id = tasksMain)).isKept tasksRun = false := by
  obtain ⟨g, hb⟩ := exists_build_tasks false
  exact ⟨gathered_tasks false, by decide +kernel, g, hb, instantiated_tasks hb,
    job_above_tasks hb _ (job_mem_supertypes_tasks false), implementation_of_build_tasks hb,
    not_kept_run_tasks hb⟩

end Program

end Winnow
