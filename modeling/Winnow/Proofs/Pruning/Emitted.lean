import Winnow.Mask
import Winnow.Proofs.Marking.Run
import Winnow.Proofs.Program.Regular
import Winnow.Proofs.Program.Thinning

/-!
# What pruning emits

A closed assignment keeps with every class the classes above it, with every member
its owner, and with every node whatever it mentions. So what is written of a unit
has all its interfaces and exactly the kept members, and the program of all that is
written is what is left of the program when the rest is taken away.
-/
namespace Winnow

namespace CounterTable

variable {t : CounterTable} {id : NodeId}

theorem isKept_iff : t.isKept id = true ↔ t.keeps id .shell := by
  rw [isKept, Option.isSome_iff_exists]
  exact ⟨fun ⟨r, hr⟩ => ⟨r, hr, KeepState.shell_le r⟩, fun ⟨r, hr, _⟩ => ⟨r, hr⟩⟩

theorem isFullyKept_iff : t.isFullyKept id = true ↔ t.keeps id .full := by
  rw [isFullyKept, decide_eq_true_eq]
  constructor
  · exact fun h => ⟨.full, h, KeepState.le_refl _⟩
  · rintro ⟨r, hr, hle⟩
    rw [hr, KeepState.full_le_iff.mp hle]

/-- The table says what an assignment keeps of a graph. -/
structure Records (t : CounterTable) (g : Graph) (A : Assignment) : Prop where
  keeps : ∀ id s, t.keeps id s ↔ A.keeps id s
  within : ∀ id s, A.keeps id s → g.contains id = true

end CounterTable

/-- A kept node keeps whatever its edges propagate to. -/
theorem Assignment.Closed.keeps_target {A : Assignment} {g : Graph} {h : Hierarchy}
    {isRoot : Node → Bool} (hA : A.Closed g h isRoot) {e : Edge} (he : e ∈ g.edges)
    (hs : A.keeps e.source .shell) (hk : e.kind.propagation ≠ .none) :
    A.keeps e.target .shell := by
  have hdemand : ∃ state, e.demand? = some ⟨e.target, state⟩ := by
    unfold Edge.demand?
    cases hp : e.kind.propagation with
    | none => exact absurd hp hk
    | shell => exact ⟨.shell, rfl⟩
    | full => exact ⟨.full, rfl⟩
  obtain ⟨state, hd⟩ := hdemand
  exact hA.shell_of_keeps (hA.edge e he hs _ hd)

namespace KeepMask

variable {m : KeepMask}

theorem retain_subset {names : SortedSet String} {annotations : List AnnotationUse} :
    retain names annotations ⊆ annotations := fun _ ha => List.mem_of_mem_filter ha

theorem annotationsOf_subset {key : MemberKey} {annotations : List AnnotationUse} :
    m.annotationsOf key annotations ⊆ annotations := by
  unfold annotationsOf
  split
  · exact retain_subset
  · exact List.nil_subset _

/-- A mask that names all interfaces and lists the kept members leaves exactly these. -/
theorem thins_apply {kept : NodeId → Prop} {u : CompiledUnit} (hi : m.interfaces = u.interfaces)
    (hn : m.innerClasses ⊆ u.innerClasses)
    (hm : ∀ x ∈ u.methods, x.key ∈ m.methods ↔ kept (x.id u.name))
    (hf : ∀ x ∈ u.fields, x.key ∈ m.fields ↔ kept (x.id u.name)) : u.Thins kept (m.apply u) where
  name := rfl
  modifiers := rfl
  superclass := rfl
  interfaces := hi
  library := rfl
  annotations := retain_subset
  innerClasses := hn
  methodKeys := by
    rw [apply, List.map_map]
    exact List.filter_sublist.map _
  fieldKeys := by
    rw [apply, List.map_map]
    exact List.filter_sublist.map _
  method x hx hkept := by
    rw [apply, List.map_map]
    exact List.mem_map.mpr ⟨x, List.mem_filter.mpr ⟨hx, by simpa using (hm x hx).mpr hkept⟩, rfl⟩
  field x hx hkept := by
    rw [apply, List.map_map]
    exact List.mem_map.mpr ⟨x, List.mem_filter.mpr ⟨hx, by simpa using (hf x hx).mpr hkept⟩, rfl⟩
  of_method k hk := by
    obtain ⟨x, hx, rfl⟩ := List.mem_map.mp hk
    obtain ⟨hx, hkey⟩ := List.mem_filter.mp hx
    exact ⟨x, hx, (hm x hx).mp (by simpa using hkey), annotationsOf_subset, rfl⟩
  of_field k hk := by
    obtain ⟨x, hx, rfl⟩ := List.mem_map.mp hk
    obtain ⟨hx, hkey⟩ := List.mem_filter.mp hx
    exact ⟨x, hx, (hf x hx).mp (by simpa using hkey), annotationsOf_subset, rfl⟩

end KeepMask

/-- What is written of a unit, if anything is. -/
def Pruning.emitted? (π : Pruning) (u : CompiledUnit) : Option CompiledUnit :=
  ((π.mask? u.name).filter π.writes).map (·.apply u)

namespace Pruning

variable {π : Pruning} {c : ClassNode} {state : KeepState} {key : MemberKey} {owner : String}

theorem mem_keptMembers {m : MemberNode} : m ∈ π.keptMembers c ↔
    m.id ∈ c.members ∧ π.table.keeps m.id .full ∧ π.graph.member? m.id = some m := by
  simp only [keptMembers, List.mem_filterMap, List.mem_filter, CounterTable.isFullyKept_iff]
  constructor
  · rintro ⟨id, ⟨hid, hfull⟩, hm⟩
    obtain ⟨_, rfl⟩ := Graph.member?_eq_some hm
    exact ⟨hid, hfull, hm⟩
  · rintro ⟨hid, hfull, hm⟩
    exact ⟨m.id, ⟨hid, hfull⟩, hm⟩

/-- The members of a class are told apart by what they are and by their keys. -/
theorem mem_buildMask (hown : ∀ id ∈ c.members, id.isClass = false ∧ id.className = owner) :
    (key ∈ (π.buildMask c state).methods ↔
      ∃ m ∈ π.keptMembers c, m.id = .method ⟨owner, key.name, key.descriptor⟩) ∧
    (key ∈ (π.buildMask c state).fields ↔
      ∃ m ∈ π.keptMembers c, m.id = .field ⟨owner, key.name, key.descriptor⟩) := by
  simp only [buildMask, SortedSet.mem_ofList, List.mem_map, List.mem_filter, and_assoc]
  have hmember : ∀ m ∈ π.keptMembers c,
      (m.isMethod = true ∧ (⟨m.name, m.descriptor⟩ : MemberKey) = key ↔
        m.id = .method ⟨owner, key.name, key.descriptor⟩) ∧
      ((!m.isMethod) = true ∧ (⟨m.name, m.descriptor⟩ : MemberKey) = key ↔
        m.id = .field ⟨owner, key.name, key.descriptor⟩) := by
    intro m hm
    obtain ⟨hclass, hname⟩ := hown m.id (mem_keptMembers.mp hm).1
    unfold MemberNode.isMethod MemberNode.name MemberNode.descriptor
    obtain ⟨n, d⟩ := key
    generalize m.id = id at hclass hname
    obtain _ | ⟨o, n', d'⟩ | ⟨o, n', d'⟩ := id
    · cases hclass
    all_goals
      obtain rfl : o = owner := hname
      simp [NodeId.kind, NodeId.member?]
  exact ⟨exists_congr fun m => and_congr_right fun hm => (hmember m hm).1,
    exists_congr fun m => and_congr_right fun hm => (hmember m hm).2⟩

end Pruning

namespace Program

open Graph

variable {p : Program} {g : Graph} {s : SourcedUnit} {name : String} {id : NodeId} {e : Edge}

/-- The class of a unit stands in a linked graph as it is declared, its signature apart. -/
theorem Linked.class?_unit (hp : p.Admissible) (hl : p.Linked g) (hs : s ∈ p.units) :
    ∃ c, g.class? s.unit.name = some c ∧ c.bare = (s.unit.fullNode (.program s.source)).bare := by
  have hc := class?_skeleton hp hs
  refine (hl.core.class?_of_eq_some p.tame_skeleton hl.tame hc).resolve_right fun hb => ?_
  cases congrArg ClassNode.origin hb

/-- So do its members. -/
theorem Linked.member?_unit (hp : p.Admissible) (hl : p.Linked g) (hs : s ∈ p.units)
    {n : MemberNode} (hn : n ∈ s.unit.memberNodes) :
    ∃ k, g.member? n.id = some k ∧ k.bare = n.bare := by
  have hm : p.skeleton.member? n.id = some n := by
    rw [p.skeleton_extension.member?]
    exact member?_declared hp hs hn
  rcases hl.core.member?_cases n.id with ⟨n', k, hn', hk, hb⟩ | ⟨hnone, _⟩
  · obtain rfl := Option.some.inj (hm.symm.trans hn')
    exact ⟨k, hk, hb⟩
  · rw [hm] at hnone
    cases hnone

theorem contains_declared_of_mem_names (hn : name ∈ p.names) :
    p.declared.contains (.class_ name) = true := by
  obtain ⟨s, hs, rfl⟩ := List.mem_map.mp hn
  exact contains_declared_class.mpr ⟨s.unit, unit_mem_roster hs, rfl⟩

/-- The hierarchy of a linked graph is the one that the units say. -/
theorem Linked.mem_edges_of_supertype (hl : p.Linked g) {u : CompiledUnit} (hu : u ∈ p.roster)
    (he : e ∈ u.supertypeEdges) : e ∈ g.edges ∧ e.kind.isHierarchy = true := by
  have hskeleton := mem_edges_skeleton.mpr ⟨u, hu, he⟩
  have hladder : e ∈ g.ladder := by
    rw [hl.ladder, ladder_skeleton]
    exact hskeleton
  exact List.mem_filter.mp hladder

section Kept

variable {A : Assignment} {isRoot : Node → Bool} {h : Hierarchy} {t : CounterTable}

/-- The members that a mask lists are those that are kept. -/
theorem exists_keptMember_iff (hA : A.Closed g h isRoot) (ht : t.Records g A) {c : ClassNode}
    (hid : id ∈ c.members) (hclass : id.isClass = false) :
    (∃ m ∈ Pruning.keptMembers ⟨g, t, false⟩ c, m.id = id) ↔ A.keeps id .shell := by
  constructor
  · rintro ⟨m, hm, rfl⟩
    exact hA.shell_of_full _ ((ht.keeps _ _).mp (Pruning.mem_keptMembers.mp hm).2.1)
  · intro hkept
    obtain ⟨m, hm⟩ := member?_of_contains hclass (ht.within id .shell hkept)
    obtain ⟨hn, rfl⟩ := member?_eq_some hm
    have hfull := hA.member m (mem_of_node? hn) hkept
    exact ⟨m, Pruning.mem_keptMembers.mpr ⟨hid, (ht.keeps _ _).mpr hfull, hm⟩, rfl⟩

variable (hl : p.Linked g) (hA : A.Closed g h isRoot) (ht : t.Records g A)
include hl hA ht

theorem Linked.coherent (hnames : ∀ u ∈ p.roster, Text.startsWith u.name "[" = false) :
    p.Coherent (A.keeps · .shell) where
  names := hnames
  upward u hu hkept e he := by
    obtain ⟨hmem, hkind⟩ := hl.mem_edges_of_supertype hu he
    refine hA.keeps_target hmem ?_ ?_
    · rwa [(CompiledUnit.of_mem_supertypeEdges he).1]
    · cases hk : e.kind <;> simp_all [EdgeKind.isHierarchy, EdgeKind.propagation]
  owner id hkept := by
    obtain ⟨n, hn⟩ := contains_iff_node?.mp (ht.within id .shell hkept)
    have hid := id_of_node? hn
    cases n with
    | class_ c =>
      rw [← hid] at hkept ⊢
      exact hkept
    | member m =>
      rw [← hid] at hkept ⊢
      exact hA.owner m (mem_of_node? hn) hkept

omit hA in
/-- All interfaces of a kept class stay named. -/
theorem Linked.interfaces_buildMask (hp : p.Admissible) (hc : p.Coherent (A.keeps · .shell))
    (hs : s ∈ p.units) (hkept : A.keeps s.unit.id .shell) :
    s.unit.interfaces.filter (Pruning.survives ⟨g, t, false⟩) = s.unit.interfaces := by
  refine List.filter_eq_self.mpr fun above ha => ?_
  unfold Pruning.survives
  cases hclass : g.class? above with
  | none => rfl
  | some c =>
    cases hprog : c.isProgram with
    | false => simp [hprog]
    | true =>
      have hname := hl.mem_names_of_isProgram hclass hprog
      have habove := hc.sound_above hp (unit_mem_roster hs) hkept (.inr ha)
        (contains_declared_of_mem_names hname)
      have hid : c.id = .class_ above := by rw [ClassNode.id, (class?_eq_some hclass).2]
      have hisKept : t.isKept c.id = true := by
        rw [CounterTable.isKept_iff, ht.keeps, hid]
        exact habove
      simp [hisKept]

theorem Linked.thins_buildMask (hp : p.Admissible) (hc : p.Coherent (A.keeps · .shell))
    (hs : s ∈ p.units) (hkept : A.keeps s.unit.id .shell) {c : ClassNode}
    (hclass : g.class? s.unit.name = some c) (state : KeepState) :
    s.unit.Thins (A.keeps · .shell) ((Pruning.buildMask ⟨g, t, false⟩ c state).apply s.unit) := by
  obtain ⟨d, hd, hbare⟩ := hl.class?_unit hp hs
  obtain rfl := Option.some.inj (hclass.symm.trans hd)
  have hinterfaces := (ClassNode.profile_of_bare_eq hbare).interfaces
  have hmembers := ClassNode.members_of_bare_eq hbare
  have hinner : c.innerClasses = s.unit.innerClasses := congrArg ClassNode.innerClasses hbare
  have hmem : ∀ id, id ∈ c.members ↔ id ∈ s.unit.nodeIds ∧ id.isClass = false := by
    intro id
    rw [hmembers]
    exact CompiledUnit.mem_members_fullNode
  have hown : ∀ id ∈ c.members, id.isClass = false ∧ id.className = s.unit.name := fun id hid =>
    ⟨((hmem id).mp hid).2, CompiledUnit.className_of_mem_nodeIds ((hmem id).mp hid).1⟩
  refine KeepMask.thins_apply ?_ ?_ (fun m hm => ?_) fun f hf => ?_
  · show c.interfaces.filter _ = _
    rw [hinterfaces]
    exact hl.interfaces_buildMask ht hp hc hs hkept
  · rw [← hinner]
    exact fun _ hr => List.mem_of_mem_filter hr
  · exact (Pruning.mem_buildMask hown).1.trans (exists_keptMember_iff hA ht
      ((hmem _).mpr ⟨CompiledUnit.method_mem_nodeIds hm, rfl⟩) rfl)
  · exact (Pruning.mem_buildMask hown).2.trans (exists_keptMember_iff hA ht
      ((hmem _).mpr ⟨CompiledUnit.field_mem_nodeIds hf, rfl⟩) rfl)

/-- What is written is what is left when all else is taken away. -/
theorem Linked.thinning (hp : p.Admissible)
    (hnames : ∀ u ∈ p.roster, Text.startsWith u.name "[" = false) :
    p.Thinning (A.keeps · .shell) (Pruning.emitted? ⟨g, t, false⟩) where
  toCoherent := hl.coherent hA ht hnames
  left s hs hkept := by
    obtain ⟨c, hc, hbare⟩ := hl.class?_unit hp hs
    have hprog : c.isProgram = true := (ClassNode.profile_of_bare_eq hbare).isProgram
    have hid : c.id = s.unit.id := by rw [ClassNode.id, (class?_eq_some hc).2]; rfl
    obtain ⟨state, hstate, _⟩ := (ht.keeps _ _).mpr hkept
    refine ⟨(Pruning.buildMask ⟨g, t, false⟩ c state).apply s.unit, ?_⟩
    simp [Pruning.emitted?, Pruning.mask?, hc, hprog, hid, hstate, Pruning.writes, Option.filter]
  thins s hs v hv := by
    obtain ⟨mask, hmask, rfl⟩ := Option.map_eq_some_iff.mp hv
    obtain ⟨hmask, _⟩ := Option.filter_eq_some_iff.mp hmask
    obtain ⟨c, hc, hmask⟩ := Option.bind_eq_some_iff.mp hmask
    obtain ⟨state, hstate, hmask⟩ := Option.bind_eq_some_iff.mp hmask
    obtain ⟨hc, _⟩ := Option.filter_eq_some_iff.mp hc
    obtain rfl := Option.some.inj hmask
    have hid : c.id = s.unit.id := by rw [ClassNode.id, (class?_eq_some hc).2]; rfl
    have hkept : A.keeps s.unit.id .shell := by
      rw [← ht.keeps, ← hid]
      exact ⟨state, hstate, KeepState.shell_le _⟩
    exact ⟨hkept, hl.thins_buildMask hA ht hp (hl.coherent hA ht hnames) hs hkept hc state⟩

end Kept

end Program

end Winnow
