import Winnow.Proofs.Graph.Thinning
import Winnow.Proofs.Program.Declared
import Winnow.Proofs.Program.Skeleton

/-!
# Programs with classes and members left out

If the classes above a kept class are kept, and all their interfaces stay named,
then a program without the rest still fits together: it is accepted, its kept
classes stand in the same place, and its look-ups are those of the whole program
less what is left out.
-/
namespace Winnow

namespace Link

/-- The class that a link looks up by its name. -/
def className? : Link → Option String
  | .supertype _ _ name | .mention _ _ name | .lookup _ name _ _ => Descriptor.elementClass name
  | .call _ _ start _ _ => some start
  | .access _ owner _ => some owner
  | .known _ => none

end Link

namespace CompiledUnit

/-- Everything that a unit says about how its nodes depend on others, overriding apart. -/
def links (u : CompiledUnit) : List Link := u.hierarchyLinks ++ u.declarationLinks ++ u.bodyLinks

/-- The second unit is the first one without the members that are not kept, and perhaps without
some of the annotations and of the entries in the table of nested types. -/
structure Thins (kept : NodeId → Prop) (u v : CompiledUnit) : Prop where
  name : v.name = u.name
  modifiers : v.modifiers = u.modifiers
  superclass : v.superclass = u.superclass
  interfaces : v.interfaces = u.interfaces
  library : v.library = u.library
  annotations : v.annotations ⊆ u.annotations
  innerClasses : v.innerClasses ⊆ u.innerClasses
  methodKeys : (v.methods.map Method.key).Sublist (u.methods.map Method.key)
  fieldKeys : (v.fields.map Field.key).Sublist (u.fields.map Field.key)
  method : ∀ m ∈ u.methods, kept (m.id u.name) → m.key ∈ v.methods.map Method.key
  field : ∀ f ∈ u.fields, kept (f.id u.name) → f.key ∈ v.fields.map Field.key
  of_method : ∀ k ∈ v.methods, ∃ m ∈ u.methods, kept (m.id u.name) ∧
    k.annotations ⊆ m.annotations ∧ k = { m with annotations := k.annotations }
  of_field : ∀ k ∈ v.fields, ∃ f ∈ u.fields, kept (f.id u.name) ∧
    k.annotations ⊆ f.annotations ∧ k = { f with annotations := k.annotations }

variable {kept : NodeId → Prop} {u v : CompiledUnit} {l : Link} {id : NodeId}

namespace Thins

theorem id_eq (h : u.Thins kept v) : v.id = u.id := by rw [CompiledUnit.id, CompiledUnit.id, h.name]

theorem supertypeEdges (h : u.Thins kept v) : v.supertypeEdges = u.supertypeEdges := by
  unfold CompiledUnit.supertypeEdges
  rw [h.id_eq, h.superclass, h.interfaces]

/-- A member that is left was there before, and is kept. -/
theorem of_mem_memberNodes (h : u.Thins kept v) {k : MemberNode} (hk : k ∈ v.memberNodes) :
    kept k.id ∧ ∃ m ∈ u.memberNodes, m.id = k.id ∧ k.modifiers = m.modifiers := by
  rcases List.mem_append.mp hk with hk | hk
  · obtain ⟨k, hleft, rfl⟩ := List.mem_map.mp hk
    obtain ⟨m, hm, hkept, _, heq⟩ := h.of_method k hleft
    have hid : k.id v.name = m.id u.name := by rw [heq, h.name]; rfl
    refine ⟨?_, m.node u.name, List.mem_append_left _ (List.mem_map_of_mem hm), hid.symm, ?_⟩
    · show kept (k.id v.name)
      rwa [hid]
    · show k.modifiers = m.modifiers
      rw [heq]
  · obtain ⟨k, hleft, rfl⟩ := List.mem_map.mp hk
    obtain ⟨f, hf, hkept, _, heq⟩ := h.of_field k hleft
    have hid : k.id v.name = f.id u.name := by rw [heq, h.name]; rfl
    refine ⟨?_, f.node u.name, List.mem_append_right _ (List.mem_map_of_mem hf), hid.symm, ?_⟩
    · show kept (k.id v.name)
      rwa [hid]
    · show k.modifiers = f.modifiers
      rw [heq]

/-- A member that is kept is left. -/
theorem mem_memberNodes (h : u.Thins kept v) {m : MemberNode} (hm : m ∈ u.memberNodes)
    (hkept : kept m.id) : ∃ k ∈ v.memberNodes, k.id = m.id := by
  rcases List.mem_append.mp hm with hm | hm
  · obtain ⟨m, hmethod, rfl⟩ := List.mem_map.mp hm
    obtain ⟨k, hk, hkey⟩ := List.mem_map.mp (h.method m hmethod hkept)
    refine ⟨k.node v.name, List.mem_append_left _ (List.mem_map_of_mem hk), ?_⟩
    have hname : k.name = m.name := congrArg MemberKey.name hkey
    have hdescriptor : k.descriptor = m.descriptor := congrArg MemberKey.descriptor hkey
    show k.id v.name = m.id u.name
    rw [Method.id, Method.id, h.name, hname, hdescriptor]
  · obtain ⟨f, hf, rfl⟩ := List.mem_map.mp hm
    obtain ⟨k, hk, hkey⟩ := List.mem_map.mp (h.field f hf hkept)
    refine ⟨k.node v.name, List.mem_append_right _ (List.mem_map_of_mem hk), ?_⟩
    have hname : k.name = f.name := congrArg MemberKey.name hkey
    have hdescriptor : k.descriptor = f.descriptor := congrArg MemberKey.descriptor hkey
    show k.id v.name = f.id u.name
    rw [Field.id, Field.id, h.name, hname, hdescriptor]

theorem check (h : u.Thins kept v) (hu : u.check = .ok ()) : v.check = .ok () := by
  refine check_of_sublist hu h.name h.superclass ?_ h.methodKeys h.fieldKeys
  rw [h.name, h.interfaces]
  exact not_mem_interfaces hu

theorem sameHead (h : u.Thins kept v) {origin : Origin} (ho : origin.isProgram = true) :
    (u.fullNode origin).SameHead (v.fullNode origin) where
  modifiers := h.modifiers
  superclass := h.superclass
  interfaces := h.interfaces
  isProgram := rfl
  isPlaceholder := by
    have hplaceholder : ∀ u : CompiledUnit, (u.fullNode origin).isPlaceholder = false := by
      intro u
      have hprogram : (u.fullNode origin).isProgram = true := ho
      simp [ClassNode.isPlaceholder, hprogram]
    rw [hplaceholder, hplaceholder]

section Links

variable (h : u.Thins kept v) (hu : kept u.id)
include h

theorem instruction_links (i : Instruction) (source : NodeId) : i.links v source = i.links u source := by
  have hstart : ∀ d target, Instruction.searchStart v d target = Instruction.searchStart u d target := by
    intro d target
    unfold Instruction.searchStart
    rw [h.name, h.superclass]
  cases i with
  | invoke d target => simp only [Instruction.links, hstart]
  | field _ | new _ | type _ | classLiteral _ | reflect _ _ _ => rfl

include hu

theorem of_mem_methodLinks {k : Method} (hk : k ∈ v.methods) (hl : l ∈ v.methodLinks k) :
    l ∈ u.methods.flatMap u.methodLinks ∧ kept l.source := by
  obtain ⟨m, hm, hkept, hsub, heq⟩ := h.of_method k hk
  have hunit : v.methodLinks k = u.methodLinks k := by
    unfold methodLinks isImplicit
    rw [h.id_eq, h.name, h.modifiers]
  have hl : l ∈ u.methodLinks m := by
    rw [hunit, heq] at hl
    unfold methodLinks at hl ⊢
    simp only [List.mem_cons, List.mem_append, List.mem_flatMap] at hl ⊢
    refine hl.imp_left (Or.imp_left (Or.imp_right ?_))
    rintro ⟨a, ha, hal⟩
    exact ⟨a, hsub ha, hal⟩
  refine ⟨List.mem_flatMap.mpr ⟨m, hm, hl⟩, ?_⟩
  rcases declarationLink_method hl with hd | hd
  · rwa [hd.source_eq]
  · rwa [hd.source_eq]

theorem of_mem_fieldLinks {k : Field} (hk : k ∈ v.fields) (hl : l ∈ v.fieldLinks k) :
    l ∈ u.fields.flatMap u.fieldLinks ∧ kept l.source := by
  obtain ⟨f, hf, hkept, hsub, heq⟩ := h.of_field k hk
  have hunit : v.fieldLinks k = u.fieldLinks k := by
    unfold fieldLinks
    rw [h.id_eq, h.name]
  have hl : l ∈ u.fieldLinks f := by
    rw [hunit, heq] at hl
    unfold fieldLinks at hl ⊢
    simp only [List.mem_cons, List.mem_append, List.mem_flatMap] at hl ⊢
    refine hl.imp_right ?_
    rintro ⟨a, ha, hal⟩
    exact ⟨a, hsub ha, hal⟩
  refine ⟨List.mem_flatMap.mpr ⟨f, hf, hl⟩, ?_⟩
  rcases declarationLink_field hl with hd | hd
  · rwa [hd.source_eq]
  · rwa [hd.source_eq]

theorem of_mem_declarationLinks (hl : l ∈ v.declarationLinks) :
    l ∈ u.declarationLinks ∧ kept l.source := by
  unfold declarationLinks outerClasses at hl ⊢
  rw [h.id_eq, h.name] at hl
  simp only [List.mem_append] at hl ⊢
  rcases hl with ((hl | hl) | hl) | hl
  · obtain ⟨a, ha, hal⟩ := List.mem_flatMap.mp hl
    refine ⟨.inl (.inl (.inl (List.mem_flatMap.mpr ⟨a, h.annotations ha, hal⟩))), ?_⟩
    rwa [(AnnotationUse.declarationLink hal).source_eq]
  · obtain ⟨name, hname, rfl⟩ := List.mem_map.mp hl
    obtain ⟨r, hr, hrname⟩ := List.mem_filterMap.mp hname
    obtain ⟨hr, hinner⟩ := List.mem_filter.mp hr
    refine ⟨.inl (.inl (.inr (List.mem_map_of_mem ?_))), hu⟩
    exact List.mem_filterMap.mpr ⟨r, List.mem_filter.mpr ⟨h.innerClasses hr, hinner⟩, hrname⟩
  · obtain ⟨k, hk, hl⟩ := List.mem_flatMap.mp hl
    obtain ⟨hmem, hkept⟩ := h.of_mem_methodLinks hu hk hl
    exact ⟨.inl (.inr hmem), hkept⟩
  · obtain ⟨k, hk, hl⟩ := List.mem_flatMap.mp hl
    obtain ⟨hmem, hkept⟩ := h.of_mem_fieldLinks hu hk hl
    exact ⟨.inr hmem, hkept⟩

/-- Whatever the unit still looks up, it looked up before, and from a node that is kept. -/
theorem of_mem_links (hl : l ∈ v.links) {name : String} (hn : l.className? = some name) :
    l ∈ u.links ∧ kept l.source := by
  rcases List.mem_append.mp hl with hl | hl
  · rcases List.mem_append.mp hl with hl | hl
    · have hlinks : v.hierarchyLinks = u.hierarchyLinks := by
        unfold hierarchyLinks
        rw [h.id_eq, h.superclass, h.interfaces]
      rw [hlinks] at hl
      refine ⟨List.mem_append_left _ (List.mem_append_left _ hl), ?_⟩
      rwa [(Program.hierarchyLinks_spec hl).2]
    · obtain ⟨hmem, hkept⟩ := h.of_mem_declarationLinks hu hl
      exact ⟨List.mem_append_left _ (List.mem_append_right _ hmem), hkept⟩
  · rcases of_mem_bodyLinks hl with ⟨_, _, _, rfl⟩ | ⟨hlib, k, hk, i, hi, hl⟩
    · cases hn
    · obtain ⟨m, hm, hkept, _, heq⟩ := h.of_method k hk
      have hid : k.id v.name = m.id u.name := by rw [heq, h.name]; rfl
      have hbody : k.body = m.body := by rw [heq]
      rw [h.instruction_links, hid] at hl
      rw [hbody] at hi
      refine ⟨List.mem_append_right _ (instruction_link_mem (h.library ▸ hlib) hm hi hl), ?_⟩
      rwa [(Instruction.bodyLink hl).source_eq]

end Links

end Thins

end CompiledUnit

namespace Program

open Graph

/-- What is left of some units, each under its path. -/
def leftOf (f : CompiledUnit → Option CompiledUnit) (units : List SourcedUnit) : List SourcedUnit :=
  units.filterMap fun s => (f s.unit).map (⟨·, s.source⟩)

/-- The program of what is left of each unit, with the libraries that count. -/
def thinned (p : Program) (f : CompiledUnit → Option CompiledUnit) : Program :=
  { p with units := leftOf f p.units, libraries := p.visibleLibraries }

/-- What is kept of a program hangs together: members with their classes, and classes with those
above them. -/
structure Coherent (p : Program) (kept : NodeId → Prop) : Prop where
  /-- No class has the name of an array. -/
  names : ∀ u ∈ p.roster, Text.startsWith u.name "[" = false
  upward : ∀ u ∈ p.roster, kept u.id → ∀ e ∈ u.supertypeEdges, kept e.target
  owner : ∀ id, kept id → kept (.class_ id.className)

/-- What is kept hangs together, and is what is left of each unit. -/
structure Thinning (p : Program) (kept : NodeId → Prop) (f : CompiledUnit → Option CompiledUnit) :
    Prop extends p.Coherent kept where
  left : ∀ s ∈ p.units, kept s.unit.id → ∃ v, f s.unit = some v
  thins : ∀ s ∈ p.units, ∀ v, f s.unit = some v → kept s.unit.id ∧ s.unit.Thins kept v

variable {p : Program} {kept : NodeId → Prop} {f : CompiledUnit → Option CompiledUnit}
  {name : String} {id : NodeId} {s t : SourcedUnit}

/-- The names of which a kept class may speak: if a unit has the name, it is kept. -/
def Sound (p : Program) (kept : NodeId → Prop) (name : String) : Prop :=
  p.declared.contains (.class_ name) = true → kept (.class_ name)

theorem contains_declared_class : p.declared.contains (.class_ name) = true ↔
    ∃ u ∈ p.roster, u.name = name := by
  rw [contains_declared_iff]
  refine exists_congr fun u => and_congr_right fun _ => ⟨fun h => ?_, fun h => ?_⟩
  · exact (CompiledUnit.className_of_mem_nodeIds h).symm
  · exact h ▸ u.id_mem_nodeIds

/-- A kept class that stands in the hierarchy of the program and of what is left of it. -/
def Shares (p : Program) (kept : NodeId → Prop) (f : CompiledUnit → Option CompiledUnit)
    (id : NodeId) : Prop :=
  (∃ name, id = .class_ name) ∧ kept id ∧ p.skeleton.contains id = true ∧
    (p.thinned f).skeleton.contains id = true

theorem parents_eq_nil (hd : p.declared.contains (.class_ name) = false) :
    p.skeleton.parents (.class_ name) = [] := by
  refine List.map_eq_nil_iff.mpr (List.filter_eq_nil_iff.mpr fun e he => ?_)
  obtain ⟨he, hsource⟩ := mem_outgoing.mp he
  obtain ⟨u, hu, he⟩ := mem_edges_skeleton.mp he
  have heq : u.id = .class_ name := (CompiledUnit.of_mem_supertypeEdges he).1.symm.trans hsource
  rw [contains_declared_class.mpr ⟨u, hu, NodeId.class_.inj heq⟩] at hd
  cases hd

theorem mem_units_thinned :
    t ∈ (p.thinned f).units ↔ ∃ s ∈ p.units, ∃ v, f s.unit = some v ∧ t = ⟨v, s.source⟩ := by
  simp only [thinned, leftOf, List.mem_filterMap, Option.map_eq_some_iff, @eq_comm _ _ t]

namespace Thinning

section Accepted

variable (h : p.Thinning kept f)
include h

theorem names_sublist : (p.thinned f).names.Sublist p.names := by
  have hsub : ∀ units : List SourcedUnit, (∀ s ∈ units, s ∈ p.units) →
      ((leftOf f units).map (·.unit.name)).Sublist (units.map (·.unit.name)) := by
    intro units
    induction units with
    | nil => exact fun _ => .slnil
    | cons s units ih =>
      intro hin
      have ih := ih fun t ht => hin t (List.mem_cons_of_mem _ ht)
      rw [leftOf, List.filterMap_cons]
      cases hf : f s.unit with
      | none => exact ih.cons _
      | some v =>
        have hname := (h.thins s (hin s List.mem_cons_self) v hf).2.name
        simp only [Option.map_some, List.map_cons, hname]
        exact ih.cons_cons _
  exact hsub p.units fun _ hs => hs

theorem visibleLibraries_eq : (p.thinned f).visibleLibraries = p.visibleLibraries := by
  refine List.filter_eq_self.mpr fun u hu => ?_
  have hnot : u.name ∉ (p.thinned f).names := fun hmem =>
    not_mem_names_of_visible hu (h.names_sublist.subset hmem)
  simpa using hnot

/-- A class of the program is left exactly if it is kept. -/
theorem mem_names_iff (hs : s ∈ p.units) (hp : p.Admissible) :
    s.unit.name ∈ (p.thinned f).names ↔ kept s.unit.id := by
  constructor
  · intro hmem
    obtain ⟨t, ht, hname⟩ := List.mem_map.mp hmem
    obtain ⟨r, hr, v, hv, rfl⟩ := mem_units_thinned.mp ht
    obtain ⟨hkept, hthin⟩ := h.thins r hr v hv
    obtain rfl : r = s := List.inj_on_of_nodup_map hp.distinct hr hs (hthin.name.symm.trans hname)
    exact hkept
  · intro hkept
    obtain ⟨v, hv⟩ := h.left s hs hkept
    have ht : (⟨v, s.source⟩ : SourcedUnit) ∈ (p.thinned f).units :=
      mem_units_thinned.mpr ⟨s, hs, v, hv, rfl⟩
    exact (h.thins s hs v hv).2.name ▸ mem_names ht

theorem admissible (hp : p.Admissible) : (p.thinned f).Admissible where
  units t ht := by
    obtain ⟨s, hs, v, hv, rfl⟩ := mem_units_thinned.mp ht
    have hthin := (h.thins s hs v hv).2
    obtain ⟨hcheck, hobject, hlib⟩ := hp.units s hs
    refine ⟨hthin.check hcheck, ?_, hthin.library.trans hlib⟩
    rwa [hthin.name]
  libraries u hu := hp.libraries u (List.mem_of_mem_filter hu)
  distinct := hp.distinct.sublist h.names_sublist

/-- Every unit that is left has its place in the hierarchy from one of the program. -/
theorem exists_roster {v : CompiledUnit} (hv : v ∈ (p.thinned f).roster) :
    ∃ u ∈ p.roster, v.id = u.id ∧ v.supertypeEdges = u.supertypeEdges := by
  rcases List.mem_append.mp hv with hv | hv
  · obtain ⟨t, ht, rfl⟩ := List.mem_map.mp hv
    obtain ⟨s, hs, v, hleft, rfl⟩ := mem_units_thinned.mp ht
    have hthin := (h.thins s hs v hleft).2
    exact ⟨s.unit, unit_mem_roster hs, hthin.id_eq, hthin.supertypeEdges⟩
  · rw [h.visibleLibraries_eq] at hv
    exact ⟨v, List.mem_append_right _ hv, rfl, rfl⟩

theorem exists_build (hb : ∃ g, p.build = .ok g) : ∃ g, (p.thinned f).build = .ok g := by
  obtain ⟨rank, hrank⟩ := exists_build_iff.mp hb
  refine exists_build_iff.mpr ⟨rank, fun id above habove => hrank id above ?_⟩
  obtain ⟨e, he, rfl⟩ := List.mem_map.mp habove
  obtain ⟨he, hkind⟩ := List.mem_filter.mp he
  obtain ⟨he, hsource⟩ := mem_outgoing.mp he
  obtain ⟨v, hv, hev⟩ := mem_edges_skeleton.mp he
  obtain ⟨u, hu, _, hedges⟩ := h.exists_roster hv
  refine List.mem_map_of_mem (List.mem_filter.mpr ⟨mem_outgoing.mpr ⟨?_, hsource⟩, hkind⟩)
  exact mem_edges_skeleton.mpr ⟨u, hu, hedges ▸ hev⟩

theorem exists_left (hs : s ∈ p.units) (hkept : kept s.unit.id) :
    ∃ v, (⟨v, s.source⟩ : SourcedUnit) ∈ (p.thinned f).units ∧ s.unit.Thins kept v := by
  obtain ⟨v, hv⟩ := h.left s hs hkept
  exact ⟨v, mem_units_thinned.mpr ⟨s, hs, v, hv, rfl⟩, (h.thins s hs v hv).2⟩

/-- Under a name that no unit of the program has, there stands the same as before. -/
theorem node?_declared_eq (id : NodeId) (hn : id.className ∉ p.names) :
    (p.thinned f).declared.node? id = p.declared.node? id :=
  node?_declared_congr h.visibleLibraries_eq (fun hmem => hn (h.names_sublist.subset hmem)) hn

/-- A unit of the program that is left has the name of the class that it declares alone. -/
theorem mem_names_of_contains (hd : (p.thinned f).declared.contains id = true)
    (hn : id.className ∈ p.names) : id.className ∈ (p.thinned f).names := by
  obtain ⟨v, hv, hid⟩ := contains_declared_iff.mp hd
  have hname := CompiledUnit.className_of_mem_nodeIds hid
  rcases List.mem_append.mp hv with hv | hv
  · obtain ⟨t, ht, rfl⟩ := List.mem_map.mp hv
    exact hname ▸ mem_names ht
  · rw [h.visibleLibraries_eq] at hv
    exact absurd (hname ▸ hn) (not_mem_names_of_visible hv)

/-- Units that are left out have other names, and the others say the same of the hierarchy. -/
theorem supertypeEdges_roster (hkept : kept (.class_ name)) :
    ((p.thinned f).roster.flatMap CompiledUnit.supertypeEdges).filter (·.source = .class_ name) =
      (p.roster.flatMap CompiledUnit.supertypeEdges).filter (·.source = .class_ name) := by
  have hunits : ∀ units : List SourcedUnit, (∀ s ∈ units, s ∈ p.units) →
      (((leftOf f units).map (·.unit)).flatMap CompiledUnit.supertypeEdges).filter
        (·.source = .class_ name) =
      ((units.map (·.unit)).flatMap CompiledUnit.supertypeEdges).filter
        (·.source = .class_ name) := by
    intro units
    induction units with
    | nil => exact fun _ => rfl
    | cons s units ih =>
      intro hin
      have ih := ih fun t ht => hin t (List.mem_cons_of_mem _ ht)
      have hs := hin s List.mem_cons_self
      rw [leftOf, List.filterMap_cons]
      cases hf : f s.unit with
      | none =>
        have hne : s.unit.id ≠ .class_ name := by
          intro heq
          obtain ⟨v, hv⟩ := h.left s hs (heq ▸ hkept)
          rw [hf] at hv
          cases hv
        have hnil : s.unit.supertypeEdges.filter (·.source = .class_ name) = [] := by
          refine List.filter_eq_nil_iff.mpr fun e he => ?_
          rw [(CompiledUnit.of_mem_supertypeEdges he).1]
          simpa using hne
        rw [List.map_cons, List.flatMap_cons, List.filter_append, hnil, List.nil_append]
        exact ih
      | some v =>
        simp only [Option.map_some, List.map_cons, List.flatMap_cons, List.filter_append,
          (h.thins s hs v hf).2.supertypeEdges]
        exact congrArg _ ih
  unfold roster
  rw [h.visibleLibraries_eq, List.flatMap_append, List.flatMap_append, List.filter_append,
    List.filter_append]
  congr 1
  exact hunits p.units fun _ hs => hs

theorem not_contains_declared (hd : p.declared.contains (.class_ name) = false) :
    (p.thinned f).declared.contains (.class_ name) = false := by
  rw [← Bool.not_eq_true, contains_declared_class]
  rintro ⟨v, hv, rfl⟩
  obtain ⟨u, hu, hid, _⟩ := h.exists_roster hv
  rw [contains_declared_class.mpr ⟨u, hu, (NodeId.class_.inj hid).symm⟩] at hd
  cases hd

theorem parents_eq (hn : p.Sound kept name) :
    (p.thinned f).skeleton.parents (.class_ name) = p.skeleton.parents (.class_ name) := by
  cases hd : p.declared.contains (.class_ name) with
  | true => exact parents_skeleton_congr (h.supertypeEdges_roster (hn hd))
  | false => rw [parents_eq_nil hd, parents_eq_nil (h.not_contains_declared hd)]

/-- Above a kept class there are kept classes only. -/
theorem of_mem_parents (hn : p.Sound kept name) {above : NodeId}
    (ha : above ∈ p.skeleton.parents (.class_ name)) :
    ∃ name', above = .class_ name' ∧ kept above := by
  obtain ⟨e, he, rfl⟩ := List.mem_map.mp ha
  obtain ⟨he, hsource⟩ := mem_outgoing.mp (List.mem_of_mem_filter he)
  obtain ⟨u, hu, he⟩ := mem_edges_skeleton.mp he
  obtain ⟨hid, htarget⟩ := CompiledUnit.of_mem_supertypeEdges he
  have heq : u.id = .class_ name := hid.symm.trans hsource
  have hkept : kept u.id := by
    rw [heq]
    exact hn (contains_declared_class.mpr ⟨u, hu, NodeId.class_.inj heq⟩)
  refine ⟨e.target.className, ?_, h.upward u hu hkept e he⟩
  cases ht : e.target with
  | class_ _ => rfl
  | method _ | field _ =>
    rw [ht] at htarget
    cases htarget

theorem contains_declared (hn : p.Sound kept name)
    (hd : p.declared.contains (.class_ name) = true) :
    (p.thinned f).declared.contains (.class_ name) = true := by
  by_cases hname : name ∈ p.names
  · obtain ⟨s, hs, rfl⟩ := List.mem_map.mp hname
    obtain ⟨v, hv, hthin⟩ := h.exists_left hs (hn hd)
    exact contains_declared_class.mpr ⟨v, unit_mem_roster hv, hthin.name⟩
  · obtain ⟨n, hnode⟩ := contains_iff_node?.mp hd
    exact contains_iff_node?.mpr ⟨n, (h.node?_declared_eq (.class_ name) hname).trans hnode⟩

/-- A kept class has all its supertypes, in the same order, and they are kept. -/
theorem ancestors_eq (hn : p.Sound kept name) :
    (p.thinned f).skeleton.ancestors (.class_ name) = p.skeleton.ancestors (.class_ name) ∧
      ∀ above ∈ p.skeleton.ancestors (.class_ name), ∃ name', above = .class_ name' ∧ kept above := by
  cases hd : p.declared.contains (.class_ name) with
  | false =>
    have hnil := ancestors_eq_nil_of_parents (parents_eq_nil hd)
    refine ⟨?_, by simp [hnil]⟩
    rw [hnil, ancestors_eq_nil_of_parents (parents_eq_nil (h.not_contains_declared hd))]
  | true =>
    have hstart : p.Shares kept f (.class_ name) := ⟨⟨name, rfl⟩, hn hd, p.skeleton_extension.contains hd,
      (p.thinned f).skeleton_extension.contains (h.contains_declared hn hd)⟩
    have hparents : ∀ a, p.Shares kept f a → (p.thinned f).skeleton.parents a = p.skeleton.parents a := by
      rintro _ ⟨⟨n, rfl⟩, hkept, _⟩
      exact h.parents_eq fun _ => hkept
    have hends : ∀ {q : Program} {a b : NodeId}, b ∈ q.skeleton.parents a →
        q.skeleton.contains b = true := by
      intro q a b hb
      obtain ⟨e, he, rfl⟩ := List.mem_map.mp hb
      exact (q.wellFormed_skeleton.ends e (mem_outgoing.mp (List.mem_of_mem_filter he)).1).2
    have hclosed : ∀ a, p.Shares kept f a → ∀ b ∈ p.skeleton.parents a, p.Shares kept f b := by
      rintro a ha b hb
      have hb' := hparents a ha ▸ hb
      obtain ⟨⟨n, rfl⟩, hkept, _⟩ := ha
      obtain ⟨n', hn', hkept'⟩ := h.of_mem_parents (fun _ => hkept) hb
      exact ⟨⟨n', hn'⟩, hkept', hends hb, hends hb'⟩
    constructor
    · unfold Graph.ancestors
      congr 1
      symm
      refine breadthFirst_congr (p.Shares kept f) hclosed (fun a ha => (hparents a ha).symm) ?_ ?_
      · rintro a ⟨_, _, hin, hin'⟩
        rw [← contains_iff_mem, ← contains_iff_mem, hin, hin']
      · intro a ha
        rw [List.mem_singleton.mp ha]
        exact hstart
    · intro above ha
      obtain ⟨start, hq, hreach⟩ := reachable_of_mem_breadthFirst (List.mem_of_mem_filter ha)
      rw [List.mem_singleton.mp hq] at hreach
      have hshared : p.Shares kept f above := by
        clear ha
        induction hreach with
        | refl => exact hstart
        | tail _ hstep ih => exact hclosed _ ih _ hstep
      obtain ⟨⟨n, rfl⟩, hkept, _⟩ := hshared
      exact ⟨n, rfl, hkept⟩

theorem supertypes_eq (hn : p.Sound kept id.className) :
    (p.thinned f).skeleton.hierarchy.supertypes id = p.skeleton.hierarchy.supertypes id ∧
      ∀ above ∈ p.skeleton.hierarchy.supertypes id, ∃ name, above = .class_ name ∧ kept above := by
  have hw := p.wellFormed_skeleton
  have hw' := (p.thinned f).wellFormed_skeleton
  cases id with
  | class_ name =>
    rw [hw.supertypes_class, hw'.supertypes_class]
    exact h.ancestors_eq hn
  | method _ | field _ =>
    rw [hw.supertypes_of_not_class rfl, hw'.supertypes_of_not_class rfl]
    exact ⟨rfl, by simp⟩

end Accepted

end Thinning

theorem check_of_mem_roster (hp : p.Admissible) {u : CompiledUnit} (hu : u ∈ p.roster) :
    u.check = .ok () ∧ u.name ≠ objectClass := by
  rcases List.mem_append.mp hu with hu | hu
  · obtain ⟨s, hs, rfl⟩ := List.mem_map.mp hu
    exact ⟨(hp.units s hs).1, (hp.units s hs).2.1⟩
  · exact hp.libraries u (List.mem_of_mem_filter hu)

/-- A method is known by its identity. -/
theorem eq_of_method_id (hp : p.Admissible) {s t : SourcedUnit} {m k : Method} (hs : s ∈ p.units)
    (ht : t ∈ p.units) (hm : m ∈ s.unit.methods) (hk : k ∈ t.unit.methods)
    (h : m.id s.unit.name = k.id t.unit.name) : s = t ∧ m = k := by
  obtain rfl : s = t := List.inj_on_of_nodup_map hp.distinct hs ht (congrArg NodeId.className h)
  have hnodup := CompiledUnit.nodup_memberNodes (hp.units s hs).1
  rw [CompiledUnit.memberNodes, List.map_append, List.map_map] at hnodup
  exact ⟨rfl, List.inj_on_of_nodup_map hnodup.of_append_left hm hk h⟩

/-- Nothing stands in the hierarchy under a name that is not declared. -/
theorem vacant_skeleton (hd : p.declared.contains (.class_ name) = false) :
    p.skeleton.Vacant name where
  standIn c hc := by
    rcases of_class?_skeleton hc with hc | ⟨_, origin, heq, ho⟩
    · rw [contains_iff_node?.mpr ⟨_, (class?_eq_some hc).1⟩] at hd
      cases hd
    · exact ⟨origin, heq, ho⟩
  members id hid := by
    rw [p.skeleton_extension.member?, Option.eq_none_iff_forall_ne_some]
    intro m hm
    obtain ⟨u, hu, hmem⟩ := contains_declared_iff.mp
      (contains_iff_node?.mpr ⟨_, (member?_eq_some hm).1⟩)
    have hname : u.name = name := (CompiledUnit.className_of_mem_nodeIds hmem).symm.trans hid
    rw [contains_declared_class.mpr ⟨u, hu, hname⟩] at hd
    cases hd

/-- A member that the graph has for a class of the program is one that the unit declares. -/
theorem exists_memberNode (hp : p.Admissible) (hs : s ∈ p.units) (hid : id.className = s.unit.name)
    {m : MemberNode} (hm : p.declared.member? id = some m) : m ∈ s.unit.memberNodes ∧ m.id = id := by
  obtain ⟨hn, heq⟩ := member?_eq_some hm
  have hclass : id.isClass = false := heq ▸ (p.wellFormed_declared.owned m (mem_of_node? hn)).1
  have hmem := mem_nodeIds_of_contains hp hs hid (contains_iff_node?.mpr ⟨_, hn⟩)
  rcases CompiledUnit.mem_nodeIds_iff.mp hmem with rfl | hmem
  · cases hclass
  · obtain ⟨k, hk, rfl⟩ := List.mem_map.mp hmem
    obtain rfl := Option.some.inj (hm.symm.trans (member?_declared hp hs hk))
    exact ⟨hk, rfl⟩

namespace Coherent

variable (h : p.Coherent kept) (hp : p.Admissible)
include h hp

theorem elementClass_eq (hd : p.declared.contains (.class_ name) = true) :
    Descriptor.elementClass name = some name := by
  obtain ⟨u, hu, rfl⟩ := contains_declared_class.mp hd
  have hempty := (CompiledUnit.check_eq_ok_iff.mp (check_of_mem_roster hp hu).1).1
  simp [Descriptor.elementClass, h.names u hu, hempty]

theorem supertypeOf_eq (hd : p.declared.contains (.class_ name) = true) :
    supertypeOf name = some name := by
  obtain ⟨u, hu, hname⟩ := contains_declared_class.mp hd
  have hobject : name ≠ objectClass := hname ▸ (check_of_mem_roster hp hu).2
  simp [supertypeOf, h.elementClass_eq hp hd, Option.filter, hobject]

/-- The classes named above a kept one are kept. -/
theorem sound_above {u : CompiledUnit} (hu : u ∈ p.roster) (hkept : kept u.id) {above : String}
    (ha : u.superclass = some above ∨ above ∈ u.interfaces) : p.Sound kept above := by
  intro hd
  have hsuper := h.supertypeOf_eq hp hd
  rcases ha with ha | ha
  · refine h.upward u hu hkept ⟨u.id, .class_ above, .super⟩ (List.mem_append_left _ ?_)
    exact List.mem_map_of_mem (List.mem_filterMap.mpr ⟨above, by simp [ha], hsuper⟩)
  · refine h.upward u hu hkept ⟨u.id, .class_ above, .implements⟩ (List.mem_append_right _ ?_)
    exact List.mem_map_of_mem (List.mem_filterMap.mpr ⟨above, ha, hsuper⟩)

/-- A class of which a kept one may speak speaks of such classes only. -/
theorem sound_of_above (hn : p.Sound kept name) {above : String}
    (ha : p.skeleton.superclass? name = some above ∨ above ∈ p.skeleton.interfacesOf name) :
    p.Sound kept above := by
  have hclass : ∃ c, p.skeleton.class? name = some c ∧
      (c.superclass = some above ∨ above ∈ c.interfaces) := by
    rcases ha with ha | ha
    · obtain ⟨c, hc, ha⟩ := Option.bind_eq_some_iff.mp ha
      exact ⟨c, hc, .inl ha⟩
    · unfold Graph.interfacesOf at ha
      cases hc : p.skeleton.class? name with
      | none => simp [hc] at ha
      | some c => exact ⟨c, rfl, .inr (by simpa [hc] using ha)⟩
  obtain ⟨c, hc, ha⟩ := hclass
  rcases of_class?_skeleton hc with hd | ⟨_, origin, rfl, _⟩
  · obtain ⟨u, hu, rfl, origin, rfl, _⟩ := of_class?_declared hd
    exact h.sound_above hp hu (hn (contains_declared_class.mpr ⟨u, hu, rfl⟩)) ha
  · rcases ha with ha | ha <;> cases ha

/-- The superclasses that a unit of the program may speak of are kept with it. -/
theorem kept_of_mem_superclassChain (hn : p.Sound kept name) {above : String}
    (ha : above ∈ p.skeleton.superclassChain name)
    (hd : p.declared.contains (.class_ above) = true) : kept (.class_ above) := by
  have hsame : SameAbove (p.Sound kept) p.skeleton p.skeleton :=
    ⟨fun _ hn _ ha => h.sound_of_above hp hn ha, fun _ _ => rfl, fun _ _ => rfl⟩
  exact hsame.of_mem_superclassChain hn ha hd

end Coherent

namespace Thinning

variable (h : p.Thinning kept f) (hp : p.Admissible)
include h hp

theorem classes (hn : p.Sound kept name) :
    (∃ c c', p.skeleton.class? name = some c ∧ (p.thinned f).skeleton.class? name = some c' ∧
      c.SameHead c') ∨ p.skeleton.Vacant name ∧ (p.thinned f).skeleton.Vacant name := by
  have hq := h.admissible hp
  by_cases hname : name ∈ p.names
  · obtain ⟨s, hs, rfl⟩ := List.mem_map.mp hname
    have hd := contains_declared_class.mpr ⟨s.unit, unit_mem_roster hs, rfl⟩
    obtain ⟨v, hv, hthin⟩ := h.exists_left hs (hn hd)
    refine .inl ⟨_, _, class?_skeleton hp hs, ?_, hthin.sameHead rfl⟩
    have hc := class?_skeleton hq hv
    rwa [hthin.name] at hc
  · have heq := h.node?_declared_eq (.class_ name) hname
    cases hd : p.declared.contains (.class_ name) with
    | true =>
      obtain ⟨c, hc⟩ := p.wellFormed_declared.class?_of_contains hd
      have hc' : (p.thinned f).declared.class? name = some c := by
        rw [Graph.class?, heq]
        exact hc
      exact .inl ⟨c, c, p.skeleton_extension.class? hc,
        (p.thinned f).skeleton_extension.class? hc', ⟨rfl, rfl, rfl, rfl, rfl⟩⟩
    | false =>
      refine .inr ⟨vacant_skeleton hd, vacant_skeleton ?_⟩
      rw [← node?_eq_none_iff, heq, node?_eq_none_iff, hd]

theorem thins_skeleton : Graph.Thins (p.Sound kept) kept p.skeleton (p.thinned f).skeleton where
  classes name hn := h.classes hp hn
  closed name hn above ha := h.toCoherent.sound_of_above hp hn ha
  members id m' hm' := by
    rw [(p.thinned f).skeleton_extension.member?] at hm'
    rw [p.skeleton_extension.member?]
    by_cases hname : id.className ∈ p.names
    · have hd := contains_iff_node?.mpr ⟨_, (member?_eq_some hm').1⟩
      obtain ⟨t, ht, heq⟩ := List.mem_map.mp (h.mem_names_of_contains hd hname)
      obtain ⟨hk, rfl⟩ := exists_memberNode (h.admissible hp) ht heq.symm hm'
      obtain ⟨s, hs, v, hv, rfl⟩ := mem_units_thinned.mp ht
      obtain ⟨_, m, hm, hmid, hmod⟩ := (h.thins s hs v hv).2.of_mem_memberNodes hk
      exact ⟨m, hmid ▸ member?_declared hp hs hm, hmod⟩
    · exact ⟨m', by rw [Graph.member?, ← h.node?_declared_eq id hname]; exact hm', rfl⟩
  keeps id m hm hkept := by
    rw [p.skeleton_extension.member?] at hm
    rw [(p.thinned f).skeleton_extension.member?]
    by_cases hname : id.className ∈ p.names
    · have hkept : kept id := by
        refine hkept.resolve_right ?_
        rintro ⟨c, hc, hprog⟩
        rw [(isProgram_iff hc).mpr hname] at hprog
        cases hprog
      obtain ⟨s, hs, heq⟩ := List.mem_map.mp hname
      have hclass : kept s.unit.id := by
        rw [CompiledUnit.id, heq]
        exact h.owner id hkept
      obtain ⟨v, hv, hthin⟩ := h.exists_left hs hclass
      obtain ⟨hmem, rfl⟩ := exists_memberNode hp hs heq.symm hm
      obtain ⟨k, hk, hid⟩ := hthin.mem_memberNodes hmem hkept
      exact ⟨k, hid ▸ member?_declared (h.admissible hp) hv hk⟩
    · exact ⟨m, by rw [Graph.member?, h.node?_declared_eq id hname]; exact hm⟩

end Thinning

end Program

end Winnow
