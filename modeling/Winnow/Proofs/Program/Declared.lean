import Winnow.Proofs.Program.Outline
import Winnow.Proofs.Sorted

/-!
# What units declare

A unit that is declared stands in the graph with exactly its own data, and a
class counts as one of the program exactly if a unit of the program has its name.
-/
namespace Winnow

/-- The node of a class with its members entered. -/
def CompiledUnit.fullNode (u : CompiledUnit) (origin : Origin) : ClassNode :=
  { u.node origin with members := .ofList (u.memberNodes.map MemberNode.id) }

/-- The keys differ from each other and from those seen, and can be read. -/
theorem checkKeys_eq_ok_iff {unit : String} {readable : String → Bool} {seen keys : List MemberKey} :
    checkKeys unit readable seen keys = .ok () ↔
      keys.Nodup ∧ ∀ key ∈ keys, key ∉ seen ∧ readable key.descriptor = true := by
  induction keys generalizing seen with
  | nil => simp [checkKeys]
  | cons key keys ih =>
    unfold checkKeys
    split
    next hr =>
      refine ⟨nofun, fun h => ?_⟩
      rw [(h.2 key List.mem_cons_self).2] at hr
      cases hr
    next hr =>
      split
      next hseen => exact ⟨nofun, fun h => absurd hseen (h.2 key List.mem_cons_self).1⟩
      next hseen =>
        rw [ih, List.nodup_cons]
        constructor
        · rintro ⟨hd, hk⟩
          refine ⟨⟨fun hmem => (hk key hmem).1 List.mem_cons_self, hd⟩, fun k hmem => ?_⟩
          rcases List.mem_cons.mp hmem with rfl | hmem
          · exact ⟨hseen, by simpa using hr⟩
          · exact ⟨fun h => (hk k hmem).1 (List.mem_cons_of_mem _ h), (hk k hmem).2⟩
        · rintro ⟨⟨hnew, hd⟩, hk⟩
          refine ⟨hd, fun k hmem => ⟨fun h => ?_, (hk k (List.mem_cons_of_mem _ hmem)).2⟩⟩
          rcases List.mem_cons.mp h with rfl | h
          · exact hnew hmem
          · exact (hk k (List.mem_cons_of_mem _ hmem)).1 h

namespace CompiledUnit

variable {u : CompiledUnit} {id : NodeId}

theorem check_eq_ok_iff : u.check = .ok () ↔ u.name ≠ "" ∧ u.checkSupertypes = .ok () ∧
    checkKeys u.name (fun d => (Descriptor.parseMethod d).isOk) [] (u.methods.map Method.key) = .ok () ∧
    checkKeys u.name (fun d => (Descriptor.parseField d).isOk) [] (u.fields.map Field.key) = .ok () := by
  have hthen : ∀ {a b : Except UnitError Unit}, (do a; b) = .ok () ↔ a = .ok () ∧ b = .ok () := by
    intro a b
    cases a with
    | error e => exact ⟨nofun, fun h => nomatch h.1⟩
    | ok v => exact ⟨fun h => ⟨rfl, h⟩, fun h => h.2⟩
  unfold check
  split
  next h => exact ⟨nofun, fun h' => absurd h h'.1⟩
  next h =>
    show (do u.checkSupertypes; _) = _ ↔ _
    rw [hthen, hthen, and_iff_right h]

theorem checkSupertypes_eq_ok_iff : u.checkSupertypes = .ok () ↔
    ¬ (u.superclass = none ∧ u.name ≠ objectClass) ∧
      u.superclass ≠ some u.name ∧ u.name ∉ u.interfaces := by
  unfold checkSupertypes
  split
  next h => exact ⟨nofun, fun h' => absurd h h'.1⟩
  next h =>
    rw [and_iff_right h, Ne, ← not_or]
    split
    next h => exact ⟨nofun, fun h' => absurd h h'⟩
    next h => exact ⟨fun _ => h, fun _ => rfl⟩

/-- A unit with some of the members of a well-formed one. -/
theorem check_of_sublist {v : CompiledUnit} (hu : u.check = .ok ()) (hname : v.name = u.name)
    (hsuper : v.superclass = u.superclass) (hself : v.name ∉ v.interfaces)
    (hm : (v.methods.map Method.key).Sublist (u.methods.map Method.key))
    (hf : (v.fields.map Field.key).Sublist (u.fields.map Field.key)) : v.check = .ok () := by
  have hkeys : ∀ {readable : String → Bool} {keys keys' : List MemberKey}, keys'.Sublist keys →
      checkKeys u.name readable [] keys = .ok () → checkKeys v.name readable [] keys' = .ok () := by
    intro readable keys keys' hsub hok
    obtain ⟨hd, hr⟩ := checkKeys_eq_ok_iff.mp hok
    exact checkKeys_eq_ok_iff.mpr ⟨hd.sublist hsub, fun key hkey => hr key (hsub.subset hkey)⟩
  obtain ⟨hne, hsupertypes, hmethods, hfields⟩ := check_eq_ok_iff.mp hu
  obtain ⟨hroot, hsup, _⟩ := checkSupertypes_eq_ok_iff.mp hsupertypes
  refine check_eq_ok_iff.mpr ⟨hname ▸ hne, ?_, hkeys hm hmethods, hkeys hf hfields⟩
  refine checkSupertypes_eq_ok_iff.mpr ⟨?_, ?_, hself⟩
  · rwa [hname, hsuper]
  · rwa [hname, hsuper]

/-- A well-formed unit is not an interface of itself. -/
theorem not_mem_interfaces (hu : u.check = .ok ()) : u.name ∉ u.interfaces :=
  (checkSupertypes_eq_ok_iff.mp (check_eq_ok_iff.mp hu).2.1).2.2

/-- No two members have the same identity. -/
theorem nodup_memberNodes (hc : u.check = .ok ()) : (u.memberNodes.map MemberNode.id).Nodup := by
  obtain ⟨_, _, hm, hf⟩ := check_eq_ok_iff.mp hc
  have hmethods := (checkKeys_eq_ok_iff.mp hm).1
  have hfields := (checkKeys_eq_ok_iff.mp hf).1
  rw [memberNodes, List.map_append, List.map_map, List.map_map]
  refine List.nodup_append.mpr ⟨?_, ?_, ?_⟩
  · refine List.Nodup.of_map (fun id => id.member?.map MemberRef.key) ?_
    rw [List.map_map]
    have := hmethods.map fun _ _ h => Option.some.inj h
    rwa [List.map_map] at this
  · refine List.Nodup.of_map (fun id => id.member?.map MemberRef.key) ?_
    rw [List.map_map]
    have := hfields.map fun _ _ h => Option.some.inj h
    rwa [List.map_map] at this
  · intro a ha b hb heq
    obtain ⟨m, _, rfl⟩ := List.mem_map.mp ha
    obtain ⟨f, _, rfl⟩ := List.mem_map.mp hb
    cases heq

theorem mem_nodeIds_iff : id ∈ u.nodeIds ↔ id = u.id ∨ id ∈ u.memberNodes.map MemberNode.id := by
  rw [nodeIds, memberNodes, List.map_append, List.map_map, List.map_map, List.cons_append,
    List.mem_cons]
  rfl

theorem mem_members_fullNode {origin : Origin} :
    id ∈ (u.fullNode origin).members ↔ id ∈ u.nodeIds ∧ id.isClass = false := by
  have hmembers : id ∈ (u.fullNode origin).members ↔ id ∈ u.memberNodes.map MemberNode.id :=
    SortedSet.mem_ofList
  rw [hmembers, mem_nodeIds_iff]
  constructor
  · intro h
    obtain ⟨m, hm, rfl⟩ := List.mem_map.mp h
    exact ⟨.inr h, (id_of_mem_memberNodes hm).1⟩
  · rintro ⟨rfl | h, hc⟩
    · cases hc
    · exact h

end CompiledUnit

namespace Graph

variable {g : Graph} {u : CompiledUnit} {origin : Origin} {x : NodeId} {name : String}
  {members : List MemberNode}

theorem node?_foldl_addMember_of_ne (hm : ∀ m ∈ members, m.id.className = name)
    (hx : x.className ≠ name) : (members.foldl addMember g).node? x = g.node? x := by
  induction members generalizing g with
  | nil => rfl
  | cons m members ih =>
    have hname := hm m List.mem_cons_self
    rw [List.foldl_cons, ih fun k hk => hm k (List.mem_cons_of_mem _ hk), node?_addMember, if_neg,
      if_neg]
    · rintro rfl
      exact hx hname
    · rintro rfl
      exact hx hname

/-- The owner lists the members in the order in which they come. -/
theorem class?_foldl_addMember (hm : ∀ m ∈ members, m.id.isClass = false ∧ m.id.className = name)
    {c : ClassNode} (hc : g.class? name = some c) :
    (members.foldl addMember g).class? name = some { c with
      members := (members.map MemberNode.id).foldl (fun s a => s.insert a) c.members } := by
  induction members generalizing g c with
  | nil => exact hc
  | cons m members ih =>
    obtain ⟨hid, hname⟩ := hm m List.mem_cons_self
    have hne : NodeId.class_ name ≠ m.id := by
      intro heq
      rw [← heq] at hid
      cases hid
    have hstep : (g.addMember m).class? name = some (c.listing m) := by
      rw [Graph.class?, node?_addMember, if_neg hne, hname, if_pos rfl, (class?_eq_some hc).1]
      rfl
    exact ih (fun k hk => hm k (List.mem_cons_of_mem _ hk)) hstep

theorem node?_foldl_addMember_of_not_mem (hx : x.isClass = false)
    (hm : x ∉ members.map MemberNode.id) : (members.foldl addMember g).node? x = g.node? x := by
  induction members generalizing g with
  | nil => rfl
  | cons m members ih =>
    rw [List.map_cons, List.mem_cons, not_or] at hm
    rw [List.foldl_cons, ih hm.2, node?_addMember, if_neg hm.1, if_neg]
    rintro rfl
    cases hx

/-- A member stands in the graph as it is declared. -/
theorem node?_foldl_addMember_of_mem (hm : ∀ m ∈ members, m.id.isClass = false)
    (hd : (members.map MemberNode.id).Nodup) {m : MemberNode} (hmem : m ∈ members) :
    (members.foldl addMember g).node? m.id = some (.member m) := by
  induction members generalizing g with
  | nil => cases hmem
  | cons k members ih =>
    rw [List.map_cons, List.nodup_cons] at hd
    rcases List.mem_cons.mp hmem with rfl | hmem
    · rw [List.foldl_cons, node?_foldl_addMember_of_not_mem (hm _ List.mem_cons_self) hd.1,
        node?_addMember, if_pos rfl]
    · exact ih (fun m hm' => hm m (List.mem_cons_of_mem _ hm')) hd.2 hmem

theorem node?_declare_of_ne (hx : x.className ≠ u.name) :
    (g.declare u origin).node? x = g.node? x := by
  rw [declare, node?_foldl_addMember_of_ne
    (fun m hm => (CompiledUnit.id_of_mem_memberNodes hm).2) hx, addClass, node?_insert, if_neg]
  rintro rfl
  exact hx rfl

theorem class?_declare : (g.declare u origin).class? u.name = some (u.fullNode origin) := by
  refine class?_foldl_addMember (fun m hm => CompiledUnit.id_of_mem_memberNodes hm) ?_
  refine class?_of_node? ?_
  rw [addClass, node?_insert, if_pos]
  rfl

theorem member?_declare (hd : (u.memberNodes.map MemberNode.id).Nodup) {m : MemberNode}
    (hm : m ∈ u.memberNodes) : (g.declare u origin).member? m.id = some m :=
  member?_of_node? (node?_foldl_addMember_of_mem
    (fun _ hk => (CompiledUnit.id_of_mem_memberNodes hk).1) hd hm)

/-- What is declared under a name depends only on what there was under that name. -/
theorem node?_declare_congr {g' : Graph} (h : ∀ x, x.className = name → g.node? x = g'.node? x)
    (hx : x.className = name) : (g.declare u origin).node? x = (g'.declare u origin).node? x := by
  have hadd : ∀ (members : List MemberNode) (g g' : Graph),
      (∀ x, x.className = name → g.node? x = g'.node? x) →
      (members.foldl addMember g).node? x = (members.foldl addMember g').node? x := by
    intro members
    induction members with
    | nil => exact fun g g' h => h x hx
    | cons m members ih =>
      intro g g' h
      refine ih _ _ fun y hy => ?_
      rw [node?_addMember, node?_addMember, h y hy]
  refine hadd _ _ _ fun y hy => ?_
  rw [addClass, addClass, node?_insert, node?_insert, h y hy]

section Folds

variable {α : Type} {f : α → CompiledUnit} {o : α → Origin} {l : List α}

theorem node?_foldl_declare_of_ne (hl : ∀ a ∈ l, x.className ≠ (f a).name) :
    (l.foldl (fun g a => g.declare (f a) (o a)) g).node? x = g.node? x := by
  induction l generalizing g with
  | nil => rfl
  | cons a l ih =>
    rw [List.foldl_cons, ih fun b hb => hl b (List.mem_cons_of_mem _ hb),
      node?_declare_of_ne (hl a List.mem_cons_self)]

theorem node?_foldl_declare_congr {g' : Graph}
    (h : ∀ x, x.className = name → g.node? x = g'.node? x) (hx : x.className = name) :
    (l.foldl (fun g a => g.declare (f a) (o a)) g).node? x =
      (l.foldl (fun g a => g.declare (f a) (o a)) g').node? x := by
  induction l generalizing g g' with
  | nil => exact h x hx
  | cons a l ih => exact ih fun y hy => node?_declare_congr h hy

theorem contains_foldl_declare : (l.foldl (fun g a => g.declare (f a) (o a)) g).contains x = true ↔
    g.contains x = true ∨ ∃ a ∈ l, x ∈ (f a).nodeIds := by
  induction l generalizing g with
  | nil => simp
  | cons a l ih =>
    rw [List.foldl_cons, ih, contains_declare]
    simp only [List.mem_cons, exists_eq_or_imp]
    rw [or_assoc]

/-- The last unit of that name counts. -/
theorem class?_foldl_declare (hl : ∃ a ∈ l, (f a).name = name) :
    ∃ a ∈ l, (f a).name = name ∧
      (l.foldl (fun g a => g.declare (f a) (o a)) g).class? name =
        some ((f a).fullNode (o a)) := by
  induction l generalizing g with
  | nil => simp at hl
  | cons a l ih =>
    by_cases hrest : ∃ b ∈ l, (f b).name = name
    · obtain ⟨b, hb, hname, hc⟩ := ih hrest
      exact ⟨b, List.mem_cons_of_mem _ hb, hname, hc⟩
    · have hname : (f a).name = name := by
        obtain ⟨b, hb, hname⟩ := hl
        rcases List.mem_cons.mp hb with rfl | hb
        · exact hname
        · exact absurd ⟨b, hb, hname⟩ hrest
      refine ⟨a, List.mem_cons_self, hname, ?_⟩
      rw [List.foldl_cons, Graph.class?, node?_foldl_declare_of_ne, ← hname, ← Graph.class?,
        class?_declare]
      exact fun b hb heq => hrest ⟨b, hb, heq.symm⟩

end Folds

end Graph

namespace Program

open Graph

variable {p : Program} {s : SourcedUnit} {id : NodeId} {name : String}

theorem contains_declared_iff :
    p.declared.contains id = true ↔ ∃ u ∈ p.roster, id ∈ u.nodeIds := by
  have hempty : Graph.empty.contains id = false := rfl
  unfold declared
  rw [contains_foldl_declare (f := fun u => u), contains_foldl_declare (f := SourcedUnit.unit), hempty]
  simp only [roster, List.mem_append, List.mem_map]
  constructor
  · rintro ((h | ⟨s, hs, hid⟩) | ⟨u, hu, hid⟩)
    · cases h
    · exact ⟨s.unit, .inl ⟨s, hs, rfl⟩, hid⟩
    · exact ⟨u, .inr hu, hid⟩
  · rintro ⟨u, ⟨s, hs, rfl⟩ | hu, hid⟩
    · exact .inl (.inr ⟨s, hs, hid⟩)
    · exact .inr ⟨u, hu, hid⟩

theorem mem_names (hs : s ∈ p.units) : s.unit.name ∈ p.names := List.mem_map_of_mem hs

theorem not_mem_names_of_visible {u : CompiledUnit} (hu : u ∈ p.visibleLibraries) :
    u.name ∉ p.names := by
  simpa using (List.mem_filter.mp hu).2

/-- No library touches a class of the program. -/
theorem node?_declared_of_mem_names (hid : id.className ∈ p.names) :
    p.declared.node? id =
      (p.units.foldl (fun g s => g.declare s.unit (.program s.source)) Graph.empty).node? id := by
  refine node?_foldl_declare_of_ne (f := fun u => u) fun u hu heq => ?_
  exact not_mem_names_of_visible hu (heq ▸ hid)

theorem class?_declared (hp : p.Admissible) (hs : s ∈ p.units) :
    p.declared.class? s.unit.name = some (s.unit.fullNode (.program s.source)) := by
  obtain ⟨t, ht, hname, hc⟩ := class?_foldl_declare (g := Graph.empty) (f := SourcedUnit.unit)
    (o := fun s => .program s.source) ⟨s, hs, rfl⟩
  obtain rfl : t = s := List.inj_on_of_nodup_map hp.distinct ht hs hname
  rw [Graph.class?, node?_declared_of_mem_names (mem_names hs)]
  exact hc

/-- So do its members. -/
theorem member?_declared (hp : p.Admissible) (hs : s ∈ p.units) {m : MemberNode}
    (hm : m ∈ s.unit.memberNodes) : p.declared.member? m.id = some m := by
  have hname := (CompiledUnit.id_of_mem_memberNodes hm).2
  rw [Graph.member?, node?_declared_of_mem_names (hname ▸ mem_names hs)]
  obtain ⟨before, after, heq⟩ := List.append_of_mem hs
  have hd := hp.distinct
  rw [names, heq, List.map_append, List.map_cons] at hd
  have hafter := (List.nodup_cons.mp (List.nodup_append.mp hd).2.1).1
  rw [heq, List.foldl_append, List.foldl_cons, node?_foldl_declare_of_ne (f := SourcedUnit.unit)]
  · exact member?_declare (CompiledUnit.nodup_memberNodes (hp.units s hs).1) hm
  · intro t ht heq
    rw [hname] at heq
    exact hafter (heq ▸ List.mem_map_of_mem ht)

/-- Under a name that no unit of the program has, there stands what the libraries declare. -/
theorem node?_declared_congr {q : Program} (hlib : p.visibleLibraries = q.visibleLibraries)
    (hp : id.className ∉ p.names) (hq : id.className ∉ q.names) :
    p.declared.node? id = q.declared.node? id := by
  have hnone : ∀ (p : Program), id.className ∉ p.names → ∀ x, x.className = id.className →
      (p.units.foldl (fun g s => g.declare s.unit (.program s.source)) Graph.empty).node? x =
        Graph.empty.node? x := by
    intro p hp x hx
    refine node?_foldl_declare_of_ne (f := SourcedUnit.unit) fun s hs heq => ?_
    rw [← hx, heq] at hp
    exact hp (mem_names hs)
  unfold declared
  rw [hlib]
  refine node?_foldl_declare_congr (f := fun u => u) (fun x hx => ?_) rfl
  rw [hnone p hp x hx, hnone q hq x hx]

theorem class?_skeleton (hp : p.Admissible) (hs : s ∈ p.units) :
    p.skeleton.class? s.unit.name = some (s.unit.fullNode (.program s.source)) :=
  p.skeleton_extension.class? (class?_declared hp hs)

/-- Every class that is declared is one of the units, of the program if one of these has its name. -/
theorem of_class?_declared {c : ClassNode} (hc : p.declared.class? name = some c) :
    ∃ u ∈ p.roster, u.name = name ∧ ∃ origin, c = u.fullNode origin ∧
      (origin.isProgram = true ↔ name ∈ p.names) := by
  by_cases hname : name ∈ p.names
  · obtain ⟨s, hs, rfl⟩ := List.mem_map.mp hname
    obtain ⟨t, ht, heq, ht'⟩ := class?_foldl_declare (g := Graph.empty) (f := SourcedUnit.unit)
      (o := fun s => .program s.source) ⟨s, hs, rfl⟩
    rw [Graph.class?, node?_declared_of_mem_names (mem_names hs)] at hc
    obtain rfl := Option.some.inj (hc.symm.trans ht')
    exact ⟨t.unit, unit_mem_roster ht, heq, _, rfl, ⟨fun _ => hname, fun _ => rfl⟩⟩
  · obtain ⟨u, hu, hid⟩ := contains_declared_iff.mp
      (contains_iff_node?.mpr ⟨_, (class?_eq_some hc).1⟩)
    have heq : name = u.name := CompiledUnit.className_of_mem_nodeIds hid
    have hlib : u ∈ p.visibleLibraries := by
      refine (List.mem_append.mp hu).resolve_left fun hu => ?_
      obtain ⟨s, hs, rfl⟩ := List.mem_map.mp hu
      exact hname (heq ▸ mem_names hs)
    obtain ⟨v, hv, hvname, hv'⟩ := class?_foldl_declare
      (g := p.units.foldl (fun g s => g.declare s.unit (.program s.source)) Graph.empty)
      (f := fun u => u) (o := fun _ => .library) ⟨u, hlib, heq.symm⟩
    obtain rfl := Option.some.inj (hc.symm.trans hv')
    exact ⟨v, List.mem_append_right _ hv, hvname, _, rfl,
      ⟨fun h => (by cases h), fun h => absurd h hname⟩⟩

/-- The hierarchy brings stand-ins only. -/
theorem of_class?_skeleton {c : ClassNode} (hc : p.skeleton.class? name = some c) :
    p.declared.class? name = some c ∨
      p.declared.class? name = none ∧ ∃ origin, c = .placeholder name origin ∧
        origin.isProgram = false := by
  cases hd : p.declared.class? name with
  | some d => exact .inl (congrArg some (Option.some.inj
      ((p.skeleton_extension.class? hd).symm.trans hc)))
  | none =>
    have hnew : p.declared.node? (.class_ name) = none := by
      rw [node?_eq_none_iff, ← Bool.not_eq_true]
      intro hin
      obtain ⟨d, hd'⟩ := p.wellFormed_declared.class?_of_contains hin
      rw [hd] at hd'
      cases hd'
    obtain ⟨name', heq, _⟩ := p.skeleton_extension.introduced _ _ (class?_eq_some hc).1 hnew
    have hname := (class?_eq_some hc).2
    cases heq
    obtain rfl : name' = name := hname
    refine .inr ⟨rfl, _, rfl, ?_⟩
    split <;> rfl

theorem isProgram_iff {c : ClassNode} (hc : p.skeleton.class? name = some c) :
    c.isProgram = true ↔ name ∈ p.names := by
  rcases of_class?_skeleton hc with hd | ⟨hd, origin, rfl, ho⟩
  · obtain ⟨u, _, _, origin, rfl, ho⟩ := of_class?_declared hd
    exact ho
  · refine ⟨fun h => ?_, fun h => ?_⟩
    · rw [ClassNode.isProgram, ClassNode.placeholder, ho] at h
      cases h
    · obtain ⟨s, hs, rfl⟩ := List.mem_map.mp h
      have hin := contains_declared_iff.mpr ⟨_, unit_mem_roster hs, s.unit.id_mem_nodeIds⟩
      obtain ⟨d, hd'⟩ := p.wellFormed_declared.class?_of_contains hin
      rw [hd] at hd'
      cases hd'

/-- The members of a class of the program are those that its unit declares. -/
theorem mem_nodeIds_of_contains (hp : p.Admissible) (hs : s ∈ p.units)
    (hid : id.className = s.unit.name) (hc : p.declared.contains id = true) :
    id ∈ s.unit.nodeIds := by
  obtain ⟨u, hu, hmem⟩ := contains_declared_iff.mp hc
  have hname : u.name = s.unit.name := (CompiledUnit.className_of_mem_nodeIds hmem).symm.trans hid
  rcases List.mem_append.mp hu with hu | hu
  · obtain ⟨t, ht, rfl⟩ := List.mem_map.mp hu
    obtain rfl : t = s := List.inj_on_of_nodup_map hp.distinct ht hs hname
    exact hmem
  · exact absurd (hname ▸ mem_names hs) (not_mem_names_of_visible hu)

end Program

end Winnow
