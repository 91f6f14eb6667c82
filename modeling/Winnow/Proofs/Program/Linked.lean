import Winnow.Proofs.Link.Unit
import Winnow.Proofs.Program.Build

/-!
# Linked graphs

What a graph has to be to stand for a program: the classes and members that the
units declare, the hierarchy as they give it, and exactly the edges that their
declarations, bodies and overriding methods stand for. It may have any stand-ins
for unknown classes, and any edges for signatures. The graph that is built from a
program is linked in this sense.
-/
namespace Winnow

namespace Graph

variable {g g' : Graph} {u : CompiledUnit} {origin : Origin} {id x : NodeId} {n : Node}
  {platform : Platform}

/-- There are no stand-ins for unknown classes. -/
def AllKnown (g : Graph) : Prop := ∀ id n, g.node? id = some n → Marking.isUnresolved n = false

theorem AllKnown.addMember (hg : g.AllKnown) (m : MemberNode) : (g.addMember m).AllKnown := by
  intro id n hn
  rw [node?_addMember] at hn
  split at hn
  · obtain rfl := Option.some.inj hn
    rfl
  · split at hn
    · obtain ⟨k, hk, rfl⟩ := Option.map_eq_some_iff.mp hn
      have := hg _ k hk
      cases k with
      | class_ c => exact this
      | member _ => rfl
    · exact hg id n hn

theorem AllKnown.declare (hg : g.AllKnown) (ho : origin ≠ .unresolved) :
    (g.declare u origin).AllKnown := by
  refine List.foldlRecOn _ _ ?_ fun g hg m _ => hg.addMember m
  intro id n hn
  rw [addClass, node?_insert] at hn
  split at hn
  · obtain rfl := Option.some.inj hn
    exact decide_eq_false ho
  · exact hg id n hn

theorem contains_foldl_addMember {members : List MemberNode} :
    (members.foldl addMember g).contains x = true ↔
      g.contains x = true ∨ x ∈ members.map MemberNode.id := by
  induction members generalizing g with
  | nil => simp
  | cons m members ih =>
    rw [List.foldl_cons, ih, contains_addMember, List.map_cons, List.mem_cons]
    tauto

theorem contains_declare : (g.declare u origin).contains x = true ↔
    g.contains x = true ∨ x ∈ u.nodeIds := by
  have hmembers : u.memberNodes.map MemberNode.id =
      u.methods.map (·.id u.name) ++ u.fields.map (·.id u.name) := by
    rw [CompiledUnit.memberNodes, List.map_append, List.map_map, List.map_map]
    rfl
  rw [declare, contains_foldl_addMember, addClass, contains_insert, hmembers,
    CompiledUnit.nodeIds, List.cons_append, List.mem_cons]
  show (x = u.id ∨ _) ∨ _ ↔ _
  tauto

theorem mem_contains_of_mem_supertypes (h : x ∈ g.hierarchy.supertypes id) :
    g.contains x = true := by
  unfold Hierarchy.supertypes at h
  cases hl : g.hierarchy.rows.lookup id with
  | none => simp [hl] at h
  | some above =>
    rw [hl] at h
    obtain ⟨c, _, hrow⟩ := List.mem_map.mp (mem_of_lookup_eq_some hl)
    obtain ⟨_, rfl⟩ := Prod.mk.inj hrow
    exact contains_iff_mem.mpr
      (mem_fresh_of_mem_breadthFirst (List.mem_of_mem_filter h))

/-- A class that is in both graphs is the same in both, apart from its signature. -/
theorem SameCore.class?_of_contains (h : SameCore g g') (hg : g.Tame platform)
    (hg' : g'.Tame platform) (hw : g.WellFormed) (hw' : g'.WellFormed) {name : String}
    (hc : g.contains (.class_ name) = true) (hc' : g'.contains (.class_ name) = true) :
    ∃ c c', g.class? name = some c ∧ g'.class? name = some c' ∧ c'.bare = c.bare := by
  rcases h.class?_cases hg hg' name with hknown | ⟨hb, hb'⟩
  · exact hknown
  · obtain ⟨c, hcl⟩ := hw.class?_of_contains hc
    obtain ⟨c', hcl'⟩ := hw'.class?_of_contains hc'
    rcases hb with hb | hb
    · simp [hcl] at hb
    · rcases hb' with hb' | hb'
      · simp [hcl'] at hb'
      · exact ⟨_, _, hb, hb', rfl⟩

theorem SameCore.contains_of_core (h : SameCore g g') (hn : g.core id = some n) :
    g'.contains id = true := by
  rw [h id] at hn
  obtain ⟨k, hk, _⟩ := core_eq_some_iff.mp hn
  exact contains_iff_node?.mpr ⟨k, hk⟩

section Overrides

/-- The classes above one, as nodes. -/
def classesAbove (g : Graph) (id : NodeId) : List ClassNode :=
  (g.hierarchy.supertypes id).filterMap fun id => (g.node? id).bind Node.class?

theorem overrideEdges_eq (u : CompiledUnit) (m : Method) :
    g.overrideEdges g.hierarchy u m =
      if !m.canOverride then []
      else
        (((g.classesAbove u.id).filter (·.isProgram)).filterMap (g.overridable? · m.key)).map
          (⟨m.id u.name, ·, .overrides⟩) ++
        (if isObjectMethod m.key || (g.classesAbove u.id).any (g.overridesOutside m.key) then
          [⟨u.id, m.id u.name, .implicit⟩] else []) := rfl

variable (h : SameCore g g') (hg : g.Tame platform) (hg' : g'.Tame platform)
  (hw : g.WellFormed) (hw' : g'.WellFormed) (hl : g.parents = g'.parents)

include h in
theorem SameCore.overridable? {c c' : ClassNode} (hb : c'.bare = c.bare) (key : MemberKey) :
    g.overridable? c key = g'.overridable? c' key := by
  unfold Graph.overridable?
  rw [(ClassNode.profile_of_bare_eq hb).name, h.declared c.name .method key]
  congr 1
  funext id
  rcases h.member?_cases id with ⟨m, m', hm, hm', hb⟩ | ⟨hm, hm'⟩
  · simp [hm, hm', (MemberNode.of_bare_eq hb).2]
  · simp [hm, hm']

include h in
theorem SameCore.overridesOutside {c c' : ClassNode} (hb : c'.bare = c.bare) (key : MemberKey) :
    g.overridesOutside key c = g'.overridesOutside key c' := by
  have hprofile := ClassNode.profile_of_bare_eq hb
  simp only [Graph.overridesOutside, ClassNode.isPlaceholder, hprofile.isProgram, hprofile.superclass,
    ClassNode.members_of_bare_eq hb, h.overridable? hb key]

include h hg hg' hw hw' hl in
/-- Above a class stand the same classes, apart from their signatures. -/
theorem SameCore.classesAbove (id : NodeId) :
    (g.classesAbove id).map ClassNode.bare = (g'.classesAbove id).map ClassNode.bare := by
  have hclass : ∀ x, g.contains x = true → g'.contains x = true →
      ((g.node? x).bind Node.class?).map ClassNode.bare =
        ((g'.node? x).bind Node.class?).map ClassNode.bare := by
    intro x hx hx'
    cases x with
    | class_ name =>
      obtain ⟨c, c', hc, hc', hb⟩ := h.class?_of_contains hg hg' hw hw' hx hx'
      rw [Graph.class?] at hc hc'
      rw [hc, hc', Option.map_some, Option.map_some, hb]
    | method ref | field ref =>
      have hnone : ∀ (g : Graph) (x : NodeId), x.isClass = false →
          (g.node? x).bind Node.class? = none := by
        intro g x hid
        cases hn : g.node? x with
        | none => rfl
        | some n =>
          cases n with
          | member m => rfl
          | class_ c =>
            rw [← id_of_node? hn] at hid
            cases hid
      rw [hnone g _ rfl, hnone g' _ rfl]
  have hsuper := hw.supertypes_congr hw' hl id
  have hin : ∀ x ∈ g.hierarchy.supertypes id, g.contains x = true ∧ g'.contains x = true :=
    fun x hx => ⟨mem_contains_of_mem_supertypes hx, mem_contains_of_mem_supertypes (hsuper ▸ hx)⟩
  rw [Graph.classesAbove, Graph.classesAbove, ← hsuper, List.map_filterMap, List.map_filterMap]
  exact List.filterMap_congr fun x hx => hclass x (hin x hx).1 (hin x hx).2

include h hg hg' hw hw' hl in
/-- Methods override the same methods in graphs with the same core and hierarchy. -/
theorem SameCore.overrideEdges {u u' : CompiledUnit} {m m' : Method} (hu : u'.name = u.name)
    (hk : m'.key = m.key) (hm : m'.modifiers = m.modifiers) :
    g.overrideEdges g.hierarchy u m = g'.overrideEdges g'.hierarchy u' m' := by
  obtain ⟨hname, hdesc⟩ := MemberKey.mk.inj hk
  have hcan : m'.canOverride = m.canOverride := by
    simp only [Method.canOverride, hm, hname]
  have hid : m'.id u'.name = m.id u.name := by simp only [Method.id, hu, hname, hdesc]
  have hself : u'.id = u.id := by simp only [CompiledUnit.id, hu]
  rw [overrideEdges_eq, overrideEdges_eq, hcan, hid, hself, hk]
  -- Both lists of classes above are read through what they have in common.
  have hover : ∀ {cs cs' : List ClassNode}, cs.map ClassNode.bare = cs'.map ClassNode.bare →
      (cs.filter (·.isProgram)).filterMap (g.overridable? · m.key) =
        (cs'.filter (·.isProgram)).filterMap (g'.overridable? · m.key) ∧
      cs.any (g.overridesOutside m.key) = cs'.any (g'.overridesOutside m.key) := by
    intro cs
    induction cs with
    | nil =>
      intro cs' hmap
      obtain rfl : cs' = [] := by simpa using hmap.symm
      exact ⟨rfl, rfl⟩
    | cons c cs ih =>
      intro cs' hmap
      obtain ⟨c', cs', rfl, hb, hrest⟩ := List.map_eq_cons_iff.mp hmap.symm
      obtain ⟨hfil, hany⟩ := ih hrest.symm
      refine ⟨?_, ?_⟩
      · simp only [List.filter_cons, (ClassNode.profile_of_bare_eq hb).isProgram]
        split
        · rw [List.filterMap_cons, List.filterMap_cons, h.overridable? hb, hfil]
        · exact hfil
      · rw [List.any_cons, List.any_cons, h.overridesOutside hb, hany]
  obtain ⟨hfil, hany⟩ := hover (h.classesAbove hg hg' hw hw' hl u.id)
  rw [hfil, hany]

/-- The edges of an overriding method have both ends in the graph. -/
theorem contains_of_mem_overrideEdges {h : Hierarchy} {u : CompiledUnit} {m : Method} {e : Edge}
    (hu : g.contains u.id = true) (hm : g.contains (m.id u.name) = true)
    (he : e ∈ g.overrideEdges h u m) :
    g.contains e.source = true ∧ g.contains e.target = true := by
  unfold Graph.overrideEdges at he
  split at he
  · cases he
  · rcases List.mem_append.mp he with he | he
    · obtain ⟨id, hid, rfl⟩ := List.mem_map.mp he
      obtain ⟨c, _, hc⟩ := List.mem_filterMap.mp hid
      exact ⟨hm, contains_of_declared (Option.filter_eq_some_iff.mp hc).1⟩
    · split at he
      · rw [List.mem_singleton.mp he]
        exact ⟨hu, hm⟩
      · cases he

theorem kind_of_mem_overrideEdges {h : Hierarchy} {u : CompiledUnit} {m : Method} {e : Edge}
    (he : e ∈ g.overrideEdges h u m) :
    (e.kind = .overrides ∧ e.source = m.id u.name) ∨ e = ⟨u.id, m.id u.name, .implicit⟩ := by
  unfold Graph.overrideEdges at he
  split at he
  · cases he
  · rcases List.mem_append.mp he with he | he
    · obtain ⟨id, _, rfl⟩ := List.mem_map.mp he
      exact .inl ⟨rfl, rfl⟩
    · split at he
      · exact .inr (List.mem_singleton.mp he)
      · cases he

theorem overrideEdges_of_nodes_eq (hn : g'.nodes = g.nodes) (h : Hierarchy) :
    g'.overrideEdges h = g.overrideEdges h := by
  have hnode : g'.node? = g.node? := by
    funext x
    rw [node?, node?, hn]
  have hcontains : g'.contains = g.contains := by
    funext x
    rw [contains, contains, hn]
  have hover : g'.overridable? = g.overridable? := by
    funext c key
    simp only [Graph.overridable?, Graph.declared, Graph.member?, hnode, hcontains]
  have hout : g'.overridesOutside = g.overridesOutside := by
    funext key c
    rw [Graph.overridesOutside, Graph.overridesOutside, hover]
  funext u m
  simp only [Graph.overrideEdges, hnode, hover, hout]

/-- Linking the overriding methods of a unit adds their edges, and nothing else. -/
theorem linkOverrides_spec (h : Hierarchy) (g : Graph) (u : CompiledUnit) :
    (g.linkOverrides h u).nodes = g.nodes ∧
    (∀ e, e ∈ (g.linkOverrides h u).edges ↔ e ∈ g.edges ∨
      (∃ m ∈ u.methods, e ∈ g.overrideEdges h u m) ∧
        g.contains e.source = true ∧ g.contains e.target = true) ∧
    (g.linkOverrides h u).ladder = g.ladder := by
  unfold linkOverrides
  induction u.methods generalizing g with
  | nil => simp
  | cons m methods ih =>
    rw [List.foldl_cons]
    obtain ⟨hnodes, hedges, hladder⟩ := ih (g.addEdges (g.overrideEdges h u m))
    refine ⟨hnodes.trans nodes_addEdges, fun e => ?_, hladder.trans ?_⟩
    · rw [hedges, mem_addEdges, contains_addEdges, overrideEdges_of_nodes_eq nodes_addEdges]
      simp only [List.mem_cons, exists_eq_or_imp]
      tauto
    · refine filter_addEdges fun e he => ?_
      rcases kind_of_mem_overrideEdges he with ⟨hk, _⟩ | rfl
      · simp [hk, EdgeKind.isHierarchy]
      · rfl

theorem foldl_linkOverrides_spec (h : Hierarchy) (g : Graph) (us : List SourcedUnit) :
    (us.foldl (fun g s => g.linkOverrides h s.unit) g).nodes = g.nodes ∧
    (∀ e, e ∈ (us.foldl (fun g s => g.linkOverrides h s.unit) g).edges ↔ e ∈ g.edges ∨
      (∃ s ∈ us, ∃ m ∈ s.unit.methods, e ∈ g.overrideEdges h s.unit m) ∧
        g.contains e.source = true ∧ g.contains e.target = true) ∧
    (us.foldl (fun g s => g.linkOverrides h s.unit) g).ladder = g.ladder := by
  induction us generalizing g with
  | nil => simp
  | cons s us ih =>
    rw [List.foldl_cons]
    obtain ⟨hnodes, hedges, hladder⟩ := ih (g.linkOverrides h s.unit)
    obtain ⟨hnodes', hedges', hladder'⟩ := linkOverrides_spec h g s.unit
    have hcontains : (g.linkOverrides h s.unit).contains = g.contains := by
      funext x
      rw [contains, contains, hnodes']
    refine ⟨hnodes.trans hnodes', fun e => ?_, hladder.trans hladder'⟩
    rw [hedges, hcontains, overrideEdges_of_nodes_eq hnodes', hedges']
    simp only [List.mem_cons, exists_eq_or_imp]
    rw [or_assoc, ← or_and_right]

end Overrides

end Graph

namespace Program

open Graph

variable {p : Program} {g : Graph} {e : Edge} {s : SourcedUnit} {u : CompiledUnit} {id : NodeId}

theorem allKnown_declared (p : Program) : p.declared.AllKnown := by
  refine List.foldlRecOn _ _ (List.foldlRecOn _ _ (fun id n hn => by cases hn) ?_) ?_
  · intro g hg s _
    exact hg.declare nofun
  · intro g hg u _
    exact hg.declare nofun

theorem tame_declared (p : Program) : p.declared.Tame p.platform where
  standIn id n hn hu := by simp [p.allKnown_declared id n hn] at hu
  owner id m hm := by
    obtain ⟨hn, rfl⟩ := member?_eq_some hm
    obtain ⟨c, hc⟩ := p.wellFormed_declared.class?_of_contains
      (p.wellFormed_declared.owned m (mem_of_node? hn)).2
    refine ⟨c, hc, ?_⟩
    simpa [Marking.isUnresolved] using p.allKnown_declared _ _ (class?_eq_some hc).1

/-- The units that are declared, of the program and of its libraries. -/
def roster (p : Program) : List CompiledUnit := p.units.map (·.unit) ++ p.visibleLibraries

theorem contains_declared (hu : u ∈ p.roster) (hid : id ∈ u.nodeIds) :
    p.declared.contains id = true := by
  -- Whatever a unit declares is still there after the units that follow.
  have hmono : ∀ {α : Type} (unit : α → CompiledUnit) (origin : α → Origin) (l : List α) (g : Graph),
      (g.contains id = true ∨ ∃ a ∈ l, id ∈ (unit a).nodeIds) →
      (l.foldl (fun g a => g.declare (unit a) (origin a)) g).contains id = true := by
    intro α unit origin l
    induction l with
    | nil =>
      intro g h
      simpa using h
    | cons a l ih =>
      intro g h
      refine ih _ ?_
      rw [contains_declare]
      rcases h with h | ⟨b, hb, hbid⟩
      · exact .inl (.inl h)
      · rcases List.mem_cons.mp hb with rfl | hb
        · exact .inl (.inr hbid)
        · exact .inr ⟨b, hb, hbid⟩
  refine hmono (fun u => u) (fun _ => .library) p.visibleLibraries _ ?_
  rcases List.mem_append.mp hu with hu | hu
  · obtain ⟨s, hs, rfl⟩ := List.mem_map.mp hu
    exact .inl (hmono (·.unit) (.program ·.source) p.units _ (.inr ⟨s, hs, hid⟩))
  · exact .inr ⟨u, hu, hid⟩

theorem hierarchyLinks_spec {l : Link} (hl : l ∈ u.hierarchyLinks) :
    l.Kinds (·.isHierarchy = true) ∧ l.source = u.id := by
  rcases List.mem_append.mp hl with hl | hl
  all_goals
    obtain ⟨_, _, rfl⟩ := List.mem_map.mp hl
    exact ⟨rfl, rfl⟩

theorem skeleton_eq_applyLinks (p : Program) : p.skeleton =
    p.declared.applyLinks p.platform (p.roster.flatMap CompiledUnit.hierarchyLinks) := by
  rw [applyLinks, List.foldl_flatMap]
  rfl

theorem skeleton_extension (p : Program) : Extension p.platform true p.declared p.skeleton := by
  refine List.foldlRecOn _ _ (.refl _) fun g hg u _ => ?_
  exact hg.trans (applyLinks_extension fun _ _ _ => rfl)

theorem tame_skeleton (p : Program) : p.skeleton.Tame p.platform :=
  p.tame_declared.extend p.skeleton_extension

theorem edges_declared (p : Program) : p.declared.edges = [] := by
  have hedges : ∀ (g : Graph) (u : CompiledUnit) (origin : Origin),
      (g.declare u origin).edges = g.edges := by
    intro g u origin
    refine List.foldlRecOn (motive := fun g' : Graph => g'.edges = g.edges) _ _ ?_ ?_
    · exact edges_insert
    · intro g' hg' m _
      rw [edges_addMember, hg']
  refine List.foldlRecOn (motive := fun g : Graph => g.edges = []) _ _
    (List.foldlRecOn (motive := fun g : Graph => g.edges = []) _ _ rfl ?_) ?_
  · intro g hg s _
    rw [hedges, hg]
  · intro g hg u _
    rw [hedges, hg]

/-- The skeleton has edges of the hierarchy only, from the units that are declared. -/
theorem of_mem_edges_skeleton (he : e ∈ p.skeleton.edges) :
    e.kind.isHierarchy = true ∧ ∃ u ∈ p.roster, e.source = u.id := by
  revert he
  refine List.foldlRecOn (motive := fun g : Graph => e ∈ g.edges →
    e.kind.isHierarchy = true ∧ ∃ u ∈ p.roster, e.source = u.id) _ _ ?_ ?_
  · rw [edges_declared]
    nofun
  · intro g hg u hu he
    rcases of_mem_applyLinks (fun l hl => (hierarchyLinks_spec hl).1) he with he | ⟨hk, l, hl, hs⟩
    · exact hg he
    · exact ⟨hk, u, hu, hs.trans (hierarchyLinks_spec hl).2⟩

theorem ladder_skeleton (p : Program) : p.skeleton.ladder = p.skeleton.edges :=
  List.filter_eq_self.mpr fun _ he => (of_mem_edges_skeleton he).1

/-- The nodes of the units are known. -/
theorem core_skeleton (hu : u ∈ p.roster) (hid : id ∈ u.nodeIds) :
    ∃ n, p.skeleton.core id = some n := by
  obtain ⟨n, hn⟩ := contains_iff_node?.mp (contains_declared hu hid)
  exact ⟨n.bare, core_eq_some_iff.mpr
    ⟨n, p.skeleton_extension.retains id n hn, p.allKnown_declared id n hn, rfl⟩⟩

theorem contains_skeleton (hu : u ∈ p.roster) (hid : id ∈ u.nodeIds) :
    p.skeleton.contains id = true :=
  p.skeleton_extension.contains (contains_declared hu hid)

theorem unit_mem_roster (hs : s ∈ p.units) : s.unit ∈ p.roster :=
  List.mem_append_left _ (List.mem_map_of_mem hs)

/-- What the declarations, bodies and overriding methods of a program stand for, apart from its
hierarchy and its signatures. -/
inductive Links (p : Program) (e : Edge) : Prop
  | declaration {s : SourcedUnit} {l : Link} : s ∈ p.units → l ∈ s.unit.declarationLinks →
      e ∈ l.edges p.platform p.skeleton → Links p e
  | body {s : SourcedUnit} {m : Method} {i : Instruction} {l : Link} : s ∈ p.units →
      s.unit.library = false → m ∈ s.unit.methods → i ∈ m.body →
      l ∈ i.links s.unit (m.id s.unit.name) → e ∈ l.edges p.platform p.skeleton → Links p e
  | override {s : SourcedUnit} {m : Method} : s ∈ p.units → m ∈ s.unit.methods →
      e ∈ p.skeleton.overrideEdges p.skeleton.hierarchy s.unit m → Links p e

/-- The graph stands for the program, with whatever stand-ins and edges for signatures. -/
structure Linked (p : Program) (g : Graph) : Prop where
  wellFormed : g.WellFormed
  tame : g.Tame p.platform
  core : SameCore p.skeleton g
  ladder : g.ladder = p.skeleton.ladder
  edges : ∀ e, e.kind.isHierarchy = false → e.kind ≠ .signature → (e ∈ g.edges ↔ p.Links e)
  /-- Edges start at the nodes of units. -/
  sources : ∀ e ∈ g.edges, ∃ u ∈ p.roster, e.source ∈ u.nodeIds

theorem Linked.supertypes (hl : p.Linked g) (id : NodeId) :
    g.hierarchy.supertypes id = p.skeleton.hierarchy.supertypes id :=
  hl.wellFormed.supertypes_congr p.wellFormed_skeleton (parents_congr hl.ladder) id

/-- All links of the program that do not concern its hierarchy. -/
def lateralLinks (p : Program) : List Link :=
  p.units.flatMap fun s => s.unit.declarationLinks ++ s.unit.bodyLinks

theorem lateral_of_mem_lateralLinks {l : Link} (hl : l ∈ p.lateralLinks) :
    l.Lateral ∧ ∃ s ∈ p.units, l.source ∈ s.unit.nodeIds := by
  obtain ⟨s, hs, hl⟩ := List.mem_flatMap.mp hl
  rcases List.mem_append.mp hl with hl | hl
  · obtain ⟨hlat, hsource, _⟩ := CompiledUnit.lateral_of_mem_declarationLinks hl
    exact ⟨hlat, s, hs, hsource⟩
  · obtain ⟨hlat, hsource, _⟩ := CompiledUnit.lateral_of_mem_bodyLinks hl
    exact ⟨hlat, s, hs, hsource⟩

theorem contains_source_of_mem_lateralLinks {l : Link} (hl : l ∈ p.lateralLinks) :
    p.skeleton.contains l.source = true := by
  obtain ⟨_, s, hs, hmem⟩ := lateral_of_mem_lateralLinks hl
  exact contains_skeleton (unit_mem_roster hs) hmem

/-- Signatures apart, what a program stands for are its lateral links and its overriding methods. -/
theorem links_iff {e : Edge} (hsig : e.kind ≠ .signature) : p.Links e ↔
    (∃ l ∈ p.lateralLinks, e ∈ l.edges p.platform p.skeleton) ∨
      ∃ s ∈ p.units, ∃ m ∈ s.unit.methods,
        e ∈ p.skeleton.overrideEdges p.skeleton.hierarchy s.unit m := by
  constructor
  · rintro (⟨hs, hl, he⟩ | ⟨hs, hu, hm, hi, hl, he⟩ | ⟨hs, hm, he⟩)
    · exact .inl ⟨_, List.mem_flatMap.mpr ⟨_, hs, List.mem_append_left _ hl⟩, he⟩
    · exact .inl ⟨_, List.mem_flatMap.mpr ⟨_, hs, List.mem_append_right _
        (CompiledUnit.instruction_link_mem hu hm hi hl)⟩, he⟩
    · exact .inr ⟨_, hs, _, hm, he⟩
  · rintro (⟨l, hl, he⟩ | ⟨s, hs, m, hm, he⟩)
    · obtain ⟨s, hs, hl⟩ := List.mem_flatMap.mp hl
      rcases List.mem_append.mp hl with hl | hl
      · exact .declaration hs hl he
      · obtain ⟨hu, m, hm, i, hi, hl⟩ := CompiledUnit.of_mem_bodyLinks_edges hl he hsig
        exact .body hs hu hm hi hl he
    · exact .override hs hm he

theorem complete_eq (p : Program) (g : Graph) : p.complete g =
    p.units.foldl (fun g' s => g'.linkOverrides (g.applyLinks p.platform p.lateralLinks).hierarchy
      s.unit) (g.applyLinks p.platform p.lateralLinks) := by
  have hfold : ∀ (us : List SourcedUnit) (g : Graph),
      us.foldl (fun g s => g.applyLinks p.platform
        (s.unit.declarationLinks ++ s.unit.bodyLinks)) g =
      g.applyLinks p.platform
        (us.flatMap fun s => s.unit.declarationLinks ++ s.unit.bodyLinks) := by
    intro us
    induction us with
    | nil => exact fun _ => rfl
    | cons s us ih =>
      intro g
      rw [List.foldl_cons, ih, List.flatMap_cons]
      exact List.foldl_append.symm
  unfold complete
  dsimp only
  rw [hfold]
  rfl

/-- The graph of a program is linked. -/
theorem linked_of_build (hp : p.build = .ok g) : p.Linked g := by
  have hwf := wellFormed_of_build hp
  obtain ⟨_, rfl⟩ := build_eq_ok_iff.mp hp
  rw [complete_eq] at hwf ⊢
  generalize hmid : p.skeleton.applyLinks p.platform p.lateralLinks = mid at hwf ⊢
  have hlat : ∀ l ∈ p.lateralLinks, l.Lateral := fun l hl => (lateral_of_mem_lateralLinks hl).1
  have hext : Extension p.platform false p.skeleton mid :=
    hmid ▸ applyLinks_extension_of_lateral hlat
  have hmidwf : mid.WellFormed := hmid ▸ p.wellFormed_skeleton.applyLinks
  have hmidladder : mid.ladder = p.skeleton.ladder := hmid ▸ ladder_applyLinks hlat
  have hmidtame := p.tame_skeleton.extend hext
  obtain ⟨hnodes, hedges, hladder⟩ := foldl_linkOverrides_spec mid.hierarchy mid p.units
  generalize p.units.foldl (fun g' s => g'.linkOverrides mid.hierarchy s.unit) mid = g
    at hwf hnodes hedges hladder ⊢
  have hext' : Extension p.platform false mid g := .of_node?_eq (by
    funext x
    rw [node?, node?, hnodes])
  have hover : ∀ (s : SourcedUnit) (m : Method), mid.overrideEdges mid.hierarchy s.unit m =
      p.skeleton.overrideEdges p.skeleton.hierarchy s.unit m := fun s m =>
    (hext.sameCore.symm).overrideEdges hmidtame p.tame_skeleton hmidwf p.wellFormed_skeleton
      (parents_congr hmidladder) rfl rfl rfl
  have hin : ∀ s ∈ p.units, ∀ id ∈ s.unit.nodeIds, mid.contains id = true :=
    fun s hs id hid => hext.contains (contains_skeleton (unit_mem_roster hs) hid)
  refine ⟨hwf, hmidtame.extend hext', hext.sameCore.trans hext'.sameCore,
    hladder.trans hmidladder, fun e hk hsig => ?_, fun e he => ?_⟩
  · -- The edges of the skeleton are of the hierarchy, so the others come from links.
    have hskel : e ∉ p.skeleton.edges := by
      intro he
      have := (of_mem_edges_skeleton he).1
      simp [hk] at this
    have hmid' : e ∈ mid.edges ↔ ∃ l ∈ p.lateralLinks, e ∈ l.edges p.platform p.skeleton := by
      rw [← hmid, SameCore.mem_applyLinks (fun _ => rfl) p.tame_skeleton p.tame_skeleton hlat
        (fun _ => contains_source_of_mem_lateralLinks) hsig, or_iff_right hskel]
    rw [hedges, hmid', links_iff hsig]
    simp only [← hover]
    refine or_congr_right ⟨And.left, fun he => ⟨he, ?_⟩⟩
    obtain ⟨s, hs, m, hm, he⟩ := he
    exact contains_of_mem_overrideEdges (hin s hs _ (CompiledUnit.id_mem_nodeIds _))
      (hin s hs _ (CompiledUnit.method_mem_nodeIds hm)) he
  · rcases (hedges e).mp he with he | ⟨⟨s, hs, m, hm, he⟩, _⟩
    · rw [← hmid] at he
      rcases of_mem_applyLinks (fun l hl => (hlat l hl).kinds) he with he | ⟨_, l, hl, hs⟩
      · obtain ⟨_, u, hu, hs⟩ := of_mem_edges_skeleton he
        exact ⟨u, hu, hs ▸ u.id_mem_nodeIds⟩
      · obtain ⟨_, s, hmem, hsrc⟩ := lateral_of_mem_lateralLinks hl
        exact ⟨_, unit_mem_roster hmem, hs ▸ hsrc⟩
    · refine ⟨_, unit_mem_roster hs, ?_⟩
      rcases kind_of_mem_overrideEdges he with ⟨_, hsrc⟩ | rfl
      · exact hsrc ▸ CompiledUnit.method_mem_nodeIds hm
      · exact CompiledUnit.id_mem_nodeIds _

/-- The hierarchy of a graph that is built can be ranked. -/
theorem exists_ranked_of_build (hp : p.build = .ok g) : ∃ rank, g.Ranked rank := by
  obtain ⟨rank, hrank⟩ := exists_build_iff.mp ⟨g, hp⟩
  exact ⟨rank, fun id above ha => hrank id above (parents_congr (linked_of_build hp).ladder ▸ ha)⟩

end Program

end Winnow
