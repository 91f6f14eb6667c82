import Winnow.Proofs.Incremental.Placeholders
import Winnow.Proofs.Program.Gather
import Winnow.Proofs.Pruning.Linking

/-!
# The order of units does not matter

Units come in the order in which files are found. Which node comes first, which mention of an
unknown class makes the placeholder for it, and in which order edges stand in the graph all
depend on it. What is in the graph does not, and neither does what is kept: only a signature
may or may not lead to a placeholder, by whether it was there when the signature was read.
-/
namespace Winnow

open Graph Marking

/-- If keys are distinct, what has a given key is the same list in every order. -/
theorem filter_eq_of_perm {α β : Type} [DecidableEq β] {f : α → β} {l l' : List α}
    (h : l'.Perm l) (hd : (l.map f).Nodup) (b : β) :
    l'.filter (f · = b) = l.filter (f · = b) := by
  have hperm : (l'.filter (f · = b)).Perm (l.filter (f · = b)) := h.filter _
  have hmem : ∀ x ∈ l.filter (f · = b), f x = b := fun x hx => by simpa using (List.mem_filter.mp hx).2
  have hnodup : ((l.filter (f · = b)).map f).Nodup := (List.filter_sublist.map f).nodup hd
  cases hl : l.filter (f · = b) with
  | nil => exact List.perm_nil.mp (hl ▸ hperm)
  | cons x rest =>
    cases rest with
    | nil => exact List.perm_singleton.mp (hl ▸ hperm)
    | cons y rest =>
      rw [hl] at hmem hnodup
      have hxy : f x = f y := (hmem x (by simp)).trans (hmem y (by simp)).symm
      simp [hxy] at hnodup

namespace Graph

variable {g g' k k' : Graph} {platform : Platform} {b : Bool} {e : Edge} {links : List Link}

/-- Extensions of the same nodes that have the same identities have the same nodes. -/
theorem Extension.node?_congr (hg : Extension platform b g g') (hk : Extension platform b k k')
    (hbase : ∀ id, g.node? id = k.node? id)
    (hcontains : ∀ id, g'.contains id = true ↔ k'.contains id = true) (id : NodeId) :
    g'.node? id = k'.node? id := by
  cases hold : g.node? id with
  | some n => rw [hg.retains id n hold, hk.retains id n (hbase id ▸ hold)]
  | none =>
    have hold' : k.node? id = none := hbase id ▸ hold
    cases hn : g'.node? id with
    | none =>
      have hnone : ¬ k'.contains id = true := by
        rw [← hcontains, contains_iff_node?, hn]
        simp
      exact (node?_eq_none_iff.mpr (by simpa using hnone)).symm
    | some n =>
      obtain ⟨n', hn'⟩ := contains_iff_node?.mp
        ((hcontains id).mp (contains_iff_node?.mpr ⟨n, hn⟩))
      obtain ⟨name, rfl, _⟩ := hg.introduced id n hn hold
      obtain ⟨name', rfl, _⟩ := hk.introduced id n' hn' hold'
      have hname : NodeId.class_ name = NodeId.class_ name' :=
        (id_of_node? hn).trans (id_of_node? hn').symm
      rw [hn', NodeId.class_.inj hname]

/-- An edge for a signature comes from a link that names it. -/
theorem of_signature_mem_applyLinks (hk : e.kind = .signature) (hl : ∀ l ∈ links, l.Introduces)
    (he : e ∈ (applyLinks platform g links).edges) : e ∈ g.edges ∨ Link.known e ∈ links := by
  induction links generalizing g with
  | nil => exact .inl he
  | cons l links ih =>
    rcases ih (fun l hl' => hl l (List.mem_cons_of_mem _ hl')) he with he | he
    · refine (mem_applyLink.mp he).imp_right fun ⟨_, he⟩ => ?_
      rw [l.eq_known_of_signature (hl l List.mem_cons_self) he hk]
      exact List.mem_cons_self
    · exact .inr (List.mem_cons_of_mem _ he)

/-- A signature leads to what is there. -/
theorem signature_mem_applyLinks (hk : Link.known e ∈ links) (hs : g.contains e.source = true)
    (ht : g.contains e.target = true) : e ∈ (applyLinks platform g links).edges := by
  induction links generalizing g with
  | nil => cases hk
  | cons l links ih =>
    rcases List.mem_cons.mp hk with rfl | hk
    · have he : e ∈ (applyLink platform g (.known e)).edges :=
        mem_applyLink.mpr (.inr ⟨hs, by simp [Link.edges, ht]⟩)
      exact mem_applyLinks_of_mem (g := applyLink platform g (.known e)) he
    · exact ih hk (applyLink_extension.contains hs) (applyLink_extension.contains ht)

end Graph

namespace Program

variable {p q : Program} {g g' : Graph} {id : NodeId} {e : Edge}

/-- The same units in another order. -/
structure Reordered (p q : Program) : Prop where
  platform : q.platform = p.platform
  units : q.units.Perm p.units
  libraries : q.libraries = p.libraries

/-- The edges from a class to what stands above it come from the units of that name. -/
theorem filter_supertypeEdges (units : List CompiledUnit) (id : NodeId) :
    (units.flatMap CompiledUnit.supertypeEdges).filter (·.source = id) =
      (units.filter (·.id = id)).flatMap CompiledUnit.supertypeEdges := by
  induction units with
  | nil => rfl
  | cons u units ih =>
    have hsource : ∀ e ∈ u.supertypeEdges, e.source = u.id :=
      fun e he => (CompiledUnit.of_mem_supertypeEdges he).1
    rw [List.flatMap_cons, List.filter_append, ih]
    by_cases hid : u.id = id
    · rw [List.filter_cons_of_pos (by simpa using hid), List.flatMap_cons,
        List.filter_eq_self.mpr fun e he => by simp [hsource e he, hid]]
    · rw [List.filter_cons_of_neg (by simpa using hid),
        List.filter_eq_nil_iff.mpr fun e he => by simp [hsource e he, hid], List.nil_append]

/-- The classes of the skeleton are declared or stand above others. -/
theorem contains_skeleton_iff : p.skeleton.contains id = true ↔
    p.declared.contains id = true ∨ ∃ e ∈ p.skeleton.edges, e.target = id := by
  constructor
  · intro hid
    by_cases hd : p.declared.contains id = true
    · exact .inl hd
    · rw [skeleton_eq_applyLinks] at hid ⊢
      have hl : ∀ l ∈ p.roster.flatMap CompiledUnit.hierarchyLinks, l.Introduces := by
        intro l hl
        obtain ⟨u, _, hl⟩ := List.mem_flatMap.mp hl
        exact (hierarchyLinks_spec hl).1.introduces fun h => by cases h
      obtain ⟨e, he, ht, _⟩ := demanded_of_applyLinks hl hid (by simpa using hd)
      exact .inr ⟨e, he, ht⟩
  · rintro (hd | ⟨e, he, rfl⟩)
    · exact p.skeleton_extension.contains hd
    · exact (p.wellFormed_skeleton.ends e he).2

theorem extension_of_build (hb : p.build = .ok g) : Extension p.platform false p.skeleton g := by
  have hmid : Extension p.platform false p.skeleton (p.skeleton.applyLinks p.platform p.lateralLinks) :=
    applyLinks_extension_of_lateral fun l hl => (lateral_of_mem_lateralLinks hl).1
  refine hmid.trans (.of_node?_eq ?_)
  funext id
  rw [node?, node?, (nodes_of_build hb).1]

/-- The edges for signatures into known classes are those that signatures ask for. -/
theorem signature_mem_build_iff (hb : p.build = .ok g) (hk : e.kind = .signature)
    (ht : p.skeleton.contains e.target = true) :
    e ∈ g.edges ↔ ∃ s ∈ p.units, Link.known e ∈ s.unit.bodyLinks := by
  obtain ⟨_, rfl⟩ := build_eq_ok_iff.mp hb
  obtain ⟨_, hedges, _⟩ := foldl_linkOverrides_spec
    (p.skeleton.applyLinks p.platform p.lateralLinks).hierarchy
    (p.skeleton.applyLinks p.platform p.lateralLinks) p.units
  rw [complete_eq, hedges]
  constructor
  · rintro (he | ⟨⟨s, _, m, _, he⟩, _⟩)
    · rcases of_signature_mem_applyLinks hk (fun _ => introduces_of_mem_lateralLinks) he with he | he
      · have hhierarchy := (of_mem_edges_skeleton he).1
        rw [hk] at hhierarchy
        cases hhierarchy
      · obtain ⟨s, hs, he⟩ := List.mem_flatMap.mp he
        refine ⟨s, hs, (List.mem_append.mp he).resolve_left fun he => ?_⟩
        have hbody : e.kind.isBody = false := (CompiledUnit.lateral_of_mem_declarationLinks he).2.2
        rw [hk] at hbody
        cases hbody
    · rcases kind_of_mem_overrideEdges he with ⟨hkind, _⟩ | rfl
      · rw [hk] at hkind
        cases hkind
      · cases hk
  · rintro ⟨s, hs, he⟩
    have hsource : e.source ∈ s.unit.nodeIds := (CompiledUnit.lateral_of_mem_bodyLinks he).2.1
    exact .inl (signature_mem_applyLinks (List.mem_flatMap.mpr ⟨s, hs, List.mem_append_right _ he⟩)
      (contains_skeleton (unit_mem_roster hs) hsource) ht)

namespace Reordered

theorem symm (h : p.Reordered q) : q.Reordered p :=
  ⟨h.platform.symm, h.units.symm, h.libraries.symm⟩

section Skeleton

variable (h : p.Reordered q)
include h

theorem mem_names {name : String} : name ∈ q.names ↔ name ∈ p.names := (h.units.map _).mem_iff

theorem visibleLibraries_eq : q.visibleLibraries = p.visibleLibraries := by
  rw [visibleLibraries, visibleLibraries, h.libraries]
  exact List.filter_congr fun u _ => by simp [h.mem_names]

theorem mem_roster {u : CompiledUnit} : u ∈ q.roster ↔ u ∈ p.roster := by
  rw [roster, roster, List.mem_append, List.mem_append, h.visibleLibraries_eq,
    (h.units.map _).mem_iff]

theorem admissible (hp : p.Admissible) : q.Admissible where
  units s hs := hp.units s (h.units.mem_iff.mp hs)
  libraries u hu := hp.libraries u (h.libraries ▸ hu)
  distinct := (h.units.map _).nodup_iff.mpr hp.distinct

theorem contains_declared (id : NodeId) :
    q.declared.contains id = true ↔ p.declared.contains id = true := by
  simp only [contains_declared_iff, h.mem_roster]

theorem node?_declared (hp : p.Admissible) (id : NodeId) :
    q.declared.node? id = p.declared.node? id := by
  by_cases hid : id.className ∈ p.names
  · obtain ⟨s, hs, hname⟩ := List.mem_map.mp hid
    have hs' := h.units.mem_iff.mpr hs
    cases hin : p.declared.contains id with
    | false =>
      have hin' : q.declared.contains id = false := by
        rw [← Bool.not_eq_true, h.contains_declared, hin]
        exact Bool.false_ne_true
      rw [node?_eq_none_iff.mpr hin, node?_eq_none_iff.mpr hin']
    | true =>
      rcases CompiledUnit.mem_nodeIds_iff.mp (mem_nodeIds_of_contains hp hs hname.symm hin) with
        rfl | hmem
      · exact ((class?_eq_some (class?_declared (h.admissible hp) hs')).1).trans
          (class?_eq_some (class?_declared hp hs)).1.symm
      · obtain ⟨m, hm, rfl⟩ := List.mem_map.mp hmem
        exact ((member?_eq_some (member?_declared (h.admissible hp) hs' hm)).1).trans
          (member?_eq_some (member?_declared hp hs hm)).1.symm
  · exact node?_declared_congr h.visibleLibraries_eq (fun hq => hid (h.mem_names.mp hq)) hid

theorem mem_edges_skeleton : e ∈ q.skeleton.edges ↔ e ∈ p.skeleton.edges := by
  simp only [Program.mem_edges_skeleton, h.mem_roster]

theorem node?_skeleton (hp : p.Admissible) (id : NodeId) :
    q.skeleton.node? id = p.skeleton.node? id := by
  refine (h.platform ▸ q.skeleton_extension).node?_congr p.skeleton_extension
    (h.node?_declared hp) (fun id => ?_) id
  simp only [contains_skeleton_iff, h.contains_declared, h.mem_edges_skeleton]

theorem sameCore_skeleton (hp : p.Admissible) : SameCore p.skeleton q.skeleton := fun id => by
  rw [core, core, h.node?_skeleton hp]

theorem tame_skeleton : q.skeleton.Tame p.platform := h.platform ▸ q.tame_skeleton

/-- What stands directly above a class is what its own unit says, in the order in which it does. -/
theorem parents_skeleton (hp : p.Admissible) : q.skeleton.parents = p.skeleton.parents := by
  funext id
  refine parents_skeleton_congr ?_
  have hunits : (q.units.map (·.unit)).filter (·.id = id) = (p.units.map (·.unit)).filter (·.id = id) := by
    refine filter_eq_of_perm (h.units.map _) ?_ id
    have hd := hp.distinct.map (f := NodeId.class_) fun _ _ => NodeId.class_.inj
    simpa [names, CompiledUnit.id, Function.comp_def] using hd
  simp only [roster, List.flatMap_append, List.filter_append, filter_supertypeEdges, hunits,
    h.visibleLibraries_eq]

end Skeleton

section Linked

variable (h : p.Reordered q) (hp : p.Admissible)
include h hp

theorem links (hs : e.kind ≠ .signature) (hl : p.Links e) : q.Links e := by
  have hlink : ∀ {l : Link}, l.Lateral → e ∈ l.edges p.platform p.skeleton →
      e ∈ l.edges q.platform q.skeleton := fun hlat he => by
    rw [h.platform]
    exact ((h.sameCore_skeleton hp).mem_edges_iff p.tame_skeleton h.tame_skeleton hlat hs).mp he
  cases hl with
  | @declaration s l hmem hl he =>
    exact .declaration (h.units.mem_iff.mpr hmem) hl
      (hlink (CompiledUnit.lateral_of_mem_declarationLinks hl).1 he)
  | @body s m i l hmem hlib hm hi hl he =>
    exact .body (h.units.mem_iff.mpr hmem) hlib hm hi hl (hlink (Instruction.bodyLink hl).lateral he)
  | @override s m hmem hm he =>
    refine .override (h.units.mem_iff.mpr hmem) hm ?_
    rwa [← (h.sameCore_skeleton hp).overrideEdges p.tame_skeleton h.tame_skeleton
      p.wellFormed_skeleton q.wellFormed_skeleton (h.parents_skeleton hp).symm rfl rfl rfl]

variable (hl : p.Linked g) (hl' : q.Linked g')
include hl hl'

/-- The edges are the same but for those for signatures. -/
theorem mem_edges_iff (hs : e.kind ≠ .signature) : e ∈ g'.edges ↔ e ∈ g.edges := by
  have hladder : ∀ {r : Program} {k : Graph}, r.Linked k → e.kind.isHierarchy = true →
      (e ∈ k.edges ↔ e ∈ r.skeleton.edges) := fun {r k} hk hkind => by
    rw [← ladder_skeleton, ← hk.ladder, ladder, List.mem_filter, and_iff_left hkind]
  cases hk : e.kind.isHierarchy with
  | true => rw [hladder hl hk, hladder hl' hk, h.mem_edges_skeleton]
  | false =>
    rw [hl.edges e hk hs, hl'.edges e hk hs]
    exact ⟨h.symm.links (h.admissible hp) hs, h.links hp hs⟩

theorem parents_eq : g'.parents = g.parents := by
  rw [parents_congr hl.ladder, parents_congr hl'.ladder, h.parents_skeleton hp]

end Linked

section Built

variable (h : p.Reordered q) (hp : p.Admissible) (hb : p.build = .ok g) (hb' : q.build = .ok g')
include h hp hb hb'

theorem contains_of_build {id : NodeId} (hid : g.contains id = true) : g'.contains id = true := by
  have hl := linked_of_build hb
  have hl' := linked_of_build hb'
  by_cases hs : p.skeleton.contains id = true
  · refine (extension_of_build hb').contains ?_
    rwa [contains_iff_node?, h.node?_skeleton hp, ← contains_iff_node?]
  · -- A class that only mentions brought in is the target of one of them.
    have hcore : g.core id = none := by
      rw [← hl.core id, core_eq_none_iff]
      intro n hn
      exact absurd (contains_iff_node?.mpr ⟨n, hn⟩) hs
    obtain ⟨e, he, rfl, hk⟩ := demanded_of_build hb ⟨hid, hcore⟩
    exact (hl'.wellFormed.ends e ((h.mem_edges_iff hp hl hl' hk).mpr he)).2

theorem node?_of_build (id : NodeId) : g'.node? id = g.node? id :=
  (h.platform ▸ extension_of_build hb').node?_congr (extension_of_build hb) (h.node?_skeleton hp)
    (fun _ => ⟨h.symm.contains_of_build (h.admissible hp) hb' hb, h.contains_of_build hp hb hb'⟩) id

theorem perm_nodes : g'.nodes.Perm g.nodes := by
  have hw := wellFormed_of_build hb
  have hw' := wellFormed_of_build hb'
  refine (List.perm_ext_iff_of_nodup (.of_map _ hw'.distinct) (.of_map _ hw.distinct)).mpr fun n => ?_
  have hmem : ∀ {k : Graph}, k.WellFormed → (n ∈ k.nodes ↔ k.node? n.id = some n) := fun hk => by
    rw [hk.node?_eq_some_iff, and_iff_left rfl]
  rw [hmem hw, hmem hw', h.node?_of_build hp hb hb']

theorem classWarnings_eq : g'.classWarnings = g.classWarnings := by
  rw [(counted_of_build hb).warned, (counted_of_build hb').warned,
    (h.perm_nodes hp hb hb').countP_eq]

omit hb hb' in
theorem misses_eq : q.misses = p.misses := by
  funext id
  rw [misses, misses, ← (h.sameCore_skeleton hp).missesAt p.tame_skeleton h.tame_skeleton]
  exact (h.units.map _).sum_eq

theorem missingRefs_eq : g'.missingRefs = g.missingRefs :=
  SortedMap.ext_get? fun id => by
    rw [(counted_of_build hb).records, (counted_of_build hb').records, h.misses_eq hp]

/-- A signature leads to the same known classes. -/
theorem signature_mem_iff (hk : e.kind = .signature) (ht : ¬ g.StandsIn e.target) :
    e ∈ g'.edges ↔ e ∈ g.edges := by
  have hl := linked_of_build hb
  have hl' := linked_of_build hb'
  by_cases hin : g.contains e.target = true
  · obtain ⟨n, hn⟩ := Option.ne_none_iff_exists'.mp fun hnone => ht ⟨hin, hnone⟩
    have hskeleton : p.skeleton.contains e.target = true := hl.core.symm.contains_of_core hn
    have hskeleton' : q.skeleton.contains e.target = true := by
      rwa [contains_iff_node?, h.node?_skeleton hp, ← contains_iff_node?]
    simp only [signature_mem_build_iff hb hk hskeleton, signature_mem_build_iff hb' hk hskeleton',
      h.units.mem_iff]
  · refine iff_of_false (fun he => hin ?_) fun he => hin (hl.wellFormed.ends e he).2
    exact h.symm.contains_of_build (h.admissible hp) hb' hb (hl'.wellFormed.ends e he).2

/-- What is closed in one graph is closed in the other. -/
theorem closed {A : Assignment} {isRoot : Node → Bool} (hA : A.Closed g g.hierarchy isRoot) :
    A.Closed g' g'.hierarchy isRoot := by
  have hl := linked_of_build hb
  have hl' := linked_of_build hb'
  have hcore : SameCore g g' := fun id => by rw [core, core, h.node?_of_build hp hb hb']
  have htame : g'.Tame p.platform := h.platform ▸ hl'.tame
  have hsuper : ∀ id, g.hierarchy.supertypes id = g'.hierarchy.supertypes id :=
    hl.wellFormed.supertypes_congr hl'.wellFormed (h.parents_eq hp hl hl').symm
  have hnode : ∀ {n}, n ∈ g'.nodes → n ∈ g.nodes := (h.perm_nodes hp hb hb').mem_iff.mp
  have hprogram : ∀ n, inProgram g' n = inProgram g n := fun n =>
    (hcore.inProgram hl.tame htame rfl).symm
  have hedge : ∀ {e}, e ∈ g'.edges → e.kind ≠ .signature → e ∈ g.edges := fun he hs =>
    (h.mem_edges_iff hp hl hl' hs).mp he
  have hcontains : ∀ id, g'.contains id = true → g.contains id = true := fun id =>
    h.symm.contains_of_build (h.admissible hp) hb' hb
  exact {
    shell_of_full := hA.shell_of_full
    member := fun m hm => hA.member m (hnode hm)
    unresolved := fun n hn => hA.unresolved n (hnode hn)
    root := fun n hn hin => hA.root n (hnode hn) (hprogram n ▸ hin)
    root_live := fun c hc hin => hA.root_live c (hnode hc) (hprogram _ ▸ hin)
    owner := fun m hm => hA.owner m (hnode hm)
    edge := fun e he hs d hd => hA.edge e (hedge he fun h => by rw [Edge.demand?, h] at hd; cases hd) hs d hd
    instantiate := fun e he hs hk =>
      hA.instantiate e (hedge he fun h => by rw [hk] at h; cases h) hs hk
    call := fun e he hs receiver hk hin =>
      hA.call e (hedge he fun h => by rw [hk] at h; cases h) hs receiver hk (hcontains _ hin)
    dispatch := fun class_ hlive receiver decl hcall hsub id hi => by
      rw [← Hierarchy.isSubtype_congr hsuper] at hsub
      rw [← hcore.implementationOf hl.tame htame (hsuper class_)] at hi
      exact hA.dispatch class_ hlive receiver decl hcall hsub id hi }

theorem isRoot_iff {isRoot : Node → Bool} {n : Node} : g'.IsRoot isRoot n ↔ g.IsRoot isRoot n := by
  have hcore : SameCore g g' := fun id => by rw [core, core, h.node?_of_build hp hb hb']
  have htame : g'.Tame p.platform := h.platform ▸ (linked_of_build hb').tame
  have hprogram : inProgram g n = inProgram g' n := hcore.inProgram (linked_of_build hb).tame htame rfl
  rw [IsRoot, IsRoot, hprogram, (h.perm_nodes hp hb hb').mem_iff]

/-- The same is kept. -/
theorem mark_eq (isRoot : Node → Bool) :
    (g'.mark g'.hierarchy isRoot).roots = (g.mark g.hierarchy isRoot).roots ∧
      ∀ id, (g'.mark g'.hierarchy isRoot).state? id = (g.mark g.hierarchy isRoot).state? id := by
  obtain ⟨hleast, hrecords⟩ := (wellFormed_of_build hb).isLeast_mark isRoot
  obtain ⟨hleast', hrecords'⟩ := (wellFormed_of_build hb').isLeast_mark isRoot
  have hsame := Assignment.le_antisymm (hleast'.2 (h.closed hp hb hb' hleast.1))
    (hleast.2 (h.symm.closed (h.admissible hp) hb' hb hleast'.1))
  refine ⟨SortedSet.ext_mem fun id => ?_, fun id => CounterTable.state?_eq_of_keeps fun s => ?_⟩
  · obtain ⟨_, _, htracks⟩ := (wellFormed_of_build hb).exists_tracks isRoot
    obtain ⟨_, _, htracks'⟩ := (wellFormed_of_build hb').exists_tracks isRoot
    simp only [htracks.roots, htracks'.roots, h.isRoot_iff hp hb hb']
  · rw [hrecords.keeps, hrecords'.keeps, hsame]

end Built

end Reordered

/-- The graph of units and libraries that come in a given order. -/
def assemble (platform : Platform) (units : List SourcedUnit) (libraries : List CompiledUnit) :
    Except BuildError Graph := do
  let p ← gather platform units libraries
  p.build

variable {platform : Platform} {units units' : List SourcedUnit} {libraries : List CompiledUnit}

theorem assemble_eq_ok_iff : assemble platform units libraries = .ok g ↔
    ∃ p, gather platform units libraries = .ok p ∧ p.build = .ok g := bind_eq_ok_iff

theorem admissible_of_gather (h : gather platform units libraries = .ok p) : p.Admissible := by
  obtain ⟨hunits, hlibraries, hdistinct, rfl⟩ := gather_eq_ok_iff.mp h
  refine ⟨fun s hs => ?_, fun u hu => ?_, hdistinct⟩
  · obtain ⟨hs, hown⟩ := List.mem_filter.mp hs
    simp only [SourcedUnit.isOwn, Bool.and_eq_true, decide_eq_true_eq, Bool.not_eq_true'] at hown
    exact ⟨hunits s hs, hown⟩
  · rcases List.mem_append.mp hu with hu | hu
    · obtain ⟨s, hs, rfl⟩ := List.mem_map.mp hu
      obtain ⟨hs, hforeign⟩ := List.mem_filter.mp hs
      simp only [SourcedUnit.isForeign, Bool.and_eq_true, decide_eq_true_eq] at hforeign
      exact ⟨hunits s hs, hforeign.1⟩
    · obtain ⟨hu, hname⟩ := List.mem_filter.mp hu
      exact ⟨hlibraries u hu, of_decide_eq_true hname⟩

/-- Units in another order are gathered just if they are in the first one. -/
theorem gather_of_perm (hperm : units'.Perm units) (hown : ∀ s ∈ units, s.unit.library = false)
    (h : gather platform units libraries = .ok p) :
    ∃ q, gather platform units' libraries = .ok q ∧ p.Reordered q := by
  obtain ⟨hunits, hlibraries, hdistinct, rfl⟩ := gather_eq_ok_iff.mp h
  refine ⟨_, gather_eq_ok_iff.mpr ⟨fun s hs => hunits s (hperm.mem_iff.mp hs), hlibraries,
    ((hperm.filter _).map _).nodup_iff.mpr hdistinct, rfl⟩, rfl, hperm.filter _, ?_⟩
  have hnone : ∀ l : List SourcedUnit, (∀ s ∈ l, s.unit.library = false) →
      l.filter SourcedUnit.isForeign = [] := fun l hl =>
    List.filter_eq_nil_iff.mpr fun s hs => by simp [SourcedUnit.isForeign, hl s hs]
  simp only [withLibraries, withUnits, hnone units hown,
    hnone units' fun s hs => hown s (hperm.mem_iff.mp hs)]

theorem exists_assemble_of_perm (hperm : units'.Perm units)
    (hown : ∀ s ∈ units, s.unit.library = false)
    (h : ∃ g, assemble platform units libraries = .ok g) :
    ∃ g', assemble platform units' libraries = .ok g' := by
  obtain ⟨g, hg⟩ := h
  obtain ⟨p, hp, hb⟩ := assemble_eq_ok_iff.mp hg
  obtain ⟨q, hq, hre⟩ := gather_of_perm hperm hown hp
  obtain ⟨rank, hrank⟩ := exists_build_iff.mp ⟨g, hb⟩
  have hparents := hre.parents_skeleton (admissible_of_gather hp)
  obtain ⟨g', hb'⟩ := exists_build_iff.mpr ⟨rank, fun id above ha => hrank id above (hparents ▸ ha)⟩
  exact ⟨g', assemble_eq_ok_iff.mpr ⟨q, hq, hb'⟩⟩

/-- The order of the units decides neither whether they make up a program nor anything about its
graph but for edges from signatures to unknown classes, nor what is kept of it. -/
theorem assemble_of_perm (platform : Platform) (libraries : List CompiledUnit)
    (hperm : units'.Perm units) (hown : ∀ s ∈ units, s.unit.library = false) :
    ((∃ g', assemble platform units' libraries = .ok g') ↔
      ∃ g, assemble platform units libraries = .ok g) ∧
    ∀ g g', assemble platform units libraries = .ok g → assemble platform units' libraries = .ok g' →
      g'.nodes.Perm g.nodes ∧ (∀ id, g'.node? id = g.node? id) ∧
      g'.classWarnings = g.classWarnings ∧ g'.missingRefs = g.missingRefs ∧
      (∀ e : Edge, (e.kind = .signature → ¬ g.StandsIn e.target) →
        (e ∈ g'.edges ↔ e ∈ g.edges)) ∧
      ∀ isRoot : Node → Bool,
        (g'.mark g'.hierarchy isRoot).roots = (g.mark g.hierarchy isRoot).roots ∧
        ∀ id, (g'.mark g'.hierarchy isRoot).state? id = (g.mark g.hierarchy isRoot).state? id := by
  refine ⟨⟨exists_assemble_of_perm hperm.symm fun s hs => hown s (hperm.mem_iff.mp hs),
    exists_assemble_of_perm hperm hown⟩, fun g g' hg hg' => ?_⟩
  obtain ⟨p, hp, hb⟩ := assemble_eq_ok_iff.mp hg
  obtain ⟨q, hq, hb'⟩ := assemble_eq_ok_iff.mp hg'
  obtain ⟨q', hq', hre⟩ := gather_of_perm hperm hown hp
  obtain rfl : q' = q := Except.ok.inj (hq'.symm.trans hq)
  have hadm := admissible_of_gather hp
  refine ⟨hre.perm_nodes hadm hb hb', hre.node?_of_build hadm hb hb', hre.classWarnings_eq hadm hb hb',
    hre.missingRefs_eq hadm hb hb', fun e he => ?_, hre.mark_eq hadm hb hb'⟩
  by_cases hk : e.kind = .signature
  · exact hre.signature_mem_iff hadm hb hb' hk (he hk)
  · exact hre.mem_edges_iff hadm (linked_of_build hb) (linked_of_build hb') hk

/-- The shapes, read backwards. -/
theorem assemble_of_perm_shapes :
    shapes.units.reverse.Perm shapes.units ∧ (∀ s ∈ shapes.units, s.unit.library = false) ∧
    ∃ g g', assemble {} shapes.units [] = .ok g ∧ assemble {} shapes.units.reverse [] = .ok g' ∧
      g'.nodes.Perm g.nodes ∧
      ∀ id, (g'.mark g'.hierarchy (·.id = shapesMain)).state? id =
        (g.mark g.hierarchy (·.id = shapesMain)).state? id := by
  have hown : ∀ s ∈ shapes.units, s.unit.library = false := by decide
  have hperm := List.reverse_perm shapes.units
  obtain ⟨hiff, hsame⟩ := assemble_of_perm {} [] hperm hown
  obtain ⟨g, hb⟩ := exists_build_shapes
  have hgather : gather {} shapes.units [] = .ok shapes :=
    gather_eq_ok_iff.mpr ⟨by decide +kernel, by decide, by decide, rfl⟩
  have hg : assemble {} shapes.units [] = .ok g := assemble_eq_ok_iff.mpr ⟨shapes, hgather, hb⟩
  obtain ⟨g', hg'⟩ := hiff.mpr ⟨g, hg⟩
  obtain ⟨hnodes, _, _, _, _, hmark⟩ := hsame g g' hg hg'
  exact ⟨hperm, hown, g, g', hg, hg', hnodes, (hmark _).2⟩

end Program

end Winnow
