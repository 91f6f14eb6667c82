import Winnow.Proofs.Incremental.Placeholders
import Winnow.Proofs.Incremental.Validation
import Winnow.Proofs.Snapshot.Graph

/-!
# What holds of a graph throughout its life

A graph comes from a build. After that batches of units are linked into it again, and it is
stored and read back, in any order and any number of times. Much of what these operations rely
on is there twice: the list of members of a class beside the member nodes and the edges to them,
the number of warnings beside the classes that are warned of. Every operation keeps the two in
step, and the hierarchy free of cycles.
-/
namespace Winnow

open Graph

/-- What a unit says of containment: its class contains its members. -/
theorem CompiledUnit.known_mem_declarationLinks {u : CompiledUnit} {e : Edge}
    (hk : e.kind = .contains) : Link.known e ∈ u.declarationLinks ↔
      e.source = u.id ∧ e.target ∈ u.nodeIds ∧ e.target.isClass = false := by
  obtain ⟨source, target, kind⟩ := e
  obtain rfl : kind = .contains := hk
  have hdescriptor : ∀ id d, Link.known ⟨source, target, .contains⟩ ∉ Descriptor.links id d := by
    intro id d hmem
    unfold Descriptor.links at hmem
    split at hmem <;> simp at hmem
  have hlinks : Link.known ⟨source, target, .contains⟩ ∈ u.declarationLinks ↔
      (∃ m ∈ u.methods, source = u.id ∧ target = m.id u.name) ∨
        ∃ f ∈ u.fields, source = u.id ∧ target = f.id u.name := by
    simp [declarationLinks, methodLinks, fieldLinks, AnnotationUse.links, hdescriptor]
  rw [hlinks]
  constructor
  · rintro (⟨m, hm, rfl, rfl⟩ | ⟨f, hf, rfl, rfl⟩)
    · exact ⟨rfl, method_mem_nodeIds hm, rfl⟩
    · exact ⟨rfl, field_mem_nodeIds hf, rfl⟩
  · rintro ⟨rfl, hid, hclass⟩
    simp only [nodeIds, List.cons_append, List.mem_cons, List.mem_append, List.mem_map] at hid
    rcases hid with rfl | ⟨m, hm, rfl⟩ | ⟨f, hf, rfl⟩
    · cases hclass
    · exact .inl ⟨m, hm, rfl, rfl⟩
    · exact .inr ⟨f, hf, rfl, rfl⟩

namespace Graph

variable {g g' : Graph} {platform : Platform} {u : CompiledUnit} {id : NodeId}
  {loose : List NodeId} {path : Path}

/-- A class of the program lists the members it owns, and contains each of them; nothing else
contains a member. -/
structure Housed (g : Graph) : Prop where
  members : ∀ name c, g.class? name = some c → c.isProgram = true → ∀ id,
    id ∈ c.members ↔ g.contains id = true ∧ id.isClass = false ∧ id.className = name
  contained : ∀ name c, g.class? name = some c → c.isProgram = true → ∀ id ∈ c.members,
    ⟨.class_ name, id, .contains⟩ ∈ g.edges
  containers : ∀ e ∈ g.edges, e.kind = .contains → e.source = .class_ e.target.className

theorem SameCore.class?_of_isProgram (h : SameCore g g') {name : String} {c : ClassNode}
    (hc : g'.class? name = some c) (hprog : c.isProgram = true) :
    ∃ d, g.class? name = some d ∧ d.isProgram = true ∧ d.members = c.members := by
  have hknown : c.origin ≠ .unresolved := by
    intro ho
    rw [ClassNode.isProgram, ho] at hprog
    cases hprog
  have hg' : g'.known? name = some c.bare := known?_eq_some_iff.mpr ⟨c, hc, hknown, rfl⟩
  obtain ⟨d, hd, _, hbare⟩ := known?_eq_some_iff.mp (h.known?.trans hg')
  exact ⟨d, hd, (ClassNode.profile_of_bare_eq hbare).isProgram.trans hprog,
    ClassNode.members_of_bare_eq hbare⟩

theorem Housed.of_sameCore (hg : g.Housed) (h : SameCore g g')
    (he : ∀ e : Edge, e.kind = .contains → (e ∈ g'.edges ↔ e ∈ g.edges)) : g'.Housed where
  members name c hc hprog id := by
    obtain ⟨d, hd, hprog, hmembers⟩ := h.class?_of_isProgram hc hprog
    rw [← hmembers, hg.members name d hd hprog]
    refine and_congr_left fun hid => ?_
    rw [h.contains_eq hid.1]
  contained name c hc hprog id hid := by
    obtain ⟨d, hd, hprog, hmembers⟩ := h.class?_of_isProgram hc hprog
    exact (he _ rfl).mpr (hg.contained name d hd hprog id (hmembers ▸ hid))
  containers e hmem hk := hg.containers e ((he e hk).mp hmem) hk

/-- What every operation on a graph preserves. While a batch is linked, the stand-ins that are
listed as loose may have lost the last edge that leads to them. -/
structure Intact (g : Graph) (loose : List NodeId) : Prop where
  grounded : g.Grounded
  housed : g.Housed
  root : g.contains (.class_ objectClass) = false
  warned : g.Warned
  held : g.Held loose
  ranked : ∃ rank, g.Ranked rank

theorem mem_contains_relink {e : Edge} (hk : e.kind = .contains) :
    e ∈ (g.relink platform u).edges ↔ e ∈ g.edges := by
  constructor
  · intro he
    have hkinds : ∀ l ∈ u.bodyLinks, l.Kinds (·.isBody = true) :=
      fun l hl => (CompiledUnit.lateral_of_mem_bodyLinks hl).2.2
    rcases of_mem_applyLinks hkinds he with he | ⟨hbody, _⟩
    · exact (mem_cleared.mp he).1
    · rw [hk] at hbody
      cases hbody
  · intro he
    refine mem_relink_of_mem he ?_
    rw [isBodyOf, hk]
    exact Bool.and_false _

/-- Linking a unit again whose nodes are known. -/
theorem Intact.relink (hg : g.Intact loose) (hu : ∀ id ∈ u.nodeIds, g.core id ≠ none) :
    (g.relink platform u).Intact (loose ++ (g.relinkDelta platform u).removed.map (·.target)) where
  grounded := hg.grounded.relink hu
  housed := hg.housed.of_sameCore sameCore_relink fun _ => mem_contains_relink
  root := by
    rw [Graph.relink, contains_objectClass_applyLinks, sameBare_cleared.contains]
    exact hg.root
  warned := hg.warned.cleared.applyLinks
  held := hg.held.relink fun _ => Program.introduces_of_mem_bodyLinks
  ranked := by
    obtain ⟨rank, hrank⟩ := hg.ranked
    exact ⟨rank, fun id above ha => hrank id above (parents_congr ladder_relink ▸ ha)⟩

theorem Intact.dropOrphans (hg : g.Intact loose) : (g.dropOrphans loose).1.Intact [] := by
  obtain ⟨hgrounded, hedges, hcore, hnode⟩ := hg.grounded.dropOrphans loose
  refine ⟨hgrounded, hg.housed.of_sameCore hcore fun e _ => by rw [hedges], ?_,
    hg.warned.dropOrphans hg.grounded loose, hg.held.dropOrphans hg.grounded, ?_⟩
  · rw [← node?_eq_none_iff, hnode, node?_eq_none_iff.mpr hg.root]
    exact ite_self _
  · obtain ⟨rank, hrank⟩ := hg.ranked
    refine ⟨rank, fun id above ha => hrank id above ?_⟩
    rw [mem_parents, hedges] at ha
    exact mem_parents.mpr ha

section Batch

variable {batch : List CompiledUnit}

theorem Intact.relinkBatch (hg : g.Intact loose) (platform : Platform)
    (hb : ∀ u ∈ batch, ∀ id ∈ u.nodeIds, g.core id ≠ none) :
    (Graph.relinkBatch platform g batch).1.Intact
      (loose ++ (Graph.relinkBatch platform g batch).2.removed.map (·.target)) := by
  induction batch generalizing g loose with
  | nil =>
    rw [Graph.relinkBatch]
    exact (List.append_nil loose).symm ▸ hg
  | cons u batch ih =>
    have hrelink : (g.relink platform u).Intact _ := hg.relink (hb u List.mem_cons_self)
    have hrest := ih hrelink fun v hv id hid => by
      rw [← sameCore_relink id]
      exact hb v (List.mem_cons_of_mem _ hv) id hid
    rw [List.append_assoc, ← List.map_append] at hrest
    rw [relinkBatch_cons]
    exact hrest

/-- A batch of units with known nodes, and the orphans that it leaves. -/
theorem Intact.relinkAll (hg : g.Intact [])
    (hb : ∀ u ∈ batch, ∀ id ∈ u.nodeIds, g.core id ≠ none) :
    (IncrementalRun.relinkAll platform g batch).1.Intact [] := by
  have hbatch := hg.relinkBatch platform hb
  rw [relinkAll_eq_settle]
  refine Intact.dropOrphans { hbatch with held := hbatch.held.mono fun id hid hcontains => ?_ }
  exact List.mem_filter.mpr ⟨contains_iff_mem.mp hcontains, decide_eq_true hid⟩

/-- A unit that passes has the nodes of a class of the program. -/
theorem core_of_structuralChanges (h : g.structuralChanges path u = []) (hid : id ∈ u.nodeIds) :
    g.core id ≠ none := by
  obtain ⟨_, c, hc, hfrom, _, hmembers⟩ := Program.structuralChanges_eq_nil.mp h
  rw [Ne, core_eq_none_iff]
  intro hnone
  rcases CompiledUnit.mem_nodeIds_iff.mp hid with rfl | hid
  · have hun := hnone _ (class?_eq_some hc).1
    unfold StructuralChange.comesFrom at hfrom
    split at hfrom
    next source horigin => simp [Marking.isUnresolved, horigin] at hun
    next => cases hfrom
  · obtain ⟨n, hn, rfl⟩ := List.mem_map.mp hid
    obtain ⟨_, old, hold⟩ := StructuralChange.known_of_ofMembers_eq_nil hmembers hn
    have hun := hnone _ (member?_eq_some hold).1
    cases hun

end Batch

section Stored

variable {emit : EmitSettings} {now : Nat}

theorem of_ofGraph (g : Graph) (platform : Platform) (emit : EmitSettings) (now : Nat) :
    Snapshot.Of g (Snapshot.ofGraph g platform emit now) :=
  ⟨List.mergeSort_perm _ _, List.mergeSort_perm _ _, rfl⟩

theorem Alike.countP_isUnresolved (h : Alike g g') (hg : g.WellFormed) (hg' : g'.WellFormed) :
    g'.nodes.countP Marking.isUnresolved = g.nodes.countP Marking.isUnresolved := by
  have hun : ∀ n : Node, Marking.isUnresolved n.unlisted = Marking.isUnresolved n := by
    intro n
    cases n <;> rfl
  have hcount : ∀ k : Graph, (k.nodes.map Node.unlisted).countP Marking.isUnresolved =
      k.nodes.countP Marking.isUnresolved := fun k => by
    rw [List.countP_map]
    exact List.countP_congr fun n _ => by rw [Function.comp_apply, hun]
  rw [← hcount, ← hcount, (h.perm_nodes hg hg').countP_eq]

/-- Storing a graph and reading it back. -/
theorem Intact.restored (hg : g.Intact [])
    (hr : (Snapshot.ofGraph g platform emit now).graph = .ok g') : g'.Intact [] := by
  have hof := of_ofGraph g platform emit now
  have hwf := hg.grounded.wellFormed
  have halike := hof.alike_rebuilt hwf
  have hwf' := hof.wellFormed_rebuilt hwf
  obtain rfl : (Snapshot.ofGraph g platform emit now).rebuilt = g' :=
    Except.ok.inj ((hof.graph_eq hwf).symm.trans hr)
  generalize hs : Snapshot.ofGraph g platform emit now = s at hof halike hwf' ⊢
  have hedges : ∀ e, e ∈ s.rebuilt.edges ↔ e ∈ g.edges := fun e => by
    rw [halike.edges]
    exact (perm_edges_stored g).mem_iff
  have hcore : ∀ id, s.rebuilt.core id = none ↔ g.core id = none := halike.core_eq_none_iff
  have hcontains : ∀ id, s.rebuilt.contains id = g.contains id := halike.contains_eq
  -- A class of the program lists all its members already, so none is added.
  have hmembers : ∀ name c', s.rebuilt.class? name = some c' → c'.isProgram = true →
      ∃ c, g.class? name = some c ∧ c.isProgram = true ∧ ∀ id, id ∈ c'.members ↔ id ∈ c.members := by
    intro name c' hc' hprog
    obtain ⟨c, hc, hsame, hlisted⟩ := hof.listed_rebuilt hwf hc'
    have hprog' : c.isProgram = true :=
      (ClassNode.profile_of_unlisted_eq hsame).isProgram.symm.trans hprog
    refine ⟨c, hc, hprog', fun id => ?_⟩
    rw [hlisted, hg.housed.members name c hc hprog', or_self]
  refine ⟨⟨hwf', fun id m hm => ?_, fun e he => ?_⟩, ⟨?_, ?_, ?_⟩, ?_, ?_, ?_, ?_⟩
  · rw [halike.member?_eq] at hm
    obtain ⟨c, hc, horigin⟩ := hg.grounded.owner id m hm
    rcases halike.class?_cases id.className with ⟨k, c', hk, hc', hsame⟩ | ⟨hnone, _⟩
    · obtain rfl := Option.some.inj (hc.symm.trans hk)
      exact ⟨c', hc', (ClassNode.profile_of_unlisted_eq hsame).origin ▸ horigin⟩
    · exact absurd (hc.symm.trans hnone) (by simp)
  · rw [Ne, hcore]
    exact hg.grounded.sources e ((hedges e).mp he)
  · intro name c' hc' hprog id
    obtain ⟨c, hc, hprog, hiff⟩ := hmembers name c' hc' hprog
    rw [hiff, hg.housed.members name c hc hprog, hcontains]
  · intro name c' hc' hprog id hid
    obtain ⟨c, hc, hprog, hiff⟩ := hmembers name c' hc' hprog
    exact (hedges _).mpr (hg.housed.contained name c hc hprog id ((hiff id).mp hid))
  · exact fun e he => hg.housed.containers e ((hedges e).mp he)
  · rw [hcontains]
    exact hg.root
  · have hwarnings : s.rebuilt.classWarnings = g.classWarnings := by rw [← hs]; rfl
    rw [Warned, hwarnings, hg.warned, halike.countP_isUnresolved hwf.stored hwf']
    rfl
  · rintro id ⟨hin, hnone⟩ _
    obtain ⟨e, he, ht⟩ := hg.held id ⟨hcontains id ▸ hin, (hcore id).mp hnone⟩ List.not_mem_nil
    exact ⟨e, (hedges e).mpr he, ht⟩
  · obtain ⟨rank, hrank⟩ := hg.ranked
    refine ⟨rank, fun id above ha => hrank id above ?_⟩
    simp only [mem_parents, hedges] at ha
    exact mem_parents.mpr ha

end Stored

end Graph

namespace Program

variable {p : Program} {g : Graph} {e : Edge}

/-- A class of the program contains what its unit declares. -/
theorem links_contains_iff (hk : e.kind = .contains) : p.Links e ↔
    ∃ s ∈ p.units, e.source = s.unit.id ∧ e.target ∈ s.unit.nodeIds ∧ e.target.isClass = false := by
  constructor
  · intro hl
    cases hl with
    | @declaration s l hs hlink he =>
      obtain ⟨source, _, hd⟩ := CompiledUnit.declarationLink_of_mem hlink
      rcases hd.mentions with ⟨kind, name, rfl, hshell⟩ | ⟨e', rfl⟩
      · rw [← kind_of_mention he, hk] at hshell
        cases hshell
      · simp only [Link.edges, List.mem_ite_nil_right, List.mem_singleton] at he
        obtain ⟨_, rfl⟩ := he
        exact ⟨s, hs, (CompiledUnit.known_mem_declarationLinks hk).mp hlink⟩
    | body _ _ _ _ hlink he =>
      obtain ⟨use, huse⟩ := (Instruction.bodyLink hlink).kinds.of_mem_edges he
      rw [huse] at hk
      cases hk
    | override _ _ he =>
      rcases kind_of_mem_overrideEdges he with ⟨hc, _⟩ | rfl
      · rw [hc] at hk
        cases hk
      · cases hk
  · rintro ⟨s, hs, hmem⟩
    refine .declaration hs ((CompiledUnit.known_mem_declarationLinks hk).mpr hmem) ?_
    have hin : p.skeleton.contains e.target = true :=
      contains_skeleton (unit_mem_roster hs) hmem.2.1
    simp [Link.edges, hin]

/-- A class of the program is that of a unit, with its members. -/
theorem Linked.exists_unit (hp : p.Admissible) (hl : p.Linked g) {name : String} {c : ClassNode}
    (hc : g.class? name = some c) (hprog : c.isProgram = true) :
    ∃ s ∈ p.units, s.unit.name = name ∧
      ∀ id, id ∈ c.members ↔ id ∈ s.unit.nodeIds ∧ id.isClass = false := by
  obtain ⟨s, hs, rfl⟩ := List.mem_map.mp (hl.mem_names_of_isProgram hc hprog)
  obtain ⟨d, hd, hbare⟩ := hl.class?_unit hp hs
  obtain rfl := Option.some.inj (hc.symm.trans hd)
  refine ⟨s, hs, rfl, fun id => ?_⟩
  rw [ClassNode.members_of_bare_eq hbare, CompiledUnit.mem_members_fullNode]

theorem Linked.housed (hp : p.Admissible) (hl : p.Linked g) : g.Housed where
  members name c hc hprog id := by
    obtain ⟨s, hs, rfl, hmembers⟩ := hl.exists_unit hp hc hprog
    rw [hmembers]
    constructor
    · rintro ⟨hid, hclass⟩
      obtain ⟨n, hn⟩ := core_skeleton (unit_mem_roster hs) hid
      exact ⟨hl.core.contains_of_core hn, hclass, CompiledUnit.className_of_mem_nodeIds hid⟩
    · rintro ⟨hin, hclass, hname⟩
      rw [← hmembers]
      rcases (hl.regular hp).complete id c hin (hname ▸ hc) hprog with hid | ⟨d, hd, hid⟩
      · rw [hclass] at hid
        cases hid
      · rw [hname] at hd
        exact Option.some.inj (hc.symm.trans hd) ▸ hid
  contained name c hc hprog id hid := by
    obtain ⟨s, hs, rfl, hmembers⟩ := hl.exists_unit hp hc hprog
    exact (hl.edges _ rfl fun h => by cases h).mpr
      ((links_contains_iff rfl).mpr ⟨s, hs, rfl, (hmembers id).mp hid⟩)
  containers e he hk := by
    have hlinks := (hl.edges e (by rw [hk]; rfl) (fun h => by rw [hk] at h; cases h)).mp he
    obtain ⟨s, hs, hsource, htarget, _⟩ := (links_contains_iff hk).mp hlinks
    rw [hsource, CompiledUnit.className_of_mem_nodeIds htarget]
    rfl

/-- Units of that name are passed over, and mentions do not lead to it. -/
theorem contains_objectClass_of_build (hp : p.Admissible) (hb : p.build = .ok g) :
    g.contains (.class_ objectClass) = false := by
  have hnodes : g.nodes.map Node.id =
      (p.skeleton.applyLinks p.platform p.lateralLinks).nodes.map Node.id := by
    rw [(nodes_of_build hb).1]
  rw [contains_congr hnodes, contains_objectClass_applyLinks, skeleton_eq_applyLinks,
    contains_objectClass_applyLinks, ← Bool.not_eq_true, contains_declared_iff]
  rintro ⟨u, hu, hid⟩
  have hname : objectClass = u.name := CompiledUnit.className_of_mem_nodeIds hid
  rcases List.mem_append.mp hu with hu | hu
  · obtain ⟨s, hs, rfl⟩ := List.mem_map.mp hu
    exact (hp.units s hs).2.1 hname.symm
  · exact (hp.libraries u (List.mem_of_mem_filter hu)).2 hname.symm

theorem intact_of_build (hp : p.Gathered) (hb : p.build = .ok g) : g.Intact [] where
  grounded := (linked_of_build hb).grounded
  housed := (linked_of_build hb).housed hp.admissible
  root := contains_objectClass_of_build hp.admissible hb
  warned := (counted_of_build hb).warned
  held := (settled_of_build hp hb).held
  ranked := exists_ranked_of_build hb

end Program

namespace Graph

variable {g : Graph}

/-- The graphs that come from a build by linking batches of units that pass validation and by
storing and reading back. -/
inductive Reachable : Graph → Prop
  | build {p : Program} {g : Graph} : p.Gathered → p.build = .ok g → Reachable g
  | batch {g : Graph} {platform : Platform} {batch : List SourcedUnit} : Reachable g →
      (∀ s ∈ batch, g.structuralChanges s.source s.unit = []) →
      Reachable (IncrementalRun.relinkAll platform g (batch.map (·.unit))).1
  | restored {g g' : Graph} {platform : Platform} {emit : EmitSettings} {now : Nat} : Reachable g →
      (Snapshot.ofGraph g platform emit now).graph = .ok g' → Reachable g'

theorem Reachable.intact (h : Reachable g) : g.Intact [] := by
  induction h with
  | build hp hb => exact Program.intact_of_build hp hb
  | batch _ hb ih =>
    refine ih.relinkAll fun u hu id hid => ?_
    obtain ⟨s, hs, rfl⟩ := List.mem_map.mp hu
    exact core_of_structuralChanges (hb s hs) hid
  | restored _ hr ih => exact ih.restored hr

/-- What a graph says twice agrees, and its hierarchy has no cycles. -/
structure Sound (g : Graph) : Prop where
  nodes : (g.nodes.map Node.id).Nodup
  edges : g.edges.Nodup
  /-- A class of the program lists just the members that it owns. -/
  members : ∀ c ∈ g.programClasses, ∀ id, id ∈ c.members ↔
    g.contains id = true ∧ id.isClass = false ∧ id.className = c.name
  /-- Each of them is contained once, in its class. -/
  contained : ∀ c ∈ g.programClasses, ∀ id ∈ c.members,
    (g.incoming id).filter (·.kind = .contains) = [⟨c.id, id, .contains⟩]
  root : g.contains (.class_ objectClass) = false
  warnings : g.classWarnings = (g.classes.filter (·.origin = .unresolved)).length
  /-- There is a reason for every warning. -/
  mentioned : ∀ c ∈ g.classes, c.origin = .unresolved → g.incoming c.id ≠ []
  acyclic : ∀ id, ¬ g.OnCycle id

theorem Intact.sound (hg : g.Intact []) : g.Sound where
  nodes := hg.grounded.wellFormed.distinct
  edges := hg.grounded.wellFormed.unique
  members c hc id := by
    obtain ⟨hc, hprog⟩ := List.mem_filter.mp hc
    have hclass := class?_of_node? (hg.grounded.wellFormed.node?_of_mem (mem_classes.mp hc))
    exact hg.housed.members c.name c hclass hprog id
  contained c hc id hid := by
    obtain ⟨hc, hprog⟩ := List.mem_filter.mp hc
    have hclass := class?_of_node? (hg.grounded.wellFormed.node?_of_mem (mem_classes.mp hc))
    have hnodup : ((g.incoming id).filter (·.kind = .contains)).Nodup :=
      (hg.grounded.wellFormed.unique.filter _).filter _
    refine List.perm_singleton.mp ((List.perm_ext_iff_of_nodup hnodup (List.nodup_singleton _)).mpr
      fun e => ?_)
    rw [List.mem_filter, mem_incoming, decide_eq_true_eq, List.mem_singleton]
    constructor
    · rintro ⟨⟨he, rfl⟩, hk⟩
      have hname : e.target.className = c.name :=
        ((hg.housed.members c.name c hclass hprog e.target).mp hid).2.2
      have hsource := hg.housed.containers e he hk
      rw [hname] at hsource
      cases e
      cases hsource
      cases hk
      rfl
    · rintro rfl
      exact ⟨⟨hg.housed.contained c.name c hclass hprog id hid, rfl⟩, rfl⟩
  root := hg.root
  warnings := hg.warned.classWarnings_eq_length
  mentioned c hc horigin := by
    have hnode := hg.grounded.wellFormed.node?_of_mem (mem_classes.mp hc)
    obtain ⟨e, he, ht⟩ := hg.held c.id (standsIn_iff.mpr ⟨c, hnode, horigin⟩) List.not_mem_nil
    exact List.ne_nil_of_mem (mem_incoming.mpr ⟨he, ht⟩)
  acyclic := by
    obtain ⟨rank, hrank⟩ := hg.ranked
    exact hrank.not_onCycle

/-- Every graph of a project's life is sound, and can be stored and read back. -/
theorem sound_of_reachable (h : Reachable g) : g.Sound ∧
    ∀ platform emit now, ∃ g', (Snapshot.ofGraph g platform emit now).graph = .ok g' :=
  ⟨h.intact.sound, fun platform emit now =>
    ⟨_, (of_ofGraph g platform emit now).graph_eq h.intact.grounded.wellFormed⟩⟩

open Program in
/-- A method stops using an unknown class, and the graph goes through a snapshot. -/
theorem sound_of_reachable_remnant : ∃ g, (remnant true).build = .ok g ∧
    g.structuralChanges ⟨"in/User.json"⟩ (remnantUser false) = [] ∧
    ∃ g', (Snapshot.ofGraph (IncrementalRun.relinkAll {} g [remnantUser false]).1 {} {} 0).graph =
        .ok g' ∧ Reachable g' ∧ g'.Sound := by
  obtain ⟨g, hb⟩ := exists_build_remnant true
  have hpath : ∀ t ∈ (remnant true).units, t.source.same ⟨"in/User.json"⟩ = true →
      t = ⟨remnantUser true, ⟨"in/User.json"⟩⟩ := by decide +kernel
  have hsame : (remnantUser true).SameDeclarations (remnantUser false) :=
    ⟨fun _ => rfl, fun n hn => ⟨n, hn, rfl⟩, fun n hn => ⟨n, hn, rfl⟩⟩
  have hnone : g.structuralChanges ⟨"in/User.json"⟩ (remnantUser false) = [] :=
    ((linked_of_build hb).structuralChanges_eq_nil_iff (gathered_remnant true).admissible
      List.mem_cons_self hpath (by decide +kernel)).mpr ⟨rfl, hsame⟩
  have hbatch : Reachable (IncrementalRun.relinkAll {} g [remnantUser false]).1 :=
    @Reachable.batch g {} [⟨remnantUser false, ⟨"in/User.json"⟩⟩]
      (.build (gathered_remnant true) hb) fun s hs => by rwa [List.mem_singleton.mp hs]
  obtain ⟨g', hg'⟩ := (sound_of_reachable hbatch).2 {} {} 0
  have hlast : Reachable g' := .restored hbatch hg'
  exact ⟨g, hb, hnone, g', hg', hlast, (sound_of_reachable hlast).1⟩

end Graph

end Winnow
