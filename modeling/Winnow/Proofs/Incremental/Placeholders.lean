import Winnow.Proofs.Incremental.Equivalence
import Winnow.Proofs.Program.Warnings

/-!
# Stand-ins and warnings after edits

A class that is mentioned and not known has a stand-in, which goes when nothing leads to it any
more. Whatever is counted in a graph that was brought up to date is what the edited program has,
but a stand-in also stays while only a signature mentions it. A signature alone would not have
brought it in, so the graph that is built anew does not have it.
-/
namespace Winnow

open Graph Marking

/-- A class that the link mentions is not mentioned in a signature. -/
def Link.Introduces : Link → Prop
  | .supertype _ kind _ | .mention _ kind _ => kind ≠ .signature
  | _ => True

theorem Link.Kinds.introduces {P : EdgeKind → Prop} {l : Link} (h : l.Kinds P)
    (hP : ¬ P .signature) : l.Introduces := by
  cases l with
  | supertype _ kind _ | mention _ kind _ => exact fun hk => hP (hk ▸ h)
  | known _ | call _ _ _ _ _ | access _ _ _ | lookup _ _ _ _ => trivial

/-- Only a link to a known place stands for an edge for a signature. -/
theorem Link.eq_known_of_signature {platform : Platform} {g : Graph} {e : Edge} (l : Link)
    (hl : l.Introduces) (he : e ∈ l.edges platform g) (hk : e.kind = .signature) : l = .known e := by
  have hother : l.Kinds (· ≠ .signature) → l = .known e :=
    fun hkinds => absurd hk (hkinds.of_mem_edges he)
  cases l with
  | supertype _ _ _ | mention _ _ _ => exact hother hl
  | known edge =>
    simp only [Link.edges, List.mem_ite_nil_right, List.mem_singleton] at he
    rw [he.2]
  | call _ _ _ _ _ | access _ _ _ | lookup _ _ _ _ => exact hother fun _ h => by cases h

namespace Graph

variable {g g' : Graph} {platform : Platform} {l : Link} {links : List Link} {id : NodeId}
  {fresh : List Edge}
  {u : CompiledUnit} {loose loose' : List NodeId}

/-- Something other than a signature leads to the node. -/
def Demanded (g : Graph) (id : NodeId) : Prop :=
  ∃ e ∈ g.edges, e.target = id ∧ e.kind ≠ .signature

theorem Demanded.mono (h : g.Demanded id) (hsub : ∀ e ∈ g.edges, e ∈ g'.edges) : g'.Demanded id :=
  let ⟨e, he, ht⟩ := h
  ⟨e, hsub e he, ht⟩

section Introduction

/-- A node that comes with a link is one that the link leads to. -/
theorem Applied.demanded (h : Applied platform g l g' fresh) (hl : l.Introduces)
    (hid : g'.contains id = true) (hnew : g.contains id = false) : g'.Demanded id := by
  have hedge := fun e => h.mem_edges (x := e)
  cases h with
  | absent => cases hid.symm.trans hnew
  | @mention name hs hm _ =>
    rw [contains_addEdges, contains_provide, hnew] at hid
    obtain rfl : id = .class_ name := by simpa using hid
    obtain ⟨kind, he⟩ := Link.edges_of_mentioned? hm
    have hmem : (⟨l.source, .class_ name, kind⟩ : Edge) ∈ l.edges platform g := by simp [he]
    refine ⟨_, (hedge _).mpr (.inr ⟨hs, hmem⟩), rfl, fun hk => ?_⟩
    rw [l.eq_known_of_signature hl hmem hk] at hm
    cases hm
  | known =>
    rw [contains_addEdges] at hid
    cases hid.symm.trans hnew
  | missing =>
    rw [contains_recordMissing] at hid
    cases hid.symm.trans hnew

theorem demanded_of_applyLinks (hl : ∀ l ∈ links, l.Introduces)
    (hid : (applyLinks platform g links).contains id = true) (hnew : g.contains id = false) :
    (applyLinks platform g links).Demanded id := by
  induction links generalizing g with
  | nil =>
    rw [show applyLinks platform g [] = g from rfl, hnew] at hid
    cases hid
  | cons l links ih =>
    have hl' : ∀ k ∈ links, k.Introduces := fun k hk => hl k (List.mem_cons_of_mem l hk)
    by_cases hmid : (applyLink platform g l).contains id = true
    · exact (applied_applyLink.demanded (hl l List.mem_cons_self) hmid hnew).mono
        fun e he => mem_applyLinks_of_mem (g := applyLink platform g l) he
    · exact ih hl' hid (by simpa using hmid)

end Introduction

/-- A node that stands in for something that is not known. -/
def StandsIn (g : Graph) (id : NodeId) : Prop := g.contains id = true ∧ g.core id = none

theorem standsIn_iff : g.StandsIn id ↔
    ∃ c, g.node? id = some (.class_ c) ∧ c.origin = .unresolved := by
  rw [StandsIn, contains_iff_node?, core_eq_none_iff]
  constructor
  · rintro ⟨⟨n, hn⟩, hall⟩
    cases n with
    | class_ c => exact ⟨c, hn, of_decide_eq_true (hall _ hn)⟩
    | member m => cases hall _ hn
  · rintro ⟨c, hn, hun⟩
    refine ⟨⟨_, hn⟩, fun n hn' => ?_⟩
    rw [← Option.some.inj (hn.symm.trans hn')]
    exact decide_eq_true hun

theorem WellFormed.mem_unresolvedClasses (hg : g.WellFormed) {name : String} :
    name ∈ g.unresolvedClasses ↔ g.StandsIn (.class_ name) := by
  simp only [unresolvedClasses, SortedSet.mem_ofList, standsIn_iff, List.mem_map, List.mem_filter,
    mem_classes, decide_eq_true_eq]
  constructor
  · rintro ⟨c, ⟨hc, hun⟩, rfl⟩
    exact ⟨c, hg.node?_of_mem hc, hun⟩
  · rintro ⟨c, hn, hun⟩
    obtain ⟨hc, hid⟩ := hg.node?_eq_some_iff.mp hn
    exact ⟨c, ⟨hc, hun⟩, NodeId.class_.inj hid⟩

/-- The number of warnings is the number of stand-ins. -/
theorem Warned.classWarnings_eq_length (hw : g.Warned) :
    g.classWarnings = (g.classes.filter (·.origin = .unresolved)).length := by
  rw [hw, ← List.countP_eq_length_filter, classes, List.countP_filterMap]
  refine List.countP_congr fun n _ => ?_
  cases n <;> simp [isUnresolved, Node.class?]

theorem Warned.classWarnings_eq (hw : g.Warned) (hg : g.WellFormed) :
    g.classWarnings = g.unresolvedClasses.size := by
  have hnodup : ((g.classes.filter (·.origin = .unresolved)).map (·.name)).Nodup :=
    (List.filter_sublist.map _).nodup hg.nodup_classNames
  rw [hw.classWarnings_eq_length, unresolvedClasses, SortedSet.size_ofList hnodup, List.length_map]

theorem isOrphan_iff_standsIn :
    g.isOrphan id = true ↔ g.StandsIn id ∧ ∀ e ∈ g.edges, e.target ≠ id := by
  rw [isOrphan_iff, standsIn_iff]
  simp only [← exists_and_right, and_assoc]

/-- Something leads to every stand-in that is not listed. -/
def Held (g : Graph) (loose : List NodeId) : Prop :=
  ∀ id, g.StandsIn id → id ∉ loose → ∃ e ∈ g.edges, e.target = id

theorem Held.relink (hg : g.Held loose) (hu : ∀ l ∈ u.bodyLinks, l.Introduces) :
    (g.relink platform u).Held (loose ++ (g.relinkDelta platform u).removed.map (·.target)) := by
  rintro id ⟨hid, hcore⟩ hloose
  rw [List.mem_append, not_or] at hloose
  by_cases hold : (g.cleared u).contains id = true
  · -- The stand-in was there before, so an edge held it, and that edge did not go.
    have hstands : g.StandsIn id := by
      refine ⟨by rwa [← sameBare_cleared.contains], ?_⟩
      exact (sameBare_cleared.sameCore id).trans ((relink_extension.sameCore id).trans hcore)
    obtain ⟨e, he, ht⟩ := hg id hstands hloose.1
    refine ⟨e, Classical.byContradiction fun hgone => hloose.2 ?_, ht⟩
    exact List.mem_map.mpr ⟨e, mem_removed_relinkDelta.mpr ⟨he, hgone⟩, ht⟩
  · obtain ⟨e, he, ht, _⟩ := demanded_of_applyLinks (g := g.cleared u) hu hid (by simpa using hold)
    exact ⟨e, he, ht⟩

theorem Held.mono (hg : g.Held loose) (hsub : ∀ id ∈ loose, g.contains id = true → id ∈ loose') :
    g.Held loose' :=
  fun id hid hloose => hg id hid fun hmem => hloose (hsub id hmem hid.1)

/-- Dropping orphans leaves no stand-in without anything that leads to it. -/
theorem Held.dropOrphans (hg : g.Held loose) (hground : g.Grounded) :
    (g.dropOrphans loose).1.Held [] := by
  induction loose generalizing g with
  | nil => exact hg
  | cons x loose ih =>
    rw [Graph.dropOrphans]
    split
    next ho =>
      refine ih (fun id hid hloose => ?_) (hground.removeOrphan ho)
      obtain ⟨c, hn, _⟩ := isOrphan_iff.mp ho
      have hcontains : g.contains id = true ∧ id ≠ x := (contains_removeNode hn).mp hid.1
      have hcore := (sameCore_removeOrphan ho id).trans hid.2
      obtain ⟨e, he, ht⟩ := hg id ⟨hcontains.1, hcore⟩ (List.not_mem_cons_of_ne_of_not_mem hcontains.2 hloose)
      exact ⟨e, by rw [← hground.edges_removeOrphan ho] at he; exact he, ht⟩
    next ho =>
      refine ih (fun id hid hloose => ?_) hground
      by_cases hx : id = x
      · subst hx
        rw [isOrphan_iff_standsIn, not_and] at ho
        simpa using ho hid
      · exact hg id hid (List.not_mem_cons_of_ne_of_not_mem hx hloose)

end Graph

namespace Program

open IncrementalRun

variable {p : Program} {g : Graph} {u : CompiledUnit} {id : NodeId} {batch : List CompiledUnit}
  {batches : List (List CompiledUnit)} {loose : List NodeId}

theorem introduces_of_mem_bodyLinks {l : Link} (hl : l ∈ u.bodyLinks) : l.Introduces := by
  rcases CompiledUnit.of_mem_bodyLinks hl with ⟨_, _, _, rfl⟩ | ⟨_, m, _, i, _, hl⟩
  · trivial
  · exact (Instruction.bodyLink hl).kinds.introduces nofun

theorem introduces_of_mem_lateralLinks {l : Link} (hl : l ∈ p.lateralLinks) : l.Introduces := by
  obtain ⟨s, _, hl⟩ := List.mem_flatMap.mp hl
  rcases List.mem_append.mp hl with hl | hl
  · exact (CompiledUnit.lateral_of_mem_declarationLinks hl).2.2.introduces nofun
  · exact introduces_of_mem_bodyLinks hl

/-- Links bring all nodes of the graph of a program, and methods that override others only edges. -/
theorem nodes_of_build (hb : p.build = .ok g) :
    g.nodes = (p.skeleton.applyLinks p.platform p.lateralLinks).nodes ∧
      ∀ e ∈ (p.skeleton.applyLinks p.platform p.lateralLinks).edges, e ∈ g.edges := by
  obtain ⟨_, rfl⟩ := build_eq_ok_iff.mp hb
  rw [complete_eq]
  obtain ⟨hnodes, hedges, _⟩ := foldl_linkOverrides_spec
    (p.skeleton.applyLinks p.platform p.lateralLinks).hierarchy
    (p.skeleton.applyLinks p.platform p.lateralLinks) p.units
  exact ⟨hnodes, fun e he => (hedges e).mpr (.inl he)⟩

/-- In the graph of a program something other than a signature leads to every stand-in. -/
theorem demanded_of_build (hb : p.build = .ok g) (hid : g.StandsIn id) : g.Demanded id := by
  obtain ⟨hnodes, hedges⟩ := nodes_of_build hb
  have hmid : p.skeleton.applyLinks p.platform p.lateralLinks = p.declared.applyLinks p.platform
      (p.roster.flatMap CompiledUnit.hierarchyLinks ++ p.lateralLinks) := by
    rw [skeleton_eq_applyLinks]
    exact List.foldl_append.symm
  have hlinks : ∀ l ∈ p.roster.flatMap CompiledUnit.hierarchyLinks ++ p.lateralLinks,
      l.Introduces := by
    intro l hl
    rcases List.mem_append.mp hl with hl | hl
    · obtain ⟨u, _, hl⟩ := List.mem_flatMap.mp hl
      exact (hierarchyLinks_spec hl).1.introduces nofun
    · exact introduces_of_mem_lateralLinks hl
  rw [hmid] at hnodes hedges
  generalize p.roster.flatMap CompiledUnit.hierarchyLinks ++ p.lateralLinks = links
    at hlinks hnodes hedges
  have hstands : (p.declared.applyLinks p.platform links).StandsIn id := by
    rwa [StandsIn, Graph.contains, core, node?, ← hnodes]
  refine Demanded.mono (demanded_of_applyLinks hlinks hstands.1 ?_) hedges
  -- What the units declare is known and stays so.
  rw [← Bool.not_eq_true, contains_iff_node?]
  rintro ⟨n, hn⟩
  have hext : Extension p.platform true p.declared (p.declared.applyLinks p.platform links) :=
    applyLinks_extension fun _ _ _ => rfl
  have hun := core_eq_none_iff.mp hstands.2 n (hext.retains id n hn)
  rw [p.allKnown_declared id n hn] at hun
  cases hun

/-- The graph stands for the program, its counts are right, and something leads to every stand-in
that is not listed. -/
structure Settled (p : Program) (g : Graph) (loose : List NodeId) : Prop where
  admissible : p.Admissible
  linked : p.Linked g
  counted : p.Counted g
  held : g.Held loose

theorem settled_of_build (hp : p.Gathered) (hb : p.build = .ok g) : p.Settled g [] :=
  ⟨hp.admissible, linked_of_build hb, counted_of_build hb, fun _ hid _ =>
    let ⟨e, he, ht, _⟩ := demanded_of_build hb hid
    ⟨e, he, ht⟩⟩

theorem Settled.relink (hg : p.Settled g loose) (hu : ∃ s ∈ p.units, s.unit.outline = u.outline) :
    (p.replace u).Settled (g.relink p.platform u)
      (loose ++ (g.relinkDelta p.platform u).removed.map (·.target)) :=
  ⟨hg.admissible.of_outline_eq (outline_replace hg.admissible hu).symm,
    hg.linked.relink hg.admissible hu, hg.counted.relink hg.admissible hu hg.linked,
    hg.held.relink fun _ => introduces_of_mem_bodyLinks⟩

theorem Settled.dropOrphans (hg : p.Settled g loose) : p.Settled (g.dropOrphans loose).1 [] :=
  ⟨hg.admissible, (hg.linked.dropOrphans loose).1, hg.counted.dropOrphans hg.linked loose,
    hg.held.dropOrphans hg.linked.grounded⟩

theorem Settled.relinkBatch (hg : p.Settled g loose)
    (hb : ∀ u ∈ batch, ∃ s ∈ p.units, s.unit.outline = u.outline) :
    (p.edit batch).Settled (Graph.relinkBatch p.platform g batch).1
      (loose ++ (Graph.relinkBatch p.platform g batch).2.removed.map (·.target)) := by
  induction batch generalizing p g loose with
  | nil =>
    rw [Graph.relinkBatch]
    exact (List.append_nil loose).symm ▸ hg
  | cons u batch ih =>
    have hu := hb u List.mem_cons_self
    have hout := outline_replace hg.admissible hu
    have hrest := ih (hg.relink hu) fun v hv => by
      obtain ⟨s, hs, heq⟩ := hb v (List.mem_cons_of_mem _ hv)
      obtain ⟨t, ht, heq'⟩ := exists_unit_of_outline_eq hout.symm hs
      exact ⟨t, ht, heq'.trans heq⟩
    rw [List.append_assoc, ← List.map_append] at hrest
    rw [relinkBatch_cons]
    exact hrest

theorem Settled.relinkAll (hg : p.Settled g []) (hb : p.IsEdit batch) :
    (p.edit batch).Settled (relinkAll p.platform g batch).1 [] := by
  have hbatch := hg.relinkBatch hb.outline
  rw [relinkAll_eq_settle]
  refine Settled.dropOrphans { hbatch with held := hbatch.held.mono fun id hid hcontains => ?_ }
  exact List.mem_filter.mpr ⟨contains_iff_mem.mp hcontains, decide_eq_true hid⟩

/-- So do all batches. -/
theorem Settled.relinkBatches (hg : p.Settled g []) (hb : p.IsEditSequence batches) :
    (p.editAll batches).Settled
      (batches.foldl (fun g batch => (IncrementalRun.relinkAll p.platform g batch).1) g) [] := by
  induction batches generalizing p g with
  | nil => exact hg
  | cons batch batches ih =>
    have := ih (hg.relinkAll hb.1) hb.2
    rwa [platform_edit hg.admissible hb.1] at this

/-- Graphs of one program have the same stand-ins, apart from those that only a signature leads to. -/
theorem Linked.standsIn_of_demanded {g' : Graph} (hl : p.Linked g) (hl' : p.Linked g')
    (hid : g.StandsIn id) (hd : g.Demanded id) : g'.StandsIn id ∧ g'.Demanded id := by
  obtain ⟨e, he, rfl, hs⟩ := hd
  have he' : e ∈ g'.edges := hl'.mem_edges hl he hs
  have hcore : g'.core e.target = none := (hl'.core.symm.trans hl.core e.target).trans hid.2
  exact ⟨⟨(hl'.wellFormed.ends e he').2, hcore⟩, e, he', rfl, hs⟩

/-- After any sequence of batches of edits to bodies and signatures the counts are those of the
edited program built anew, and so are the stand-ins if each of them is mentioned by more than
signatures. -/
theorem unresolved_relinkBatches (hp : p.Gathered) (hb : p.build = .ok g)
    (hedits : p.IsEditSequence batches) :
    ∃ g', (p.editAll batches).build = .ok g' ∧
      let r := batches.foldl (fun g batch => (IncrementalRun.relinkAll p.platform g batch).1) g
      r.missingRefs = g'.missingRefs ∧
      r.classWarnings = r.unresolvedClasses.size ∧ g'.classWarnings = g'.unresolvedClasses.size ∧
      (∀ name ∈ r.unresolvedClasses, ∃ e ∈ r.edges, e.target = .class_ name) ∧
      (∀ name, name ∈ g'.unresolvedClasses ↔
        name ∈ r.unresolvedClasses ∧ r.Demanded (.class_ name)) ∧
      ((r.unresolvedClasses = g'.unresolvedClasses ∧ r.classWarnings = g'.classWarnings ∧
          r.warnings = g'.warnings) ↔
        ∀ name ∈ r.unresolvedClasses, r.Demanded (.class_ name)) := by
  have hout := outline_editAll hp.admissible hedits
  obtain ⟨g', hb'⟩ := exists_build_of_outline_eq hout.symm ⟨g, hb⟩
  have hr := (settled_of_build hp hb).relinkBatches hedits
  have hg' := settled_of_build (hp.admissible.of_outline_eq hout.symm).gathered hb'
  refine ⟨g', hb', ?_⟩
  dsimp only
  generalize batches.foldl (fun g batch => (IncrementalRun.relinkAll p.platform g batch).1) g = r at hr ⊢
  have hmissing : r.missingRefs = g'.missingRefs := SortedMap.ext_get? fun id => by
    rw [hr.counted.records, hg'.counted.records]
  have hcount := hr.counted.warned.classWarnings_eq hr.linked.wellFormed
  have hcount' := hg'.counted.warned.classWarnings_eq hg'.linked.wellFormed
  have hheld : ∀ name ∈ r.unresolvedClasses, ∃ e ∈ r.edges, e.target = .class_ name := fun name hn =>
    hr.held _ (hr.linked.wellFormed.mem_unresolvedClasses.mp hn) List.not_mem_nil
  have hsame : ∀ name, name ∈ g'.unresolvedClasses ↔
      name ∈ r.unresolvedClasses ∧ r.Demanded (.class_ name) := by
    intro name
    rw [hr.linked.wellFormed.mem_unresolvedClasses, hg'.linked.wellFormed.mem_unresolvedClasses]
    constructor
    · exact fun hn => hg'.linked.standsIn_of_demanded hr.linked hn (demanded_of_build hb' hn)
    · exact fun hn => (hr.linked.standsIn_of_demanded hg'.linked hn.1 hn.2).1
  refine ⟨hmissing, hcount, hcount', hheld, hsame, fun h name hn => ?_, fun h => ?_⟩
  · exact ((hsame name).mp (h.1 ▸ hn)).2
  · have heq : r.unresolvedClasses = g'.unresolvedClasses := SortedSet.ext_mem fun name => by
      rw [hsame]
      exact ⟨fun hn => ⟨hn, h name hn⟩, And.left⟩
    have hwarnings : r.classWarnings = g'.classWarnings := by rw [hcount, hcount', heq]
    exact ⟨heq, hwarnings, by rw [warnings, warnings, hwarnings, hmissing]⟩

/-- The shapes come to mention a class that is not known, and are left with a warning for it. -/
theorem unresolved_relinkBatches_shapes :
    shapes.Gathered ∧ shapes.IsEditSequence [[shapesIdle], [shapesStray]] ∧
      ∃ g, shapes.build = .ok g ∧
      ∃ g', (shapes.editAll [[shapesIdle], [shapesStray]]).build = .ok g' ∧
        let r := [[shapesIdle], [shapesStray]].foldl
          (fun g batch => (IncrementalRun.relinkAll shapes.platform g batch).1) g
        r.missingRefs = g'.missingRefs ∧
        r.classWarnings = r.unresolvedClasses.size ∧
        g'.classWarnings = g'.unresolvedClasses.size ∧
        (∀ name ∈ r.unresolvedClasses, ∃ e ∈ r.edges, e.target = .class_ name) ∧
        (∀ name, name ∈ g'.unresolvedClasses ↔
          name ∈ r.unresolvedClasses ∧ r.Demanded (.class_ name)) ∧
        r.unresolvedClasses.toList = ["b/Gone"] ∧
        r.unresolvedClasses = g'.unresolvedClasses ∧ r.classWarnings = g'.classWarnings ∧
        r.warnings = g'.warnings := by
  have hedits : shapes.IsEditSequence [[shapesIdle], [shapesStray]] :=
    ⟨⟨by decide, by decide⟩, ⟨by decide, by decide⟩, trivial⟩
  obtain ⟨g, hb⟩ := exists_build_shapes
  obtain ⟨g', hb', hmissing, hcount, hcount', hheld, hsame, hiff⟩ :=
    unresolved_relinkBatches gathered_shapes hb hedits
  have hgone :
      let r := [[shapesIdle], [shapesStray]].foldl
        (fun g batch => (IncrementalRun.relinkAll shapes.platform g batch).1) g
      r.unresolvedClasses.toList = ["b/Gone"] ∧
        ∃ e ∈ r.edges, e.target = .class_ "b/Gone" ∧ e.kind ≠ .signature := by
    obtain ⟨_, rfl⟩ := build_eq_ok_iff.mp hb
    decide +kernel
  obtain ⟨hlist, hdemanded⟩ := hgone
  refine ⟨gathered_shapes, hedits, g, hb, g', hb', hmissing, hcount, hcount', hheld, hsame, hlist,
    hiff.mpr fun name hname => ?_⟩
  obtain rfl : name = "b/Gone" := by
    rw [← SortedSet.mem_toList, hlist] at hname
    exact List.mem_singleton.mp hname
  exact hdemanded

section Remnant

/-- A class that makes an instance of an unknown class, or does not. -/
def remnantUser (used : Bool) : CompiledUnit :=
  { CompiledUnit.blank "a/User" with
    methods := [if used then (Method.blank "use" "()V").extend (.new "x/Gone")
      else .blank "use" "()V"] }

/-- Next to it a class that has the unknown one in its signature. -/
def remnant (used : Bool) : Program where
  platform := {}
  units := [
    ⟨remnantUser used, ⟨"in/User.json"⟩⟩,
    ⟨{ CompiledUnit.blank "a/Typed" with
        signature := some "Ljava/util/List<Lx/Gone;>;" }, ⟨"in/Typed.json"⟩⟩]
  libraries := []

theorem gathered_remnant (used : Bool) : (remnant used).Gathered :=
  gathered_iff.mpr (by cases used <;> exact ⟨by decide +kernel, by decide +kernel, by decide⟩)

theorem build_remnant (used : Bool) :
    (remnant used).build = .ok ((remnant used).complete (remnant used).skeleton) := by
  have hnone : ∀ used, (remnant used).skeleton.edges = [] := by decide +kernel
  exact build_of_edges_eq_nil (hnone used)

theorem exists_build_remnant (used : Bool) : ∃ g, (remnant used).build = .ok g :=
  ⟨_, build_remnant used⟩

/-- The signature still leads to the unknown class when nothing else does, and there is a warning
for it that the edited program does not have. -/
theorem signature_holds_unresolved :
    (remnant true).Gathered ∧ (remnant true).IsEditSequence [[remnantUser false]] ∧
      ∃ g, (remnant true).build = .ok g ∧
      ∃ g', ((remnant true).editAll [[remnantUser false]]).build = .ok g' ∧
        let r := [[remnantUser false]].foldl
          (fun g batch => (IncrementalRun.relinkAll (remnant true).platform g batch).1) g
        "x/Gone" ∈ r.unresolvedClasses ∧ "x/Gone" ∉ g'.unresolvedClasses := by
  have hedits : (remnant true).IsEditSequence [[remnantUser false]] :=
    ⟨⟨by decide, by decide +kernel⟩, trivial⟩
  obtain ⟨g, hb⟩ := exists_build_remnant true
  obtain ⟨g', hb'⟩ := exists_build_remnant false
  have hsig : (⟨.class_ "a/Typed", .class_ "x/Gone", .signature⟩ : Edge) ∈
      ((remnant true).skeleton.applyLinks (remnant true).platform (remnant true).lateralLinks).edges := by
    decide +kernel
  have hgone : ((remnant false).skeleton.applyLinks (remnant false).platform
      (remnant false).lateralLinks).contains (.class_ "x/Gone") = false := by
    decide +kernel
  have hl := linked_of_build hb
  have hr := (settled_of_build (gathered_remnant true) hb).relinkBatches hedits
  have hg' := settled_of_build (gathered_remnant false) hb'
  have hu : ∃ s ∈ (remnant true).units, s.unit.outline = (remnantUser false).outline := by
    decide +kernel
  -- The edge for the signature belongs to the other class, so it stays.
  have hstays : (⟨.class_ "a/Typed", .class_ "x/Gone", .signature⟩ : Edge) ∈
      (IncrementalRun.relinkAll (remnant true).platform g [remnantUser false]).1.edges := by
    have hrelink := hl.relink (gathered_remnant true).admissible hu
    rw [relinkAll_eq_settle, relinkBatch_cons]
    show _ ∈ (Graph.dropOrphans (g.relink _ _) _).1.edges
    rw [(hrelink.dropOrphans _).2.1]
    exact mem_relink_of_mem ((nodes_of_build hb).2 _ hsig) (by decide +kernel)
  refine ⟨gathered_remnant true, hedits, g, hb, g', hb',
    hr.linked.wellFormed.mem_unresolvedClasses.mpr ⟨(hr.linked.wellFormed.ends _ hstays).2, ?_⟩,
    fun hmem => ?_⟩
  · rw [← hr.linked.core]
    decide +kernel
  · have hcontains := (hg'.linked.wellFormed.mem_unresolvedClasses.mp hmem).1
    rw [Graph.contains, (nodes_of_build hb').1] at hcontains
    exact Bool.false_ne_true (hgone.symm.trans hcontains)

end Remnant

end Program

end Winnow
