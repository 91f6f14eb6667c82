import Winnow.Proofs.Pruning.Emitted

/-!
# Pruning preserves linking and dispatch

What is written of a program is a program again. Its units look up no class that
was left out, its references lead where they led, and its live classes run what
they ran.
-/
namespace Winnow

/-- The search for the member that an instruction refers to: where it starts, and what for. -/
def Instruction.search? (u : CompiledUnit) : Instruction → Option (String × NodeKind × MemberKey)
  | .invoke dispatch target =>
    if Text.startsWith target.owner "[" then none
    else some (searchStart u dispatch target, .method, target.key)
  | .field target => some (target.owner, .field, target.key)
  | .new _ | .type _ | .classLiteral _ | .reflect .. => none

/-- An instruction that refers to a member has a link that makes this search, and stands for an
edge to the member that is found. -/
theorem Instruction.exists_link {u : CompiledUnit} {i : Instruction} {start : String}
    {kind : NodeKind} {key : MemberKey} (hi : i.search? u = some (start, kind, key))
    (source : NodeId) (platform : Platform) :
    ∃ l ∈ i.links u source, l.className? = some start ∧
      ∀ (g : Graph) (id : NodeId), g.resolve start kind key = .declared id →
        ∃ e ∈ l.edges platform g, e.target = id := by
  have hresolved : ∀ {use : NodeId → Use} {r : Resolution} {id : NodeId}, r = .declared id →
      ∃ e ∈ Link.resolvedEdges source use r, e.target = id := by
    rintro use _ id rfl
    exact ⟨_, List.mem_singleton.mpr rfl, rfl⟩
  cases i with
  | invoke dispatch target =>
    simp only [search?] at hi
    split at hi
    · cases hi
    next harray =>
      cases hi
      refine ⟨.call source dispatch (searchStart u dispatch target) target.owner target.key, ?_, rfl,
        fun g id hr => hresolved hr⟩
      simp [Instruction.links, harray]
  | field target =>
    cases hi
    exact ⟨.access source target.owner target.key, by simp [Instruction.links], rfl,
      fun g id hr => hresolved hr⟩
  | new _ | type _ | classLiteral _ | reflect _ _ _ => cases hi

/-- The assignment with only those classes alive and calls seen of which the class or the method is
kept. -/
def Assignment.grounded (A : Assignment) : Assignment where
  keeps := A.keeps
  live := {id | id ∈ A.live ∧ A.keeps id .shell}
  called := {call | call ∈ A.called ∧ A.keeps call.2 .shell}

/-- In the least assignment every live class, and the method of every call, is kept. -/
theorem Assignment.grounded_of_isLeast {A : Assignment} {g : Graph} {h : Hierarchy}
    {isRoot : Node → Bool} (hA : IsLeast {A : Assignment | A.Closed g h isRoot} A) :
    (∀ id ∈ A.live, A.keeps id .shell) ∧ ∀ call ∈ A.called, A.keeps call.2 .shell := by
  have hclosed : A.grounded.Closed g h isRoot := {
    shell_of_full := hA.1.shell_of_full
    member := hA.1.member
    unresolved := hA.1.unresolved
    root := hA.1.root
    root_live := fun c hc hp hr =>
      ⟨hA.1.root_live c hc hp hr, hA.1.shell_of_full _ (hA.1.root _ hc hp hr)⟩
    owner := hA.1.owner
    edge := hA.1.edge
    instantiate := fun e he hs hk =>
      ⟨hA.1.instantiate e he hs hk, hA.1.keeps_target he hs (by rw [hk]; nofun)⟩
    call := fun e he hs receiver hk hr =>
      ⟨hA.1.call e he hs receiver hk hr, hA.1.keeps_target he hs (by rw [hk]; nofun)⟩
    dispatch := fun class_ hc receiver decl hcall hsub id hi =>
      hA.1.dispatch class_ hc.1 receiver decl hcall.1 hsub id hi }
  obtain ⟨_, hlive, hcalled⟩ := hA.2 hclosed
  exact ⟨fun id hid => (hlive hid).2, fun call hc => (hcalled hc).2⟩

open Marking in
/-- The table of a marking records the least closed assignment. -/
theorem Graph.WellFormed.isLeast_mark {g : Graph} (hg : g.WellFormed) (isRoot : Node → Bool) :
    IsLeast {A : Assignment | A.Closed g g.hierarchy isRoot}
      (drain g g.hierarchy (seed g g.hierarchy isRoot)).assignment ∧
    (g.mark g.hierarchy isRoot).Records g
      (drain g g.hierarchy (seed g g.hierarchy isRoot)).assignment := by
  have hrun := drain_run (g := g) (h := g.hierarchy) (seedIn g g.hierarchy isRoot g.nodes)
  have hproper := (progress_of_seedIn_run hg.functional hrun).proper
  refine ⟨isLeast_of_seedIn_run hg hg.functional (.refl _) hrun (queue_drain _),
    fun id s => hproper.keeps_table, fun id s hkept => ?_⟩
  obtain ⟨r, hr, _⟩ := hkept
  obtain ⟨_, n, hn, _⟩ := hproper id r hr
  exact contains_iff_node?.mpr ⟨n, hn⟩

namespace Program

open Graph Marking

variable {p : Program} {g : Graph} {s : SourcedUnit} {name : String} {id : NodeId} {e : Edge}

/-- A mention of a class that is declared stands for an edge to it. -/
theorem mention_mem_edges (hp : p.Admissible) (hd : p.declared.contains (.class_ name) = true)
    {text : String} (hc : Descriptor.elementClass text = some name) {source : NodeId}
    {kind : EdgeKind} : (⟨source, .class_ name, kind⟩ : Edge) ∈
      (Link.mention source kind text).edges p.platform p.skeleton := by
  obtain ⟨u, hu, hname⟩ := contains_declared_class.mp hd
  have hobject : name ≠ objectClass := hname ▸ (check_of_mem_roster hp hu).2
  have hin : p.skeleton.contains (.class_ name) = true := p.skeleton_extension.contains hd
  have hmentioned : p.skeleton.mentioned? p.platform false text = some name := by
    simp [mentioned?, hc, hobject, hin]
  simp [Link.edges, hmentioned]

section Links

variable {A : Assignment} {isRoot : Node → Bool} {h : Hierarchy} (hl : p.Linked g)
  (hA : A.Closed g h isRoot) (hs : s ∈ p.units)
include hl hA hs

theorem Linked.keeps_of_declaration {l : Link} (hlink : l ∈ s.unit.declarationLinks)
    (hkept : A.keeps l.source .shell) (he : e ∈ l.edges p.platform p.skeleton)
    (hk : e.kind.propagation ≠ .none) : A.keeps e.target .shell := by
  obtain ⟨source, _, hdecl⟩ := CompiledUnit.declarationLink_of_mem hlink
  have hhierarchy : e.kind.isHierarchy = false := hdecl.lateral.kinds.of_mem_edges he
  have hsignature : e.kind ≠ .signature := by
    intro heq
    rw [heq] at hk
    exact hk rfl
  have hmem : e ∈ g.edges := (hl.edges e hhierarchy hsignature).mpr (.declaration hs hlink he)
  refine hA.keeps_target hmem ?_ hk
  rwa [Link.source_of_mem_edges he]

variable (hp : p.Admissible)
include hp

/-- An edge that a link of a kept node stands for keeps its target. -/
theorem Linked.keeps_of_instruction {m : Method} {i : Instruction} {l : Link}
    (hm : m ∈ s.unit.methods) (hi : i ∈ m.body) (hlink : l ∈ i.links s.unit (m.id s.unit.name))
    (hkept : A.keeps (m.id s.unit.name) .shell) (he : e ∈ l.edges p.platform p.skeleton) :
    A.keeps e.target .shell := by
  have hbody := Instruction.bodyLink hlink
  obtain ⟨use, huse⟩ := hbody.kinds.of_mem_edges he
  have hmem : e ∈ g.edges := (hl.edges e (by rw [huse]; rfl) (by rw [huse]; nofun)).mpr
    (.body hs (hp.units s hs).2.2 hm hi hlink he)
  refine hA.keeps_target hmem ?_ (by rw [huse]; nofun)
  rwa [Link.source_of_mem_edges he, hbody.source_eq]

variable (hc : p.Coherent (A.keeps · .shell))
include hc

/-- Whatever class the body of a kept method looks up is kept. -/
theorem Linked.sound_of_instruction {m : Method} {i : Instruction} {l : Link}
    (hm : m ∈ s.unit.methods) (hi : i ∈ m.body) (hlink : l ∈ i.links s.unit (m.id s.unit.name))
    (hkept : A.keeps (m.id s.unit.name) .shell) (hn : l.className? = some name) :
    p.Sound (A.keeps · .shell) name := by
  intro hd
  have hmention : ∀ use text,
      Link.mention (m.id s.unit.name) (.uses use) text ∈ i.links s.unit (m.id s.unit.name) →
      Descriptor.elementClass text = some name → A.keeps (.class_ name) .shell :=
    fun use text hmem htext => hl.keeps_of_instruction hA hs hp hm hi hmem hkept
      (mention_mem_edges hp hd htext)
  have hself := hc.elementClass_eq hp hd
  cases i with
  | invoke dispatch target =>
    simp only [Instruction.links] at hlink hmention
    split at hlink
    · cases hlink
    next harray =>
      rw [if_neg harray] at hmention
      have howner : Descriptor.elementClass target.owner = some name → A.keeps (.class_ name) .shell :=
        hmention _ _ List.mem_cons_self
      rcases List.mem_cons.mp hlink with rfl | hlink
      · exact howner hn
      · rw [List.mem_singleton.mp hlink] at hn
        obtain rfl : Instruction.searchStart s.unit dispatch target = name := Option.some.inj hn
        unfold Instruction.searchStart at howner hself hd ⊢
        cases hsuper : s.unit.superclass with
        | none =>
          simp only [hsuper] at howner hself hd ⊢
          exact howner hself
        | some above =>
          simp only [hsuper] at howner hself hd ⊢
          split
          next hcall =>
            rw [if_pos hcall] at hd
            exact hc.sound_above hp (unit_mem_roster hs) (hc.owner _ hkept) (.inl hsuper) hd
          next hcall =>
            rw [if_neg hcall] at howner hself
            exact howner hself
  | field target =>
    simp only [Instruction.links, List.mem_cons, List.not_mem_nil, or_false] at hlink hmention
    have howner : Descriptor.elementClass target.owner = some name → A.keeps (.class_ name) .shell :=
      hmention _ _ (.inl rfl)
    rcases hlink with rfl | rfl
    · exact howner hn
    · obtain rfl : target.owner = name := Option.some.inj hn
      exact howner hself
  | new _ | type _ | classLiteral _ =>
    rw [List.mem_singleton.mp hlink] at hn
    exact hmention _ _ (List.mem_singleton.mpr rfl) hn
  | reflect text member descriptor =>
    have hname : Descriptor.elementClass text = some name := by
      rcases List.mem_cons.mp hlink with rfl | hlink
      · exact hn
      · obtain ⟨_, _, rfl⟩ := List.mem_map.mp hlink
        exact hn
    exact hmention _ _ List.mem_cons_self hname

/-- Whatever class a kept node looks up is kept. -/
theorem Linked.sound_of_link {l : Link} (hlink : l ∈ s.unit.links) (hkept : A.keeps l.source .shell)
    (hn : l.className? = some name) : p.Sound (A.keeps · .shell) name := by
  intro hd
  rcases List.mem_append.mp hlink with hlink | hlink
  · rcases List.mem_append.mp hlink with hlink | hlink
    · obtain ⟨u, hu, hname⟩ := contains_declared_class.mp hd
      have hobject : name ≠ objectClass := hname ▸ (check_of_mem_roster hp hu).2
      have hsuper : ∀ text, Descriptor.elementClass text = some name → supertypeOf text = some name :=
        fun text htext => by simp [supertypeOf, htext, Option.filter, hobject]
      rcases List.mem_append.mp hlink with hlink | hlink
      · obtain ⟨text, htext, rfl⟩ := List.mem_map.mp hlink
        refine hc.upward s.unit (unit_mem_roster hs) hkept ⟨s.unit.id, .class_ name, .super⟩ ?_
        exact List.mem_append_left _
          (List.mem_map_of_mem (List.mem_filterMap.mpr ⟨text, htext, hsuper text hn⟩))
      · obtain ⟨text, htext, rfl⟩ := List.mem_map.mp hlink
        refine hc.upward s.unit (unit_mem_roster hs) hkept ⟨s.unit.id, .class_ name, .implements⟩ ?_
        exact List.mem_append_right _
          (List.mem_map_of_mem (List.mem_filterMap.mpr ⟨text, htext, hsuper text hn⟩))
    · obtain ⟨source, _, hdecl⟩ := CompiledUnit.declarationLink_of_mem hlink
      rcases hdecl.mentions with ⟨kind, text, rfl, hpropagation⟩ | ⟨_, rfl⟩
      · refine hl.keeps_of_declaration hA hs hlink hkept (mention_mem_edges hp hd hn) ?_
        rw [hpropagation]
        decide
      · cases hn
  · rcases CompiledUnit.of_mem_bodyLinks hlink with ⟨_, _, _, rfl⟩ | ⟨_, m, hm, i, hi, hlink⟩
    · cases hn
    · rw [(Instruction.bodyLink hlink).source_eq] at hkept
      exact hl.sound_of_instruction hA hs hp hc hm hi hlink hkept hn hd

end Links

section Thinned

variable {A : Assignment} {isRoot : Node → Bool} {h : Hierarchy}
  {f : CompiledUnit → Option CompiledUnit} {g' : Graph}
  (hp : p.Admissible) (hl : p.Linked g) (hA : A.Closed g h isRoot)
  (ht : p.Thinning (A.keeps · .shell) f)
include hp hl hA ht

/-- A unit that is written looks up no class that is left out. -/
theorem Thinning.lookups {l : Link} (hs : s ∈ (p.thinned f).units) (hlink : l ∈ s.unit.links)
    (hn : l.className? = some name) : name ∈ (p.thinned f).names ∨ name ∉ p.names := by
  obtain ⟨r, hr, v, hv, rfl⟩ := mem_units_thinned.mp hs
  obtain ⟨hkept, hthin⟩ := ht.thins r hr v hv
  obtain ⟨hlink, hsource⟩ := hthin.of_mem_links hkept hlink hn
  by_cases hname : name ∈ p.names
  · have hsound := hl.sound_of_link hA hr hp ht.toCoherent hlink hsource hn
    obtain ⟨t, ht', rfl⟩ := List.mem_map.mp hname
    exact .inl ((ht.mem_names_iff ht' hp).mpr (hsound (contains_declared_of_mem_names hname)))
  · exact .inr hname

/-- A reference of a method that is written leads where it led. -/
theorem Thinning.resolves (hl' : (p.thinned f).Linked g') {m : Method} {i : Instruction}
    (hs : s ∈ (p.thinned f).units) (hm : m ∈ s.unit.methods) (hi : i ∈ m.body) {start : String}
    {kind : NodeKind} {key : MemberKey} (hsearch : i.search? s.unit = some (start, kind, key)) :
    g'.resolve start kind key = g.resolve start kind key := by
  obtain ⟨r, hr, v, hv, rfl⟩ := mem_units_thinned.mp hs
  obtain ⟨_, hthin⟩ := ht.thins r hr v hv
  obtain ⟨k, hk, hkept, _, heq⟩ := hthin.of_method m hm
  have hbody : i ∈ k.body := by
    rw [heq] at hi
    exact hi
  obtain ⟨l, hlink, hn, hedge⟩ := Instruction.exists_link hsearch (k.id r.unit.name) p.platform
  rw [hthin.instruction_links] at hlink
  have hsound := hl.sound_of_instruction hA hr hp ht.toCoherent hk hbody hlink hkept hn
  rw [← hl'.core.resolve (p.thinned f).tame_skeleton hl'.tame,
    ← hl.core.resolve p.tame_skeleton hl.tame]
  refine (ht.thins_skeleton hp).resolve hsound fun id hid => ?_
  obtain ⟨e, he, rfl⟩ := hedge _ _ hid
  exact hl.keeps_of_instruction hA hr hp hk hbody hlink hkept he

omit hA in
/-- A kept class runs what it ran for a kept method, and this is written. -/
theorem Thinning.runs (hl' : (p.thinned f).Linked g') {class_ decl : NodeId}
    (hclass : A.keeps class_ .shell) (hdecl : A.keeps decl .shell)
    (hi : g.implementationOf g.hierarchy class_ decl = some id) (hkept : A.keeps id .shell) :
    (∃ s ∈ (p.thinned f).units, ∃ m ∈ s.unit.methods, m.id s.unit.name = id) ∧
      g'.implementationOf g'.hierarchy class_ decl = some id := by
  have hthins := ht.thins_skeleton hp
  have hsound : p.Sound (A.keeps · .shell) class_.className := fun _ => ht.owner class_ hclass
  obtain ⟨hsuper, habove⟩ := ht.supertypes_eq hsound
  rw [← hl.core.implementationOf p.tame_skeleton hl.tame (hl.supertypes class_).symm] at hi
  obtain ⟨d, hd, hi⟩ := Option.bind_eq_some_iff.mp hi
  obtain ⟨d', hd'⟩ := hthins.keeps decl d hd (.inl hdecl)
  have hid : d'.id = d.id := (member?_eq_some hd').2.trans (member?_eq_some hd).2.symm
  have hrun := hthins.implementation hsound hsuper (fun a ha => by
    obtain ⟨n, rfl, hn⟩ := habove a ha
    exact ⟨n, rfl, fun _ => hn⟩) hi hkept
  have hq := ht.admissible hp
  constructor
  · obtain ⟨n, c, hc, hprog, hdeclared⟩ := implementation_eq_some hrun
    obtain ⟨s, hs, hname⟩ := List.mem_map.mp ((isProgram_iff hc).mp hprog)
    obtain ⟨_, hk, _, hsome⟩ := declared_eq_some_iff.mp hdeclared
    obtain ⟨m, hm⟩ := Option.isSome_iff_exists.mp hsome
    rw [(p.thinned f).skeleton_extension.member?] at hm
    have howner : id.className = s.unit.name := (declared_spec hdeclared).2.trans hname.symm
    obtain ⟨hmem, rfl⟩ := exists_memberNode hq hs howner hm
    rcases List.mem_append.mp hmem with hmem | hmem
    · obtain ⟨x, hx, rfl⟩ := List.mem_map.mp hmem
      exact ⟨s, hs, x, hx, rfl⟩
    · obtain ⟨x, _, rfl⟩ := List.mem_map.mp hmem
      cases hk
  · rw [← hl'.core.implementationOf (p.thinned f).tame_skeleton hl'.tame (hl'.supertypes class_).symm,
      implementationOf, hd', Option.bind_eq_bind, Option.bind_some, MemberNode.name,
      MemberNode.descriptor, hid]
    exact hrun

end Thinned

/-- What is written of a program when a marking from the given roots is all that is kept, with the
libraries that no class shadows. -/
def prunedFrom (p : Program) (g : Graph) (isRoot : Node → Bool) : Program :=
  p.thinned (Pruning.emitted? ⟨g, g.mark g.hierarchy isRoot, false⟩)

section Shapes

def shapesArea (name : String) : NodeId := .method ⟨name, "area", "()I"⟩

/-- The call of the shapes is written, and the class runs its method for it. -/
theorem dispatch_shapes (hb : shapes.build = .ok g) :
    let m := drain g g.hierarchy (seed g g.hierarchy (·.id = shapesMain))
    (∃ s ∈ (shapes.prunedFrom g (·.id = shapesMain)).units, ∃ m ∈ s.unit.methods, ∃ i ∈ m.body,
      i.search? s.unit = some ("a/Shape", .method, ⟨"area", "()I"⟩)) ∧
    .class_ "a/Disc" ∈ m.liveness.live ∧
    (.class_ "a/Shape", shapesArea "a/Shape") ∈ m.liveness.callSites ∧
    g.hierarchy.isSubtype (.class_ "a/Disc") (.class_ "a/Shape") = true ∧
    g.implementationOf g.hierarchy (.class_ "a/Disc") (shapesArea "a/Shape") =
      some (shapesArea "a/Disc") := by
  obtain ⟨_, rfl⟩ := build_eq_ok_iff.mp hb
  decide +kernel

end Shapes

/-- Pruning preserves linking and dispatch. What is written is accepted again; its units look up no
class of the program that is not written; its calls and field accesses lead where they led; and
every live class runs the methods of the program that it ran for the calls seen. -/
theorem pruned_links_and_dispatches_alike (hp : p.Gathered) (hb : p.build = .ok g)
    (hnames : ∀ u ∈ p.roster, Text.startsWith u.name "[" = false) (isRoot : Node → Bool) :
    (p.prunedFrom g isRoot).Gathered ∧ ∃ g', (p.prunedFrom g isRoot).build = .ok g' ∧
      (∀ s ∈ (p.prunedFrom g isRoot).units, ∀ l ∈ s.unit.links, ∀ name, l.className? = some name →
        name ∈ (p.prunedFrom g isRoot).names ∨ name ∉ p.names) ∧
      (∀ s ∈ (p.prunedFrom g isRoot).units, ∀ m ∈ s.unit.methods, ∀ i ∈ m.body,
        ∀ start kind key, i.search? s.unit = some (start, kind, key) →
          g'.resolve start kind key = g.resolve start kind key) ∧
      ∀ class_ ∈ (drain g g.hierarchy (seed g g.hierarchy isRoot)).liveness.live,
        ∀ receiver decl,
          (receiver, decl) ∈ (drain g g.hierarchy (seed g g.hierarchy isRoot)).liveness.callSites →
          g.hierarchy.isSubtype class_ receiver = true →
          ∀ id, g.implementationOf g.hierarchy class_ decl = some id →
            (∃ s ∈ (p.prunedFrom g isRoot).units, ∃ m ∈ s.unit.methods, m.id s.unit.name = id) ∧
              g'.implementationOf g'.hierarchy class_ decl = some id := by
  have hadmissible := hp.admissible
  have hl := linked_of_build hb
  obtain ⟨hleast, hrecords⟩ := hl.wellFormed.isLeast_mark isRoot
  obtain ⟨hlive, hcalled⟩ := Assignment.grounded_of_isLeast hleast
  have hthinning := hl.thinning hleast.1 hrecords hadmissible hnames
  obtain ⟨g', hb'⟩ := hthinning.exists_build ⟨g, hb⟩
  have hl' := linked_of_build hb'
  refine ⟨(hthinning.admissible hadmissible).gathered, g', hb', ?_, ?_, ?_⟩
  · intro s hs l hlink name hn
    exact hthinning.lookups hadmissible hl hleast.1 hs hlink hn
  · intro s hs m hm i hi start kind key hsearch
    exact hthinning.resolves hadmissible hl hleast.1 hl' hs hm hi hsearch
  · intro class_ hclass receiver decl hcall hsub id hi
    have hkept := hleast.1.dispatch class_ hclass receiver decl hcall hsub id hi
    exact hthinning.runs hadmissible hl hl' (hlive class_ hclass) (hcalled _ hcall) hi
      (hleast.1.shell_of_full _ hkept)

/-- The shapes that are written link up, the call in them leads where it led, and the class runs its
method for it. -/
theorem pruned_links_and_dispatches_alike_shapes :
    shapes.Gathered ∧ (∀ u ∈ shapes.roster, Text.startsWith u.name "[" = false) ∧
      ∃ g, shapes.build = .ok g ∧
        let q := shapes.prunedFrom g (·.id = shapesMain)
        q.Gathered ∧ ∃ g', q.build = .ok g' ∧
          (∀ s ∈ q.units, ∀ l ∈ s.unit.links, ∀ name, l.className? = some name →
            name ∈ q.names ∨ name ∉ shapes.names) ∧
          (∃ s ∈ q.units, ∃ m ∈ s.unit.methods, ∃ i ∈ m.body,
            i.search? s.unit = some ("a/Shape", .method, ⟨"area", "()I"⟩)) ∧
          g'.resolve "a/Shape" .method ⟨"area", "()I"⟩ = g.resolve "a/Shape" .method ⟨"area", "()I"⟩ ∧
          (∃ s ∈ q.units, ∃ m ∈ s.unit.methods, m.id s.unit.name = shapesArea "a/Disc") ∧
          g'.implementationOf g'.hierarchy (.class_ "a/Disc") (shapesArea "a/Shape") =
            some (shapesArea "a/Disc") := by
  have hnames : ∀ u ∈ shapes.roster, Text.startsWith u.name "[" = false := by decide +kernel
  obtain ⟨g, hb⟩ := exists_build_shapes
  obtain ⟨⟨s, hs, m, hm, i, hi, hsearch⟩, hlive, hcall, hsub, hruns⟩ := dispatch_shapes hb
  obtain ⟨hq, g', hb', hlinks, hresolves, hdispatches⟩ :=
    pruned_links_and_dispatches_alike gathered_shapes hb hnames (·.id = shapesMain)
  obtain ⟨hwritten, hruns'⟩ := hdispatches _ hlive _ _ hcall hsub _ hruns
  exact ⟨gathered_shapes, hnames, g, hb, hq, g', hb', hlinks, ⟨s, hs, m, hm, i, hi, hsearch⟩,
    hresolves s hs m hm i hi _ _ _ hsearch, hwritten, hruns'⟩

end Program

end Winnow
