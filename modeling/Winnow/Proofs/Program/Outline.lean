import Mathlib.Data.List.Induction
import Mathlib.Data.List.Nodup
import Winnow.Proofs.Program.Linked

/-!
# What bodies and signatures do not touch

The outline of a program is what is left of it without method bodies and generic
signatures. The classes, the members and the hierarchy of its graph come from the
outline alone, and so does whether it can be built.
-/
namespace Winnow

/-- The method without its body and signature. -/
def Method.outline (m : Method) : Method := { m with body := [], signature := none }

/-- The field without its signature. -/
def Field.outline (f : Field) : Field := { f with signature := none }

/-- The unit without bodies and signatures. -/
def CompiledUnit.outline (u : CompiledUnit) : CompiledUnit :=
  { u with
    signature := none
    methods := u.methods.map Method.outline
    fields := u.fields.map Field.outline }

/-- The program without bodies and signatures. -/
def Program.outline (p : Program) : Program :=
  { p with
    units := p.units.map fun s => ⟨s.unit.outline, s.source⟩
    libraries := p.libraries.map CompiledUnit.outline }

namespace Graph

variable {g : Graph} {platform : Platform} {id : NodeId} {n : Node}

/-- The graph without signatures. -/
def bare (g : Graph) : Graph := { g with nodes := g.nodes.map Node.bare }

@[simp] theorem edges_bare : g.bare.edges = g.edges := rfl

@[simp] theorem ids_bare : g.bare.nodes.map Node.id = g.nodes.map Node.id := by
  simp only [bare, List.map_map]
  exact List.map_congr_left fun n _ => n.id_bare

@[simp] theorem contains_bare : g.bare.contains = g.contains := by
  funext id
  exact contains_congr ids_bare id

theorem node?_bare : g.bare.node? id = (g.node? id).map Node.bare := by
  simp only [node?, bare, List.find?_map]
  congr 2
  funext n
  simp

theorem core_bare : g.bare.core id = g.core id := by
  rw [core, core, node?_bare]
  cases g.node? id with
  | none => rfl
  | some n =>
    cases hu : Marking.isUnresolved n with
    | true => simp [Option.filter, hu]
    | false =>
      have hbare : n.bare.bare = n.bare := by cases n <;> rfl
      simp [Option.filter, hu, hbare]

theorem sameCore_of_bare_eq {g' : Graph} (h : g.bare = g'.bare) : SameCore g g' := by
  intro id
  rw [← core_bare, h, core_bare]

theorem ladder_of_bare_eq {g' : Graph} (h : g.bare = g'.bare) : g.ladder = g'.ladder := by
  have hedges : g.bare.edges = g'.bare.edges := by rw [h]
  rw [ladder, ladder, ← edges_bare, hedges, edges_bare]

theorem bare_update {f f' : Node → Node} (hf : ∀ n, (f n).bare = f' n.bare) :
    (g.update id f).bare = g.bare.update id f' := by
  simp only [update, bare, List.map_map]
  congr 1
  refine List.map_congr_left fun n _ => ?_
  by_cases hn : n.id = id
  · simp [hn, hf]
  · simp [hn]

theorem bare_insert : (g.insert n).bare = g.bare.insert n.bare := by
  unfold insert
  rw [contains_bare, Node.id_bare]
  split
  · exact bare_update fun _ => rfl
  · simp [bare]

theorem bare_addMember {m : MemberNode} : (g.addMember m).bare = g.bare.addMember m.bare := by
  rw [addMember_eq, addMember_eq, bare_insert, updateClass_eq, updateClass_eq]
  congr 1
  refine bare_update fun n => ?_
  cases n <;> rfl

theorem bare_declare {u : CompiledUnit} {origin : Origin} :
    (g.declare u origin).bare = g.bare.declare u.outline origin := by
  have hmembers : u.outline.memberNodes = u.memberNodes.map MemberNode.bare := by
    simp only [CompiledUnit.memberNodes, CompiledUnit.outline, List.map_append, List.map_map]
    rfl
  have hfold : ∀ (ms : List MemberNode) (g : Graph),
      (ms.foldl addMember g).bare = (ms.map MemberNode.bare).foldl addMember g.bare := by
    intro ms
    induction ms with
    | nil => exact fun _ => rfl
    | cons m ms ih =>
      intro g
      rw [List.foldl_cons, ih, bare_addMember]
      rfl
  rw [declare, declare, hfold, hmembers, addClass, addClass, bare_insert]
  rfl

theorem bare_addEdge {e : Edge} : (g.addEdge e).bare = g.bare.addEdge e := by
  have haccepts : g.bare.accepts e = g.accepts e := by
    rw [accepts, accepts, contains_bare]
    rfl
  unfold addEdge
  rw [haccepts]
  split <;> rfl

theorem bare_provide {name : String} :
    (g.provide platform name).bare = g.bare.provide platform name := by
  have hensure : ∀ (g : Graph) (origin : Origin),
      (g.ensureClass name origin).bare = g.bare.ensureClass name origin := by
    intro g origin
    unfold ensureClass
    rw [contains_bare]
    split
    · rfl
    · exact bare_insert
  unfold provide
  rw [contains_bare]
  split
  · rfl
  · split
    · exact hensure g _
    · exact hensure g.recordWarning _

theorem bare_linkClass {b : Bool} {source : NodeId} {kind : EdgeKind} {name : String} :
    (g.linkClass platform b source kind name).1.bare =
      (g.bare.linkClass platform b source kind name).1 := by
  have hmention : g.bare.mentioned? platform b name = g.mentioned? platform b name := by
    simp only [mentioned?, contains_bare]
  unfold linkClass
  rw [hmention]
  split
  · rfl
  · rw [fst_insertEdges_singleton, fst_insertEdges_singleton, bare_addEdge, bare_provide]

/-- Placing a unit in the hierarchy does not look at signatures. -/
theorem bare_applyLinks_hierarchyLinks (u : CompiledUnit) :
    (g.applyLinks platform u.hierarchyLinks).bare =
      g.bare.applyLinks platform u.outline.hierarchyLinks := by
  have hlinks : ∀ l ∈ u.hierarchyLinks, ∃ source kind name, l = .supertype source kind name := by
    intro l hl
    rcases List.mem_append.mp hl with hl | hl
    all_goals
      obtain ⟨name, _, rfl⟩ := List.mem_map.mp hl
      exact ⟨_, _, name, rfl⟩
  have hfold : ∀ (links : List Link) (g : Graph),
      (∀ l ∈ links, ∃ source kind name, l = .supertype source kind name) →
      (g.applyLinks platform links).bare = g.bare.applyLinks platform links := by
    intro links
    induction links with
    | nil => exact fun _ _ => rfl
    | cons l links ih =>
      intro g hl
      obtain ⟨source, kind, name, rfl⟩ := hl l List.mem_cons_self
      rw [applyLinks, List.foldl_cons, ← applyLinks,
        ih _ fun k hk => hl k (List.mem_cons_of_mem _ hk), applyLinks, applyLinks, List.foldl_cons]
      congr 1
      unfold applyLink link
      rw [contains_bare]
      split
      · rfl
      · exact bare_linkClass
  exact hfold _ g hlinks

theorem cycle?_of_bare_eq {g' : Graph} (h : g.bare = g'.bare) : g.cycle? = g'.cycle? := by
  have hbare : ∀ g : Graph, g.bare.cycle? = g.cycle? := by
    intro g
    have hparents : g.bare.parents = g.parents := rfl
    have hchildren : g.bare.children = g.children := rfl
    have hfinish : ∀ (fresh finished todo : List NodeId),
        g.bare.finishAll fresh finished todo = g.finishAll fresh finished todo := by
      intro fresh finished todo
      induction todo generalizing fresh finished with
      | nil => rfl
      | cons id todo ih => simp only [finishAll, hparents, ih]
    simp only [cycle?, cycleNode?, ids_bare, hfinish, hchildren]
  rw [← hbare, h, hbare]

end Graph

namespace CompiledUnit

variable (u : CompiledUnit)

@[simp] theorem name_outline : u.outline.name = u.name := rfl

@[simp] theorem library_outline : u.outline.library = u.library := rfl

@[simp] theorem superclass_outline : u.outline.superclass = u.superclass := rfl

@[simp] theorem hierarchyLinks_outline : u.outline.hierarchyLinks = u.hierarchyLinks := rfl

@[simp] theorem nodeIds_outline : u.outline.nodeIds = u.nodeIds := by
  simp only [nodeIds, outline, id, List.map_map]
  rfl

@[simp] theorem declarationLinks_outline : u.outline.declarationLinks = u.declarationLinks := by
  simp only [declarationLinks, outline, List.flatMap_map]
  rfl

@[simp] theorem check_outline : u.outline.check = u.check := by
  simp only [check, outline, checkSupertypes, List.map_map]
  rfl

variable {u} {v : CompiledUnit}

theorem name_eq_of_outline_eq (h : u.outline = v.outline) : u.name = v.name := by
  rw [← name_outline, h, name_outline]

theorem exists_method_of_outline_eq (h : u.outline = v.outline) {m : Method} (hm : m ∈ u.methods) :
    ∃ k ∈ v.methods, k.outline = m.outline := by
  have hmem : m.outline ∈ v.outline.methods := h ▸ List.mem_map_of_mem hm
  exact List.mem_map.mp hmem

end CompiledUnit

theorem Method.of_outline_eq {m k : Method} (h : k.outline = m.outline) :
    k.key = m.key ∧ k.modifiers = m.modifiers := by
  have hkey : k.outline.key = m.outline.key := by rw [h]
  have hmodifiers : k.outline.modifiers = m.outline.modifiers := by rw [h]
  exact ⟨hkey, hmodifiers⟩

namespace Program

variable {p q : Program} {u : CompiledUnit} {batch : List CompiledUnit}

@[simp] theorem names_outline (p : Program) : p.outline.names = p.names := by
  simp only [names, outline, List.map_map]
  rfl

theorem visibleLibraries_outline (p : Program) :
    p.outline.visibleLibraries = p.visibleLibraries.map CompiledUnit.outline := by
  simp only [visibleLibraries, names_outline]
  rw [outline, List.filter_map]
  rfl

theorem declared_outline (p : Program) : p.outline.declared = p.declared.bare := by
  have hfold : ∀ {α : Type} (unit : α → CompiledUnit) (origin : α → Origin) (l : List α) (g : Graph),
      (l.foldl (fun g a => g.declare (unit a) (origin a)) g).bare =
        l.foldl (fun g a => g.declare (unit a).outline (origin a)) g.bare := by
    intro α unit origin l
    induction l with
    | nil => exact fun _ => rfl
    | cons a l ih =>
      intro g
      rw [List.foldl_cons, ih, Graph.bare_declare, List.foldl_cons]
  unfold declared
  rw [visibleLibraries_outline, outline, List.foldl_map, List.foldl_map,
    hfold (fun u => u) fun _ => .library,
    hfold SourcedUnit.unit fun s => .program s.source]
  rfl

/-- Without bodies and signatures, a program has the same hierarchy. -/
theorem skeleton_outline (p : Program) : p.outline.skeleton = p.skeleton.bare := by
  have hunits : p.outline.units.map (·.unit) ++ p.outline.visibleLibraries =
      (p.units.map (·.unit) ++ p.visibleLibraries).map CompiledUnit.outline := by
    rw [visibleLibraries_outline, List.map_append, outline, List.map_map, List.map_map]
    rfl
  have hfold : ∀ (us : List CompiledUnit) (g : Graph),
      (us.foldl (fun g u => g.applyLinks p.platform u.hierarchyLinks) g).bare =
        (us.map CompiledUnit.outline).foldl
          (fun g u => g.applyLinks p.platform u.hierarchyLinks) g.bare := by
    intro us
    induction us with
    | nil => exact fun _ => rfl
    | cons u us ih =>
      intro g
      rw [List.foldl_cons, ih, Graph.bare_applyLinks_hierarchyLinks, List.map_cons, List.foldl_cons]
  unfold skeleton
  rw [hunits, declared_outline, hfold]
  rfl

theorem platform_eq_of_outline_eq (h : p.outline = q.outline) : p.platform = q.platform := by
  have : p.outline.platform = q.outline.platform := by rw [h]
  exact this

theorem bare_skeleton_of_outline_eq (h : p.outline = q.outline) :
    p.skeleton.bare = q.skeleton.bare := by
  rw [← skeleton_outline, h, skeleton_outline]

/-- Whether a program can be built depends on its outline only. -/
theorem exists_build_of_outline_eq (h : p.outline = q.outline) (hp : ∃ g, p.build = .ok g) :
    ∃ g, q.build = .ok g := by
  obtain ⟨g, hg⟩ := hp
  refine ⟨_, build_eq_ok_iff.mpr ⟨?_, rfl⟩⟩
  rw [← Graph.cycle?_of_bare_eq (bare_skeleton_of_outline_eq h)]
  exact (build_eq_ok_iff.mp hg).1

/-- The programs that come about by adding one unit after the other. -/
inductive Gathered : Program → Prop
  | empty (platform : Platform) : Gathered { platform }
  | unit {p q : Program} {u : CompiledUnit} {source : Path} : Gathered p →
      p.addUnit u source = .ok q → Gathered q
  | library {p q : Program} {u : CompiledUnit} : Gathered p → p.addLibrary u = .ok q → Gathered q

theorem checked_eq_ok_iff : u.checked = .ok () ↔ u.check = .ok () := by
  unfold CompiledUnit.checked
  cases u.check with
  | ok v => simp
  | error e => simp

theorem addLibrary_eq_ok_iff : p.addLibrary u = .ok q ↔
    u.check = .ok () ∧
      q = if u.name = objectClass then p else { p with libraries := p.libraries ++ [u] } := by
  rw [← checked_eq_ok_iff, addLibrary]
  cases u.checked with
  | ok v =>
    simp only [true_and]
    exact ⟨fun h => (Except.ok.inj h).symm, fun h => congrArg _ h.symm⟩
  | error e => exact ⟨nofun, fun h => nomatch h.1⟩

theorem addUnit_eq_ok_iff {source : Path} : p.addUnit u source = .ok q ↔
    u.check = .ok () ∧
      (if u.name = objectClass then q = p
      else if u.library then q = { p with libraries := p.libraries ++ [u] }
      else u.name ∉ p.names ∧ q = { p with units := p.units ++ [⟨u, source⟩] }) := by
  rw [← checked_eq_ok_iff, addUnit]
  cases u.checked with
  | error e => exact ⟨nofun, fun h => nomatch h.1⟩
  | ok v =>
    simp only [true_and]
    show (if _ then _ else _) = _ ↔ _
    split
    · exact ⟨fun h => (Except.ok.inj h).symm, fun h => congrArg _ h.symm⟩
    · split
      · exact ⟨fun h => (Except.ok.inj h).symm, fun h => congrArg _ h.symm⟩
      · by_cases hn : u.name ∈ p.names
        · simp only [hn, if_true, not_true_eq_false, false_and, iff_false]
          exact nofun
        · simp only [hn, if_false, not_false_eq_true, true_and]
          exact ⟨fun h => (Except.ok.inj h).symm, fun h => congrArg _ h.symm⟩

/-- What the units of a program have to be. -/
structure Admissible (p : Program) : Prop where
  units : ∀ s ∈ p.units, s.unit.check = .ok () ∧ s.unit.name ≠ objectClass ∧ s.unit.library = false
  libraries : ∀ u ∈ p.libraries, u.check = .ok () ∧ u.name ≠ objectClass
  distinct : p.names.Nodup

theorem Admissible.addLibrary (hp : p.Admissible) (hc : u.check = .ok ())
    (hn : u.name ≠ objectClass) :
    Admissible { p with libraries := p.libraries ++ [u] } where
  units := hp.units
  distinct := hp.distinct
  libraries v hv := by
    rcases List.mem_append.mp hv with hv | hv
    · exact hp.libraries v hv
    · rw [List.mem_singleton.mp hv]
      exact ⟨hc, hn⟩

theorem Gathered.admissible (hp : p.Gathered) : p.Admissible := by
  induction hp with
  | empty platform => exact ⟨nofun, nofun, List.nodup_nil⟩
  | @unit p q u source _ hadd ih =>
    obtain ⟨hc, hq⟩ := addUnit_eq_ok_iff.mp hadd
    split at hq
    next => exact hq ▸ ih
    next hn =>
      split at hq
      next => exact hq ▸ ih.addLibrary hc hn
      next hlib =>
        obtain ⟨hnew, rfl⟩ := hq
        refine ⟨fun s hs => ?_, ih.libraries, ?_⟩
        · rcases List.mem_append.mp hs with hs | hs
          · exact ih.units s hs
          · rw [List.mem_singleton.mp hs]
            exact ⟨hc, hn, by simpa using hlib⟩
        · simp only [names, List.map_append, List.map_cons, List.map_nil]
          refine List.nodup_append.mpr ⟨ih.distinct, by simp, ?_⟩
          rintro a ha b hb rfl
          exact hnew (List.mem_singleton.mp hb ▸ ha)
  | @library p q u _ hadd ih =>
    obtain ⟨hc, hq⟩ := addLibrary_eq_ok_iff.mp hadd
    split at hq
    next => exact hq ▸ ih
    next hn => exact hq ▸ ih.addLibrary hc hn

/-- Units that are admissible together can be added one after the other. -/
theorem Admissible.gathered (hp : p.Admissible) : p.Gathered := by
  obtain ⟨platform, units, libraries⟩ := p
  -- The units of the program first, then those of the libraries, each at the end.
  have hunits : ∀ us : List SourcedUnit, Admissible ⟨platform, us, []⟩ →
      Gathered ⟨platform, us, []⟩ := by
    intro us
    induction us using List.reverseRecOn with
    | nil => exact fun _ => .empty platform
    | append_singleton us s ih =>
      intro hus
      obtain ⟨hc, hn, hlib⟩ := hus.units s (by simp)
      have hd := hus.distinct
      simp only [names, List.map_append, List.map_cons, List.map_nil] at hd
      obtain ⟨hd, _, hnew⟩ := List.nodup_append.mp hd
      have hrest := ih ⟨fun s hs => hus.units s (List.mem_append_left _ hs), nofun, hd⟩
      have hadd : Program.addUnit ⟨platform, us, []⟩ s.unit s.source =
          .ok ⟨platform, us ++ [s], []⟩ := by
        refine addUnit_eq_ok_iff.mpr ⟨hc, ?_⟩
        rw [if_neg hn, hlib]
        exact ⟨fun h => hnew _ h _ List.mem_cons_self rfl, rfl⟩
      exact hrest.unit hadd
  have hlibs : ∀ us : List CompiledUnit, (∀ u ∈ us, u.check = .ok () ∧ u.name ≠ objectClass) →
      Gathered ⟨platform, units, us⟩ := by
    intro us
    induction us using List.reverseRecOn with
    | nil => exact fun _ => hunits units ⟨hp.units, nofun, hp.distinct⟩
    | append_singleton us u ih =>
      intro hus
      obtain ⟨hc, hn⟩ := hus u (by simp)
      have hrest := ih fun u hu => hus u (List.mem_append_left _ hu)
      refine hrest.library (u := u) (addLibrary_eq_ok_iff.mpr ⟨hc, ?_⟩)
      rw [if_neg hn]
  exact hlibs libraries hp.libraries

theorem gathered_iff : p.Gathered ↔ p.Admissible := ⟨Gathered.admissible, Admissible.gathered⟩

theorem gathered_shapes : shapes.Gathered :=
  gathered_iff.mpr ⟨by decide +kernel, by decide, by decide⟩

theorem exists_unit_of_outline_eq (h : p.outline = q.outline) {s : SourcedUnit} (hs : s ∈ p.units) :
    ∃ t ∈ q.units, t.unit.outline = s.unit.outline := by
  have hmem : (⟨s.unit.outline, s.source⟩ : SourcedUnit) ∈ q.outline.units :=
    h ▸ List.mem_map_of_mem hs
  obtain ⟨t, ht, heq⟩ := List.mem_map.mp hmem
  exact ⟨t, ht, (SourcedUnit.mk.inj heq).1⟩

theorem Admissible.of_outline_eq (hp : p.Admissible) (h : p.outline = q.outline) :
    q.Admissible where
  units s hs := by
    obtain ⟨t, ht, heq⟩ := exists_unit_of_outline_eq h.symm hs
    have := hp.units t ht
    rw [← CompiledUnit.check_outline, ← CompiledUnit.name_outline, ← CompiledUnit.library_outline,
      heq, CompiledUnit.check_outline] at this
    exact this
  libraries u hu := by
    have hmem : u.outline ∈ p.outline.libraries := h ▸ List.mem_map_of_mem hu
    obtain ⟨v, hv, heq⟩ := List.mem_map.mp hmem
    have := hp.libraries v hv
    rw [← CompiledUnit.check_outline, ← CompiledUnit.name_outline, heq,
      CompiledUnit.check_outline] at this
    exact this
  distinct := by
    rw [← names_outline, ← h, names_outline]
    exact hp.distinct

/-- Another version of a unit in the place of the one with its name. -/
def replace (p : Program) (u : CompiledUnit) : Program :=
  { p with units := p.units.map fun s => if s.unit.name = u.name then ⟨u, s.source⟩ else s }

/-- Other versions of several units, one after the other. -/
def edit (p : Program) (batch : List CompiledUnit) : Program := batch.foldl replace p

/-- Every unit of the batch differs from the version that the program has of it in bodies and
signatures at most, and there is one new version of each. -/
structure IsEdit (p : Program) (batch : List CompiledUnit) : Prop where
  distinct : (batch.map (·.name)).Nodup
  outline : ∀ u ∈ batch, ∃ s ∈ p.units, s.unit.outline = u.outline

theorem outline_replace (hp : p.Admissible) (hu : ∃ s ∈ p.units, s.unit.outline = u.outline) :
    (p.replace u).outline = p.outline := by
  obtain ⟨t, ht, heq⟩ := hu
  have hname := CompiledUnit.name_eq_of_outline_eq heq
  simp only [outline, replace, List.map_map]
  congr 1
  refine List.map_congr_left fun s hs => ?_
  show SourcedUnit.mk (if s.unit.name = u.name then ⟨u, s.source⟩ else s : SourcedUnit).unit.outline
    (if s.unit.name = u.name then ⟨u, s.source⟩ else s : SourcedUnit).source = _
  split
  next hs' =>
    -- The names of units are distinct, so this is the unit that has another version.
    obtain rfl : s = t := List.inj_on_of_nodup_map hp.distinct hs ht (hs'.trans hname.symm)
    rw [heq]
  next => rfl

theorem outline_edit (hp : p.Admissible) (hb : ∀ u ∈ batch, ∃ s ∈ p.units, s.unit.outline = u.outline) :
    (p.edit batch).outline = p.outline := by
  induction batch generalizing p with
  | nil => rfl
  | cons u batch ih =>
    have hout := outline_replace hp (hb u List.mem_cons_self)
    refine (ih (hp.of_outline_eq hout.symm) fun v hv => ?_).trans hout
    obtain ⟨s, hs, heq⟩ := hb v (List.mem_cons_of_mem _ hv)
    obtain ⟨t, ht, heq'⟩ := exists_unit_of_outline_eq hout.symm hs
    exact ⟨t, ht, heq'.trans heq⟩

end Program

end Winnow
