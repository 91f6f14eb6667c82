import Winnow.Incremental
import Winnow.Proofs.Program.Outline

/-!
# Relinking keeps a graph linked

A graph that stands for a program stands for the edited program once the edited
unit is linked again, and still does when orphaned stand-ins are gone.
-/
namespace Winnow

namespace Graph

variable {g g' : Graph} {platform : Platform} {u : CompiledUnit} {e : Edge} {id x : NodeId}

section Signatures

/-- The nodes are the same, apart from their signatures. -/
def SameBare (g g' : Graph) : Prop := g.nodes.map Node.bare = g'.nodes.map Node.bare

theorem SameBare.contains (h : SameBare g g') : g'.contains = g.contains := by
  funext x
  refine contains_congr ?_ x
  have := congrArg (List.map Node.id) h
  simpa [Function.comp_def] using this.symm

theorem SameBare.node? (h : SameBare g g') (x : NodeId) :
    (g.node? x).map Node.bare = (g'.node? x).map Node.bare := by
  rw [← node?_bare, ← node?_bare, Graph.node?, Graph.node?]
  exact congrArg _ h

theorem SameBare.sameCore (h : SameBare g g') : SameCore g g' := by
  intro x
  rw [← core_bare, ← core_bare (g := g'), core, core, node?_bare, node?_bare, h.node?]

theorem SameBare.class?_members (h : SameBare g g') {name : String} {c : ClassNode}
    (hc : g'.class? name = some c) : ∃ d, g.class? name = some d ∧ d.members = c.members := by
  have hnode := h.node? (.class_ name)
  rw [(class?_eq_some hc).1] at hnode
  obtain ⟨n, hn, hbare⟩ := Option.map_eq_some_iff.mp hnode
  cases n with
  | member => cases hbare
  | class_ d => exact ⟨d, class?_of_node? hn, ClassNode.members_of_bare_eq (Node.class_.inj hbare)⟩

theorem SameBare.update {f : Node → Node} (h : SameBare g g') (hf : ∀ n, (f n).bare = n.bare) :
    SameBare g (g'.update id f) := by
  rw [SameBare, h, Graph.update, List.map_map]
  refine List.map_congr_left fun n _ => ?_
  by_cases hn : n.id = id
  · simp [hn, hf]
  · simp [hn]

/-- The graphs differ in signatures at the given nodes only. -/
structure Resigned (ids : List NodeId) (g g' : Graph) : Prop where
  bare : SameBare g g'
  edges : g'.edges = g.edges
  others : ∀ x ∉ ids, g'.node? x = g.node? x

variable {ids : List NodeId}

theorem Resigned.update (h : Resigned ids g g') (hid : id ∈ ids) {f : Node → Node}
    (hf : ∀ n, (f n).bare = n.bare) : Resigned ids g (g'.update id f) where
  bare := h.bare.update hf
  edges := h.edges
  others x hx := by
    have hkeep : ∀ n : Node, n.id = id → (f n).id = id := by
      intro n hn
      rw [← Node.id_bare, hf, Node.id_bare, hn]
    have hne : x ≠ id := fun heq => hx (heq ▸ hid)
    rw [node?_update hkeep, if_neg hne, h.others x hx]

theorem Resigned.foldl_updateMember {α : Type} {owner : α → NodeId} {signature : α → Option String}
    {l : List α} (h : Resigned ids g g') (hl : ∀ a ∈ l, owner a ∈ ids) :
    Resigned ids g (l.foldl (fun g a =>
      g.updateMember (owner a) fun n => { n with signature := signature a }) g') := by
  induction l generalizing g' with
  | nil => exact h
  | cons a l ih =>
    refine ih (h.update (hl a List.mem_cons_self) fun n => ?_)
      fun b hb => hl b (List.mem_cons_of_mem _ hb)
    cases n <;> rfl

/-- New signatures stand at the nodes of the unit, and nothing else changes. -/
theorem resigned_setSignatures (g : Graph) (u : CompiledUnit) :
    Resigned u.nodeIds g (g.setSignatures u) := by
  have hself : Resigned u.nodeIds g g := ⟨rfl, rfl, fun _ _ => rfl⟩
  have hclass : Resigned u.nodeIds g
      (g.updateClass u.name fun c => { c with signature := u.signature }) :=
    hself.update u.id_mem_nodeIds fun n => by cases n <;> rfl
  refine (hclass.foldl_updateMember fun m hm => ?_).foldl_updateMember fun f hf => ?_
  · exact CompiledUnit.method_mem_nodeIds hm
  · exact CompiledUnit.field_mem_nodeIds hf

end Signatures

section Bodies

/-- The edge comes from a body or signature of the unit. -/
def isBodyOf (u : CompiledUnit) (e : Edge) : Bool := e.source ∈ u.nodeIds && e.kind.isBody

theorem takeBodies_graph (ids : List NodeId) (g : Graph) : (g.takeBodies ids).1.nodes = g.nodes ∧
    (g.takeBodies ids).1.edges = g.edges.filter fun e => !(e.source ∈ ids && e.kind.isBody) := by
  induction ids generalizing g with
  | nil => exact ⟨rfl, by simp [takeBodies]⟩
  | cons id ids ih =>
    obtain ⟨hnodes, hedges⟩ := ih ((g.clearMissing id).removeEdgesFrom id EdgeKind.isBody)
    refine ⟨hnodes, hedges.trans ?_⟩
    rw [removeEdgesFrom, List.filter_filter]
    refine List.filter_congr fun e _ => ?_
    cases e.kind.isBody <;> simp [Bool.and_comm]

theorem mem_takeBodies {ids : List NodeId} : e ∈ (g.takeBodies ids).2 ↔
    e ∈ g.edges ∧ (e.source ∈ ids && e.kind.isBody) = true := by
  induction ids generalizing g with
  | nil => simp [takeBodies]
  | cons id ids ih =>
    have hrest : ((g.clearMissing id).removeEdgesFrom id EdgeKind.isBody).edges =
        g.edges.filter fun e => !(e.source = id && e.kind.isBody) := rfl
    have hedges : (g.clearMissing id).edges = g.edges := rfl
    simp only [takeBodies, takeEdgesFrom, List.mem_append, ih, hrest, edgesFrom, List.mem_filter,
      mem_outgoing, hedges]
    by_cases hid : e.source = id <;> cases e.kind.isBody <;> simp [hid]

/-- Each body edge is taken out once, also if a node is listed twice. -/
theorem nodup_takeBodies {ids : List NodeId} (hg : g.edges.Nodup) : (g.takeBodies ids).2.Nodup := by
  induction ids generalizing g with
  | nil => exact List.nodup_nil
  | cons id ids ih =>
    simp only [takeBodies, takeEdgesFrom]
    refine List.nodup_append.mpr ⟨(hg.filter _).filter _, ih (hg.filter _), fun e he k hk heq => ?_⟩
    simp only [mem_takeBodies, removeEdgesFrom, edgesFrom, List.mem_filter, mem_outgoing] at he hk
    simp [← heq, he.1.2, he.2] at hk

/-- The graph without anything that comes from the bodies of a unit. -/
def withoutBodies (g : Graph) (u : CompiledUnit) : Graph := (g.takeBodies u.nodeIds).1

theorem withoutBodies_eq_foldl (g : Graph) (u : CompiledUnit) : g.withoutBodies u =
    u.nodeIds.foldl (fun g id => (g.clearMissing id).removeEdgesFrom id EdgeKind.isBody) g := by
  rw [withoutBodies]
  generalize u.nodeIds = ids
  induction ids generalizing g with
  | nil => rfl
  | cons id ids ih => exact ih _

theorem withoutBodies_spec (g : Graph) (u : CompiledUnit) :
    (g.withoutBodies u).nodes = g.nodes ∧
      (g.withoutBodies u).edges = g.edges.filter fun e => !isBodyOf u e :=
  takeBodies_graph u.nodeIds g

/-- The graph in which the bodies of a unit are linked anew. -/
def cleared (g : Graph) (u : CompiledUnit) : Graph := (g.withoutBodies u).setSignatures u

theorem mem_cleared : e ∈ (g.cleared u).edges ↔ e ∈ g.edges ∧ isBodyOf u e = false := by
  rw [cleared, (resigned_setSignatures _ u).edges, (withoutBodies_spec g u).2, List.mem_filter]
  simp

theorem sameBare_cleared : SameBare g (g.cleared u) := by
  have := (resigned_setSignatures (g.withoutBodies u) u).bare
  rwa [SameBare, (withoutBodies_spec g u).1] at this

theorem node?_cleared (hid : id ∉ u.nodeIds) : (g.cleared u).node? id = g.node? id := by
  rw [cleared, (resigned_setSignatures _ u).others id hid, node?, node?, (withoutBodies_spec g u).1]

theorem ladder_cleared : (g.cleared u).ladder = g.ladder := by
  rw [ladder, cleared, (resigned_setSignatures _ u).edges, (withoutBodies_spec g u).2, List.filter_filter]
  refine List.filter_congr fun e _ => ?_
  cases hk : e.kind <;> simp [isBodyOf, hk, EdgeKind.isHierarchy, EdgeKind.isBody]

theorem WellFormed.cleared (hg : g.WellFormed) : (g.cleared u).WellFormed := by
  have hb := sameBare_cleared (g := g) (u := u)
  have hids : (g.cleared u).nodes.map Node.id = g.nodes.map Node.id := by
    have := congrArg (List.map Node.id) hb
    simpa [Function.comp_def] using this.symm
  have hedges : (g.cleared u).edges.Sublist g.edges := by
    rw [Graph.cleared, (resigned_setSignatures _ u).edges, (withoutBodies_spec g u).2]
    exact List.filter_sublist
  refine ⟨hids ▸ hg.distinct, hg.unique.sublist hedges, fun e he => ?_, fun m hm => ?_⟩
  · rw [hb.contains]
    exact hg.ends e (mem_cleared.mp he).1
  · have hmem : (Node.member m).bare ∈ g.nodes.map Node.bare := hb ▸ List.mem_map_of_mem hm
    obtain ⟨n, hn, heq⟩ := List.mem_map.mp hmem
    cases n with
    | class_ c => cases heq
    | member k =>
      have hid : k.id = m.id := by
        have := congrArg Node.id heq
        rwa [Node.id_bare, Node.id_bare] at this
      rw [hb.contains, ← hid]
      exact hg.owned k hn

/-- Members belong to known classes if the known nodes are the same. -/
theorem SameCore.owner (h : SameCore g g') (hg : ∀ id m, g.member? id = some m →
    ∃ c, g.class? id.className = some c ∧ c.origin ≠ .unresolved) (id : NodeId) (m : MemberNode)
    (hm : g'.member? id = some m) : ∃ c, g'.class? id.className = some c ∧ c.origin ≠ .unresolved := by
  rcases h.member?_cases id with ⟨k, m', hk, hm', _⟩ | ⟨_, hnone⟩
  · obtain ⟨c, hc, ho⟩ := hg id k hk
    obtain ⟨n', hn', hbare, hun⟩ := h.exists_node? (class?_eq_some hc).1
      (by simpa [Marking.isUnresolved] using ho)
    cases n' with
    | member _ => cases hbare
    | class_ c' => exact ⟨c', class?_of_node? hn', by simpa [Marking.isUnresolved] using hun⟩
  · rw [hnone] at hm
    cases hm

/-- Only the nodes of the unit are touched, and these are known. -/
theorem Tame.cleared (hg : g.Tame platform) (hu : ∀ id ∈ u.nodeIds, g.core id ≠ none) :
    (g.cleared u).Tame platform := by
  have hcore : SameCore g (g.cleared u) := sameBare_cleared.sameCore
  refine ⟨fun id n hn hun => ?_, hcore.owner hg.owner⟩
  have hid : id ∉ u.nodeIds := by
    intro hmem
    refine hu id hmem ?_
    rw [hcore id, core_eq_none_iff]
    intro k hk
    rwa [Option.some.inj (hk.symm.trans hn)]
  exact hg.standIn id n (node?_cleared hid ▸ hn) hun

/-- The graph with the body edges that the unit has now. -/
def relink (g : Graph) (platform : Platform) (u : CompiledUnit) : Graph :=
  (g.cleared u).applyLinks platform u.bodyLinks

theorem fst_relinkBodies : (g.relinkBodies platform u).1 = g.relink platform u := fst_linkAll

/-- How the edges differ once the unit is linked again, as relinking records it. -/
def relinkDelta (g : Graph) (platform : Platform) (u : CompiledUnit) : EdgeDelta :=
  (g.relinkBodies platform u).2

theorem mem_applyLinks_of_mem {links : List Link} (he : e ∈ g.edges) :
    e ∈ (g.applyLinks platform links).edges :=
  List.foldlRecOn (motive := fun g : Graph => e ∈ g.edges) _ _ he
    fun _ hg _ _ => mem_applyLink.mpr (.inl hg)

theorem mem_relink_of_mem (he : e ∈ g.edges) (hb : isBodyOf u e = false) :
    e ∈ (g.relink platform u).edges :=
  mem_applyLinks_of_mem (mem_cleared.mpr ⟨he, hb⟩)

theorem edges_relink : (g.relink platform u).edges =
    ((g.cleared u).linkAll platform u.bodyLinks).2.reverse ++ (g.cleared u).edges :=
  edges_applyLinks

/-- An edge that is taken out and comes back is reported as new, and so it is no difference. -/
theorem mem_removed_relinkDelta : e ∈ (g.relinkDelta platform u).removed ↔
    e ∈ g.edges ∧ e ∉ (g.relink platform u).edges := by
  show e ∈ (g.takeBodies u.nodeIds).2.filter
    (· ∉ ((g.cleared u).linkAll platform u.bodyLinks).2) ↔ _
  rw [List.mem_filter, decide_eq_true_eq, mem_takeBodies, ← isBodyOf, edges_relink, List.mem_append,
    List.mem_reverse, mem_cleared, and_assoc]
  refine and_congr_right fun he => ?_
  cases isBodyOf u e <;> simp [he]

theorem of_mem_relink (he : e ∈ (g.relink platform u).edges) :
    e ∈ g.edges ∨ e.source ∈ u.nodeIds := by
  have hkinds : ∀ l ∈ u.bodyLinks, l.Kinds (·.isBody = true) :=
    fun l hl => (CompiledUnit.lateral_of_mem_bodyLinks hl).2.2
  rcases of_mem_applyLinks hkinds he with he | ⟨_, l, hl, hs⟩
  · exact .inl (mem_cleared.mp he).1
  · exact .inr (hs ▸ (CompiledUnit.lateral_of_mem_bodyLinks hl).2.1)

theorem relink_extension : Extension platform false (g.cleared u) (g.relink platform u) :=
  applyLinks_extension_of_lateral fun _ hl => (CompiledUnit.lateral_of_mem_bodyLinks hl).1

theorem sameCore_relink : SameCore g (g.relink platform u) :=
  sameBare_cleared.sameCore.trans relink_extension.sameCore

theorem ladder_relink : (g.relink platform u).ladder = g.ladder :=
  (ladder_applyLinks fun _ hl => (CompiledUnit.lateral_of_mem_bodyLinks hl).1).trans ladder_cleared

end Bodies

end Graph

namespace Program

open Graph

variable {p q : Program} {g g' : Graph} {u : CompiledUnit} {s : SourcedUnit} {e : Edge}

@[simp] theorem names_replace (p : Program) (u : CompiledUnit) : (p.replace u).names = p.names := by
  rw [names, names, replace, List.map_map]
  refine List.map_congr_left fun s _ => ?_
  show (if s.unit.name = u.name then (⟨u, s.source⟩ : SourcedUnit) else s).unit.name = s.unit.name
  split
  next h => exact h.symm
  next => rfl

/-- The units of the edited program are the new version and the others. -/
theorem mem_units_replace (hu : ∃ s ∈ p.units, s.unit.outline = u.outline) {v : CompiledUnit} :
    (∃ s ∈ (p.replace u).units, s.unit = v) ↔
      v = u ∨ (∃ s ∈ p.units, s.unit = v) ∧ v.name ≠ u.name := by
  simp only [replace, List.mem_map]
  constructor
  · rintro ⟨_, ⟨s, hs, rfl⟩, rfl⟩
    split
    next => exact .inl rfl
    next h => exact .inr ⟨⟨s, hs, rfl⟩, h⟩
  · rintro (rfl | ⟨⟨s, hs, rfl⟩, hne⟩)
    · obtain ⟨s, hs, heq⟩ := hu
      have hname := CompiledUnit.name_eq_of_outline_eq heq
      exact ⟨_, ⟨s, hs, rfl⟩, by rw [if_pos hname]⟩
    · exact ⟨s, ⟨s, hs, if_neg hne⟩, rfl⟩

/-- The nodes of the units of two programs with the same outline are the same. -/
theorem exists_roster_of_outline_eq (h : p.outline = q.outline) {id : NodeId}
    (hp : ∃ u ∈ p.roster, id ∈ u.nodeIds) : ∃ u ∈ q.roster, id ∈ u.nodeIds := by
  obtain ⟨u, hu, hid⟩ := hp
  rcases List.mem_append.mp hu with hu | hu
  · obtain ⟨s, hs, rfl⟩ := List.mem_map.mp hu
    obtain ⟨t, ht, heq⟩ := exists_unit_of_outline_eq h hs
    refine ⟨t.unit, unit_mem_roster ht, ?_⟩
    rwa [← CompiledUnit.nodeIds_outline, heq, CompiledUnit.nodeIds_outline]
  · have hmem : u.outline ∈ q.visibleLibraries.map CompiledUnit.outline := by
      rw [← visibleLibraries_outline, ← h, visibleLibraries_outline]
      exact List.mem_map_of_mem hu
    obtain ⟨v, hv, heq⟩ := List.mem_map.mp hmem
    refine ⟨v, List.mem_append_right _ hv, ?_⟩
    rwa [← CompiledUnit.nodeIds_outline, heq, CompiledUnit.nodeIds_outline]

/-- A link that does not concern the hierarchy or a signature stands for the same edges in the
skeletons of programs with the same outline. -/
theorem edges_of_outline_eq (h : p.outline = q.outline) {l : Link} (hl : l.Lateral)
    (hs : e.kind ≠ .signature) (he : e ∈ l.edges p.platform p.skeleton) :
    e ∈ l.edges q.platform q.skeleton := by
  have hplatform := platform_eq_of_outline_eq h
  have hcore := sameCore_of_bare_eq (bare_skeleton_of_outline_eq h)
  have hq : q.skeleton.Tame p.platform := hplatform ▸ q.tame_skeleton
  rw [← hplatform]
  exact (hcore.mem_edges_iff p.tame_skeleton hq hl hs).mp he

/-- Edges of declarations and of overriding methods come from the outline alone. -/
theorem Links.of_outline_eq (h : p.outline = q.outline) (hs : e.kind ≠ .signature)
    (hbody : ∀ u, (∃ s ∈ p.units, s.unit = u) → u.library = false → ∀ m ∈ u.methods, ∀ i ∈ m.body,
      ∀ l ∈ i.links u (m.id u.name), e ∈ l.edges q.platform q.skeleton → q.Links e)
    (hl : p.Links e) : q.Links e := by
  cases hl with
  | @declaration s l hmem hl he =>
    obtain ⟨t, ht, heq⟩ := exists_unit_of_outline_eq h hmem
    refine .declaration (l := l) ht ?_ ?_
    · rwa [← CompiledUnit.declarationLinks_outline, heq, CompiledUnit.declarationLinks_outline]
    · exact edges_of_outline_eq h (CompiledUnit.lateral_of_mem_declarationLinks hl).1 hs he
  | @body s m i l hmem hlib hm hi hl he =>
    exact hbody _ ⟨s, hmem, rfl⟩ hlib m hm i hi l hl
      (edges_of_outline_eq h (Instruction.bodyLink hl).lateral hs he)
  | @override s m hmem hm he =>
    obtain ⟨t, ht, heq⟩ := exists_unit_of_outline_eq h hmem
    obtain ⟨k, hk, hout⟩ := CompiledUnit.exists_method_of_outline_eq heq.symm hm
    obtain ⟨hkey, hmodifiers⟩ := Method.of_outline_eq hout
    have hbare := bare_skeleton_of_outline_eq h
    have hq : q.skeleton.Tame p.platform := platform_eq_of_outline_eq h ▸ q.tame_skeleton
    refine .override ht hk ?_
    rwa [← (sameCore_of_bare_eq hbare).overrideEdges p.tame_skeleton hq p.wellFormed_skeleton
      q.wellFormed_skeleton (parents_congr (ladder_of_bare_eq hbare)) (CompiledUnit.name_eq_of_outline_eq heq) hkey
      hmodifiers]

/-- An edge of a body starts in the unit that has the body. -/
theorem isBodyOf_of_mem_edges {g : Graph} {platform : Platform} {l : Link} (hl : l ∈ u.bodyLinks)
    (he : e ∈ l.edges platform g) : isBodyOf u e = true := by
  obtain ⟨_, hsource, hkinds⟩ := CompiledUnit.lateral_of_mem_bodyLinks hl
  rw [isBodyOf, Link.source_of_mem_edges he, hkinds.of_mem_edges he]
  simpa using hsource

/-- Nothing but its own body edges changes with a new version of a unit. -/
theorem links_replace_iff_of_not_body (hp : p.Admissible)
    (hu : ∃ s ∈ p.units, s.unit.outline = u.outline) (hs : e.kind ≠ .signature)
    (hb : isBodyOf u e = false) : (p.replace u).Links e ↔ p.Links e := by
  have hout := outline_replace hp hu
  constructor
  · refine Links.of_outline_eq hout hs fun v hv hlib m hm i hi l hl he => ?_
    rcases (mem_units_replace hu).mp hv with rfl | ⟨⟨s, hs, rfl⟩, _⟩
    · rw [isBodyOf_of_mem_edges (CompiledUnit.instruction_link_mem hlib hm hi hl) he] at hb
      cases hb
    · exact .body hs hlib hm hi hl he
  · refine Links.of_outline_eq hout.symm hs fun v hv hlib m hm i hi l hl he => ?_
    have hne : v.name ≠ u.name := by
      intro hname
      -- The unit of that name has the nodes of `u`, so this would be a body edge of `u`.
      obtain ⟨s, hs, heq⟩ := hu
      obtain ⟨t, ht, rfl⟩ := hv
      obtain rfl : t = s := List.inj_on_of_nodup_map hp.distinct ht hs
        (hname.trans (CompiledUnit.name_eq_of_outline_eq heq).symm)
      have hbody := isBodyOf_of_mem_edges (CompiledUnit.instruction_link_mem hlib hm hi hl) he
      rw [isBodyOf, ← CompiledUnit.nodeIds_outline, heq, CompiledUnit.nodeIds_outline, ← isBodyOf,
        hb] at hbody
      cases hbody
    obtain ⟨t, ht, rfl⟩ := (mem_units_replace hu).mpr (.inr ⟨hv, hne⟩)
    exact .body ht hlib hm hi hl he

/-- The body edges of a new version are those that its bodies stand for. -/
theorem links_replace_iff_of_body (hu : ∃ s ∈ p.units, s.unit.outline = u.outline)
    (hs : e.kind ≠ .signature) (hb : isBodyOf u e = true) :
    (p.replace u).Links e ↔
      ∃ l ∈ u.bodyLinks, e ∈ l.edges (p.replace u).platform (p.replace u).skeleton := by
  rw [isBodyOf, Bool.and_eq_true, decide_eq_true_eq] at hb
  constructor
  · intro hl
    cases hl with
    | declaration hmem hl he =>
      have := (CompiledUnit.lateral_of_mem_declarationLinks hl).2.2.of_mem_edges he
      rw [hb.2] at this
      cases this
    | @body s m i l hmem hlib hm hi hl he =>
      have hlink := CompiledUnit.instruction_link_mem hlib hm hi hl
      have hname : s.unit.name = u.name := by
        rw [← CompiledUnit.className_of_mem_nodeIds hb.1, Link.source_of_mem_edges he]
        exact (CompiledUnit.className_of_mem_nodeIds
          (CompiledUnit.lateral_of_mem_bodyLinks hlink).2.1).symm
      rcases (mem_units_replace hu).mp ⟨s, hmem, rfl⟩ with heq | ⟨_, hne⟩
      · exact ⟨l, heq ▸ hlink, he⟩
      · exact absurd hname hne
    | override hmem hm he =>
      rcases kind_of_mem_overrideEdges he with ⟨hk, _⟩ | rfl
      · rw [hk] at hb
        cases hb.2
      · cases hb.2
  · rintro ⟨l, hl, he⟩
    obtain ⟨s, hmem, rfl⟩ := (mem_units_replace hu).mpr (.inl rfl)
    obtain ⟨hlib, m, hm, i, hi, hl⟩ := CompiledUnit.of_mem_bodyLinks_edges hl he hs
    exact .body hmem hlib hm hi hl he

theorem Linked.core_of_roster (hl : p.Linked g) {id : NodeId} (hu : u ∈ p.roster)
    (hid : id ∈ u.nodeIds) : g.core id ≠ none := by
  obtain ⟨n, hn⟩ := core_skeleton hu hid
  rw [← hl.core id, hn]
  exact Option.some_ne_none n

/-- Before the bodies of a new version are linked, all is there that they refer to. -/
theorem Linked.cleared (hl : p.Linked g) (hp : p.Admissible)
    (hu : ∃ s ∈ p.units, s.unit.outline = u.outline) :
    SameCore (p.replace u).skeleton (g.cleared u) ∧ (g.cleared u).Tame p.platform ∧
      ∀ l ∈ u.bodyLinks, (g.cleared u).contains l.source = true := by
  have hbare := bare_skeleton_of_outline_eq (outline_replace hp hu)
  have hknown : ∀ id ∈ u.nodeIds, g.core id ≠ none := by
    intro id hid
    obtain ⟨s, hs, heq⟩ := hu
    refine hl.core_of_roster (unit_mem_roster hs) ?_
    rwa [← CompiledUnit.nodeIds_outline, heq, CompiledUnit.nodeIds_outline]
  refine ⟨(sameCore_of_bare_eq hbare).trans (hl.core.trans sameBare_cleared.sameCore),
    hl.tame.cleared hknown, fun l hmem => ?_⟩
  obtain ⟨n, hn⟩ := Option.ne_none_iff_exists'.mp
    (hknown _ (CompiledUnit.lateral_of_mem_bodyLinks hmem).2.1)
  exact sameBare_cleared.sameCore.contains_of_core hn

/-- A graph that stands for a program stands for the edited program once the unit is linked
again. -/
theorem Linked.relink (hl : p.Linked g) (hp : p.Admissible)
    (hu : ∃ s ∈ p.units, s.unit.outline = u.outline) :
    (p.replace u).Linked (g.relink p.platform u) := by
  have hout := outline_replace hp hu
  have hbare := bare_skeleton_of_outline_eq hout
  have hlat : ∀ l ∈ u.bodyLinks, l.Lateral :=
    fun l hl => (CompiledUnit.lateral_of_mem_bodyLinks hl).1
  obtain ⟨hcleared, htame, hsource⟩ := hl.cleared hp hu
  refine ⟨hl.wellFormed.cleared.applyLinks, htame.extend relink_extension,
    hcleared.trans relink_extension.sameCore, ?_, fun e hk hs => ?_, fun e he => ?_⟩
  · rw [ladder_relink, hl.ladder, ladder_of_bare_eq hbare]
  · show e ∈ ((g.cleared u).applyLinks (p.replace u).platform u.bodyLinks).edges ↔ _
    rw [hcleared.mem_applyLinks (p.replace u).tame_skeleton htame hlat hsource hs, mem_cleared]
    cases hb : isBodyOf u e with
    | false =>
      rw [links_replace_iff_of_not_body hp hu hs hb, ← hl.edges e hk hs]
      constructor
      · rintro (⟨he, _⟩ | ⟨l, hmem, he⟩)
        · exact he
        · rw [isBodyOf_of_mem_edges hmem he] at hb
          cases hb
      · exact fun he => .inl ⟨he, rfl⟩
    | true =>
      rw [links_replace_iff_of_body hu hs hb]
      simp only [Bool.true_eq_false, and_false, false_or]
  · refine exists_roster_of_outline_eq hout.symm ?_
    rcases of_mem_relink he with he | he
    · exact hl.sources e he
    · obtain ⟨s, hs, heq⟩ := hu
      refine ⟨_, unit_mem_roster hs, ?_⟩
      rwa [← CompiledUnit.nodeIds_outline, heq, CompiledUnit.nodeIds_outline]

end Program

namespace Graph

variable {p : Program} {g : Graph} {id x : NodeId}

theorem isOrphan_iff : g.isOrphan id = true ↔
    ∃ c, g.node? id = some (.class_ c) ∧ c.origin = .unresolved ∧ ∀ e ∈ g.edges, e.target ≠ id := by
  have hincoming : (g.incoming id).isEmpty = true ↔ ∀ e ∈ g.edges, e.target ≠ id := by
    rw [incoming, List.isEmpty_iff, List.filter_eq_nil_iff]
    simp
  unfold isOrphan
  cases hn : g.node? id with
  | none => simp
  | some n =>
    cases n with
    | member m => simp [Node.class?]
    | class_ c =>
      simp only [Node.class?, Option.bind_some, Bool.and_eq_true, decide_eq_true_eq, hincoming]
      simp

theorem removeNode_class {c : ClassNode} (hn : g.node? id = some (.class_ c)) :
    (g.removeNode id).nodes = g.nodes.filter (·.id ≠ id) ∧
      (g.removeNode id).edges = g.edges.filter fun e => e.source ≠ id && e.target ≠ id := by
  unfold removeNode
  rw [hn]
  exact ⟨rfl, rfl⟩

theorem node?_removeNode {c : ClassNode} (hn : g.node? id = some (.class_ c)) :
    (g.removeNode id).node? x = if x = id then none else g.node? x := by
  rw [node?, (removeNode_class hn).1, List.find?_filter]
  split
  next h =>
    refine List.find?_eq_none.mpr fun n _ => ?_
    simp only [h, decide_eq_true_eq, not_and]
    intro hne heq
    simp [heq] at hne
  next h =>
    rw [node?]
    congr 1
    funext n
    by_cases hx : n.id = x
    · simp [hx, h]
    · simp [hx]

theorem contains_removeNode {c : ClassNode} (hn : g.node? id = some (.class_ c)) :
    (g.removeNode id).contains x = true ↔ g.contains x = true ∧ x ≠ id := by
  rw [contains_iff_node?, contains_iff_node?, node?_removeNode hn]
  by_cases hx : x = id <;> simp [hx]

/-- Members belong to known classes, and edges start at known nodes. -/
structure Grounded (g : Graph) : Prop where
  wellFormed : g.WellFormed
  owner : ∀ id m, g.member? id = some m →
    ∃ c, g.class? id.className = some c ∧ c.origin ≠ .unresolved
  sources : ∀ e ∈ g.edges, g.core e.source ≠ none

theorem core_of_isOrphan (ho : g.isOrphan id = true) : g.core id = none := by
  obtain ⟨c, hn, hun, _⟩ := isOrphan_iff.mp ho
  refine core_eq_none_iff.mpr fun n hn' => ?_
  rw [Option.some.inj (hn'.symm.trans hn)]
  exact decide_eq_true hun

theorem sameCore_removeOrphan (ho : g.isOrphan id = true) :
    SameCore g (g.removeNode id).discardWarning := by
  intro x
  obtain ⟨c, hn, _⟩ := isOrphan_iff.mp ho
  have hnode : (g.removeNode id).discardWarning.node? x = if x = id then none else g.node? x :=
    node?_removeNode hn
  rw [core, core, hnode]
  split
  next hx => exact hx ▸ core_of_isOrphan ho
  next => rfl

/-- An orphan has no edges at all. -/
theorem Grounded.edges_removeOrphan (hg : g.Grounded) (ho : g.isOrphan id = true) :
    (g.removeNode id).edges = g.edges := by
  obtain ⟨c, hn, _, hin⟩ := isOrphan_iff.mp ho
  rw [(removeNode_class hn).2, List.filter_eq_self]
  intro e he
  have hsource : e.source ≠ id := fun heq => hg.sources e he (heq ▸ core_of_isOrphan ho)
  simp [hsource, hin e he]

theorem Grounded.removeOrphan (hg : g.Grounded) (ho : g.isOrphan id = true) :
    (g.removeNode id).discardWarning.Grounded := by
  have hedges := hg.edges_removeOrphan ho
  have hcore := sameCore_removeOrphan ho
  obtain ⟨c, hn, hun, hin⟩ := isOrphan_iff.mp ho
  have hcontains : ∀ x, (g.removeNode id).discardWarning.contains x = true ↔
      g.contains x = true ∧ x ≠ id := fun x => contains_removeNode hn
  -- The owner of a member is known, so it is not the orphan.
  have howner : ∀ x m, g.member? x = some m → NodeId.class_ x.className ≠ id := by
    intro x m hm heq
    obtain ⟨k, hk, hor⟩ := hg.owner x m hm
    have := (class?_eq_some hk).1
    rw [heq, hn] at this
    cases this
    exact hor hun
  have hsources : ∀ e ∈ (g.removeNode id).edges, g.core e.source ≠ none :=
    fun e he => hg.sources e (hedges ▸ he)
  refine ⟨⟨?_, hedges ▸ hg.wellFormed.unique, fun e he => ?_, fun m hm => ?_⟩,
    hcore.owner hg.owner, fun e he => hcore e.source ▸ hsources e he⟩
  · show ((g.removeNode id).nodes.map Node.id).Nodup
    rw [(removeNode_class hn).1]
    exact hg.wellFormed.distinct.sublist (List.filter_sublist.map _)
  · have hmem : e ∈ g.edges := hedges ▸ he
    obtain ⟨hs, ht⟩ := hg.wellFormed.ends e hmem
    have hne : e.source ≠ id := fun heq => hsources e he (heq ▸ core_of_isOrphan ho)
    exact ⟨(hcontains _).mpr ⟨hs, hne⟩, (hcontains _).mpr ⟨ht, hin e hmem⟩⟩
  · have hmem : Node.member m ∈ g.nodes := by
      have hm' : Node.member m ∈ (g.removeNode id).nodes := hm
      rw [(removeNode_class hn).1] at hm'
      exact List.mem_of_mem_filter hm'
    obtain ⟨hclass, hcon⟩ := hg.wellFormed.owned m hmem
    exact ⟨hclass, (hcontains _).mpr
      ⟨hcon, howner _ m (member?_of_node? (hg.wellFormed.node?_of_mem hmem))⟩⟩

theorem Grounded.relink (hg : g.Grounded) (hu : ∀ id ∈ u.nodeIds, g.core id ≠ none) :
    (g.relink platform u).Grounded where
  wellFormed := hg.wellFormed.cleared.applyLinks
  owner := sameCore_relink.owner hg.owner
  sources e he := by
    rw [← sameCore_relink e.source]
    rcases of_mem_relink he with he | hs
    · exact hg.sources e he
    · exact hu e.source hs

/-- The nodes that are dropped were stand-ins without edges. -/
theorem Grounded.dropOrphans (hg : g.Grounded) (candidates : List NodeId) :
    (g.dropOrphans candidates).1.Grounded ∧
      (g.dropOrphans candidates).1.edges = g.edges ∧
      SameCore g (g.dropOrphans candidates).1 ∧
      ∀ x, (g.dropOrphans candidates).1.node? x =
        if x ∈ (g.dropOrphans candidates).2 then none else g.node? x := by
  induction candidates generalizing g with
  | nil => exact ⟨hg, rfl, fun _ => rfl, fun x => by simp [Graph.dropOrphans]⟩
  | cons id candidates ih =>
    rw [Graph.dropOrphans]
    split
    next ho =>
      obtain ⟨c, hn, _⟩ := isOrphan_iff.mp ho
      obtain ⟨hgrounded, hedges, hcore, hnode⟩ := ih (hg.removeOrphan ho)
      refine ⟨hgrounded, hedges.trans (hg.edges_removeOrphan ho),
        (sameCore_removeOrphan ho).trans hcore, fun x => ?_⟩
      have hremove : (g.removeNode id).discardWarning.node? x = if x = id then none else g.node? x :=
        node?_removeNode hn
      rw [hnode, hremove]
      by_cases hx : x = id <;> simp [hx]
    next => exact ih hg

theorem Grounded.contains_dropOrphans (hg : g.Grounded) (candidates : List NodeId) (x : NodeId) :
    (g.dropOrphans candidates).1.contains x = true ↔
      g.contains x = true ∧ x ∉ (g.dropOrphans candidates).2 := by
  rw [contains_iff_node?, contains_iff_node?, (hg.dropOrphans candidates).2.2.2]
  by_cases hx : x ∈ (g.dropOrphans candidates).2 <;> simp [hx]

end Graph

namespace Program

open Graph

variable {p : Program} {g : Graph} {id x : NodeId}

theorem Linked.grounded (hl : p.Linked g) : g.Grounded :=
  ⟨hl.wellFormed, hl.tame.owner, fun e he => by
    obtain ⟨u, hu, hid⟩ := hl.sources e he
    exact hl.core_of_roster hu hid⟩

/-- With stand-ins nothing goes that the graph stands for. -/
theorem Linked.dropOrphans (hl : p.Linked g) (candidates : List NodeId) :
    p.Linked (g.dropOrphans candidates).1 ∧
      (g.dropOrphans candidates).1.edges = g.edges ∧
      ∀ x, (g.dropOrphans candidates).1.contains x = true ↔
        g.contains x = true ∧ x ∉ (g.dropOrphans candidates).2 := by
  obtain ⟨hgrounded, hedges, hcore, hnode⟩ := hl.grounded.dropOrphans candidates
  refine ⟨⟨hgrounded.wellFormed, ⟨fun x n hx hun => ?_, hgrounded.owner⟩, hl.core.trans hcore,
    ?_, ?_, ?_⟩, hedges, hl.grounded.contains_dropOrphans candidates⟩
  · rw [hnode] at hx
    split at hx
    · cases hx
    · exact hl.tame.standIn x n hx hun
  · show List.filter _ _ = _
    rw [hedges]
    exact hl.ladder
  · rw [hedges]
    exact hl.edges
  · rw [hedges]
    exact hl.sources

end Program

end Winnow
