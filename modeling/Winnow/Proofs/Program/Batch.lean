import Winnow.Proofs.Program.Relink
import Winnow.Proofs.SearchOrder

/-!
# Linking a batch of units again

Linking units again touches their body edges and signatures, and brings at most
stand-ins for classes that are not known. What is recorded on the way is the net
difference: each edge that went and each that came, once. A graph that stands for
a program stands for the edited program when a batch of edits is linked and the
orphans are gone.
-/
namespace Winnow

namespace EdgeDelta

theorem empty_append (d : EdgeDelta) : ({} : EdgeDelta) ++ d = d := rfl

theorem append_empty (d : EdgeDelta) : d ++ ({} : EdgeDelta) = d := by
  show EdgeDelta.mk (d.removed ++ []) (d.added ++ []) (d.dropped ++ []) = d
  simp only [List.append_nil]

theorem append_assoc (a b c : EdgeDelta) : a ++ b ++ c = a ++ (b ++ c) := by
  show EdgeDelta.mk _ _ _ = EdgeDelta.mk _ _ _
  congr 1 <;> exact List.append_assoc _ _ _

end EdgeDelta

namespace Graph

variable {g g' g'' : Graph} {platform : Platform} {u : CompiledUnit} {batch : List CompiledUnit}
  {e : Edge} {id : NodeId} {d d' : EdgeDelta}

section Growth

/-- New nodes come last and new edges first. -/
structure Grows (g g' : Graph) : Prop where
  nodes : g.nodes <+: g'.nodes
  edges : g.edges <:+ g'.edges

theorem Grows.refl (g : Graph) : Grows g g := ⟨List.prefix_rfl, List.suffix_rfl⟩

theorem Grows.trans (h : Grows g g') (h' : Grows g' g'') : Grows g g'' :=
  ⟨h.nodes.trans h'.nodes, h.edges.trans h'.edges⟩

theorem grows_addEdge : Grows g (g.addEdge e) := by
  unfold addEdge
  split
  · exact ⟨List.prefix_rfl, List.suffix_cons e g.edges⟩
  · exact .refl g

theorem grows_addEdges {edges : List Edge} : Grows g (g.addEdges edges) := by
  induction edges generalizing g with
  | nil => exact .refl g
  | cons e edges ih => exact grows_addEdge.trans ih

theorem grows_provide {name : String} : Grows g (g.provide platform name) := by
  refine ⟨?_, edges_provide ▸ List.suffix_rfl⟩
  have hensure : ∀ (h : Graph) (origin : Origin), h.nodes <+: (h.ensureClass name origin).nodes := by
    intro h origin
    unfold ensureClass
    split
    next => exact List.prefix_rfl
    next hout =>
      have hid : (Node.class_ (ClassNode.placeholder name origin)).id = .class_ name := rfl
      rw [addClass, insert, hid, if_neg hout]
      exact List.prefix_append _ _
  unfold provide
  split
  · exact List.prefix_rfl
  · split
    · exact hensure g .library
    · exact hensure g.recordWarning .unresolved

theorem grows_recordMissing : Grows g (g.recordMissing id) :=
  ⟨nodes_recordMissing ▸ List.prefix_rfl, edges_recordMissing ▸ List.suffix_rfl⟩

theorem Applied.grows {l : Link} {fresh : List Edge} (h : Applied platform g l g' fresh) :
    Grows g g' := by
  cases h with
  | absent => exact .refl g
  | mention => exact grows_provide.trans grows_addEdges
  | known => exact grows_addEdges
  | missing => exact grows_recordMissing

theorem grows_applyLinks {links : List Link} : Grows g (applyLinks platform g links) := by
  induction links generalizing g with
  | nil => exact .refl g
  | cons l links ih => exact applied_applyLink.grows.trans ih

end Growth

section Batch

theorem relinkAll_eq_settle : IncrementalRun.relinkAll platform g batch =
    (relinkBatch platform g batch).1.settle (relinkBatch platform g batch).2 := rfl

theorem relinkBatch_cons : relinkBatch platform g (u :: batch) =
    ((relinkBatch platform (g.relink platform u) batch).1,
      g.relinkDelta platform u ++ (relinkBatch platform (g.relink platform u) batch).2) := by
  have hfold : ∀ (batch : List CompiledUnit) (g : Graph) (d : EdgeDelta),
      batch.foldl (fun (r : Graph × EdgeDelta) u =>
        ((r.1.relinkBodies platform u).1, r.2 ++ (r.1.relinkBodies platform u).2)) (g, d) =
      ((relinkBatch platform g batch).1, d ++ (relinkBatch platform g batch).2) := by
    intro batch
    induction batch with
    | nil => exact fun g d => congrArg (Prod.mk g) d.append_empty.symm
    | cons u batch ih =>
      intro g d
      rw [relinkBatch, List.foldl_cons, List.foldl_cons, ih, ih, EdgeDelta.append_assoc,
        EdgeDelta.empty_append]
  rw [relinkBatch, List.foldl_cons, hfold, EdgeDelta.empty_append, fst_relinkBodies, relinkDelta]

/-- The edge comes from a body or signature of the batch. -/
def isBodyIn (batch : List CompiledUnit) (e : Edge) : Bool := batch.any (isBodyOf · e)

theorem exists_of_isBodyIn (h : isBodyIn batch e = true) :
    ∃ u ∈ batch, e.source.className = u.name := by
  obtain ⟨u, hu, hbody⟩ := List.any_eq_true.mp h
  rw [isBodyOf, Bool.and_eq_true, decide_eq_true_eq] at hbody
  exact ⟨u, hu, CompiledUnit.className_of_mem_nodeIds hbody.1⟩

/-- Two graphs differ at most in the bodies and signatures of a batch, and in stand-ins that only
the second has. -/
structure BodiesOnly (batch : List CompiledUnit) (g g' : Graph) : Prop where
  /-- All other edges are the same, in the same order. -/
  edges : g'.edges.filter (fun e => !isBodyIn batch e) = g.edges.filter fun e => !isBodyIn batch e
  /-- Nodes keep their places, and all that they say apart from signatures. -/
  places : g.nodes.map Node.bare <+: g'.nodes.map Node.bare
  others : ∀ id, g.contains id = true → (∀ u ∈ batch, id ∉ u.nodeIds) → g'.node? id = g.node? id
  fresh : ∀ n ∈ g'.nodes, g.contains n.id = false →
    ∃ name, n = .class_ (.placeholder name .unresolved)

theorem WellFormed.bodiesOnly_relink (hg : g.WellFormed) :
    BodiesOnly [u] g (g.relink platform u) := by
  have hgrows : Grows (g.cleared u) (g.relink platform u) := grows_applyLinks
  have hwf : (g.relink platform u).WellFormed := hg.cleared.applyLinks
  have hbody : ∀ e, isBodyIn [u] e = isBodyOf u e := fun e => Bool.or_false _
  refine ⟨?_, ?_, fun id hid hother => ?_, fun n hn hnew => ?_⟩
  · obtain ⟨fresh, hfresh⟩ := hgrows.edges
    have hdisjoint := List.nodup_append.mp (hfresh ▸ hwf.unique)
    have hempty : fresh.filter (fun e => !isBodyIn [u] e) = [] := by
      rw [List.filter_eq_nil_iff]
      intro e he
      have hkinds : ∀ l ∈ u.bodyLinks, l.Kinds (·.isBody = true) :=
        fun l hl => (CompiledUnit.lateral_of_mem_bodyLinks hl).2.2
      have hmem : e ∈ (g.relink platform u).edges := hfresh ▸ List.mem_append_left _ he
      rcases of_mem_applyLinks hkinds hmem with hold | ⟨hk, l, hl, hs⟩
      · exact absurd rfl (hdisjoint.2.2 e he e hold)
      · have hsource := (CompiledUnit.lateral_of_mem_bodyLinks hl).2.1
        rw [← hs] at hsource
        simp [hbody, isBodyOf, hk, hsource]
    rw [← hfresh, List.filter_append, hempty, List.nil_append, Graph.cleared,
      (resigned_setSignatures _ u).edges, (withoutBodies_spec g u).2, List.filter_filter]
    refine List.filter_congr fun e _ => ?_
    rw [hbody, Bool.and_self]
  · have hbare : g.nodes.map Node.bare = (g.cleared u).nodes.map Node.bare := sameBare_cleared
    rw [hbare]
    exact hgrows.nodes.map Node.bare
  · obtain ⟨n, hn⟩ := contains_iff_node?.mp hid
    rw [hn]
    refine relink_extension.retains id n ?_
    rw [node?_cleared (hother u List.mem_cons_self), hn]
  · have hnone : (g.cleared u).node? n.id = none := by
      rw [node?_eq_none_iff, sameBare_cleared.contains]
      exact hnew
    obtain ⟨name, rfl, hplatform⟩ :=
      relink_extension.introduced n.id n (hwf.node?_of_mem hn) hnone
    have hunknown : platform.recognizes name = false :=
      Bool.eq_false_iff.mpr fun h => Bool.false_ne_true (hplatform h)
    refine ⟨name, ?_⟩
    rw [standIn, hunknown]
    rfl

theorem BodiesOnly.refl (g : Graph) : BodiesOnly [] g g where
  edges := rfl
  places := List.prefix_rfl
  others _ _ _ := rfl
  fresh n hn hnew := by
    rw [contains_iff_mem.mpr (List.mem_map_of_mem hn)] at hnew
    cases hnew

theorem BodiesOnly.contains (h : BodiesOnly batch g g') (hid : g.contains id = true) :
    g'.contains id = true := by
  have hids := (h.places.map Node.id).subset
  simp only [List.map_map, Function.comp_def, Node.id_bare] at hids
  exact contains_iff_mem.mpr (hids (contains_iff_mem.mp hid))

/-- After the first unit come the others, which are all in the graph from the start. -/
theorem BodiesOnly.cons (h : BodiesOnly [u] g g') (h' : BodiesOnly batch g' g'')
    (hg : g''.WellFormed) (hb : ∀ v ∈ batch, ∀ id ∈ v.nodeIds, g.contains id = true) :
    BodiesOnly (u :: batch) g g'' where
  edges := by
    have hfirst : ∀ l : List Edge, l.filter (fun e => !isBodyIn (u :: batch) e) =
        (l.filter fun e => !isBodyIn [u] e).filter fun e => !isBodyIn batch e := by
      intro l
      rw [List.filter_filter]
      refine List.filter_congr fun e _ => ?_
      simp [isBodyIn, Bool.and_comm]
    have hlast : ∀ l : List Edge, l.filter (fun e => !isBodyIn (u :: batch) e) =
        (l.filter fun e => !isBodyIn batch e).filter fun e => !isBodyIn [u] e := by
      intro l
      rw [List.filter_filter]
      refine List.filter_congr fun e _ => ?_
      simp [isBodyIn]
    rw [hlast g''.edges, h'.edges, ← hlast, hfirst, h.edges, ← hfirst]
  places := h.places.trans h'.places
  others id hid hother := by
    rw [h'.others id (h.contains hid) fun v hv => hother v (List.mem_cons_of_mem u hv)]
    refine h.others id hid fun v hv => ?_
    rw [List.mem_singleton.mp hv]
    exact hother u List.mem_cons_self
  fresh n hn hnew := by
    cases hmid : g'.contains n.id with
    | false => exact h'.fresh n hn hmid
    | true =>
      -- The node came with the first unit, and is none of a later one.
      have hother : ∀ v ∈ batch, n.id ∉ v.nodeIds := by
        intro v hv hid
        rw [hb v hv n.id hid] at hnew
        cases hnew
      obtain ⟨k, hk⟩ := contains_iff_node?.mp hmid
      have hsame := h'.others n.id hmid hother
      rw [hg.node?_of_mem hn, hk] at hsame
      obtain rfl := Option.some.inj hsame
      exact h.fresh n (mem_of_node? hk) hnew

theorem BodiesOnly.mem_iff (h : BodiesOnly batch g g') (he : isBodyIn batch e = false) :
    e ∈ g'.edges ↔ e ∈ g.edges := by
  have hmem : ∀ k : Graph, e ∈ k.edges.filter (fun e => !isBodyIn batch e) ↔ e ∈ k.edges := by
    intro k
    rw [List.mem_filter, he]
    exact and_iff_left rfl
  rw [← hmem g', h.edges, hmem g]

theorem WellFormed.relinkBatch (hg : g.WellFormed) : (relinkBatch platform g batch).1.WellFormed := by
  induction batch generalizing g with
  | nil => exact hg
  | cons u batch ih =>
    rw [relinkBatch_cons]
    exact ih hg.cleared.applyLinks

theorem WellFormed.bodiesOnly_relinkBatch (hg : g.WellFormed) (platform : Platform)
    (hb : ∀ u ∈ batch, ∀ id ∈ u.nodeIds, g.contains id = true) :
    BodiesOnly batch g (Graph.relinkBatch platform g batch).1 := by
  induction batch generalizing g with
  | nil => exact .refl g
  | cons u batch ih =>
    have hstep : BodiesOnly [u] g (g.relink platform u) := hg.bodiesOnly_relink
    have hwf : (g.relink platform u).WellFormed := hg.cleared.applyLinks
    have hrest := fun v hv => hb v (List.mem_cons_of_mem u hv)
    rw [relinkBatch_cons]
    exact hstep.cons (ih hwf fun v hv id hid => hstep.contains (hrest v hv id hid)) hwf.relinkBatch
      hrest

end Batch

section Difference

/-- The difference lists the edges that went and those that came, each once. -/
structure IsNetDelta (g g' : Graph) (d : EdgeDelta) : Prop where
  nodup_removed : d.removed.Nodup
  nodup_added : d.added.Nodup
  mem_removed : ∀ e, e ∈ d.removed ↔ e ∈ g.edges ∧ e ∉ g'.edges
  mem_added : ∀ e, e ∈ d.added ↔ e ∈ g'.edges ∧ e ∉ g.edges
  dropped : d.dropped = []

/-- The two lists that relinking holds against each other give the difference: what linking reports
as new was not left in, so it is in the old graph only if it was taken out. -/
theorem WellFormed.isNetDelta_relink (hg : g.WellFormed) :
    IsNetDelta g (g.relink platform u) (g.relinkDelta platform u) := by
  have hwf : (g.relink platform u).WellFormed := hg.cleared.applyLinks
  obtain ⟨hfresh, _, hdisjoint⟩ := List.nodup_append.mp (edges_relink ▸ hwf.unique)
  refine ⟨(nodup_takeBodies hg.unique).filter _, (List.nodup_reverse.mp hfresh).filter _,
    fun e => mem_removed_relinkDelta, fun e => ?_, rfl⟩
  show e ∈ ((g.cleared u).linkAll platform u.bodyLinks).2.filter
    (· ∉ (g.takeBodies u.nodeIds).2) ↔ _
  rw [List.mem_filter, decide_eq_true_eq, mem_takeBodies, ← isBodyOf, edges_relink, List.mem_append,
    List.mem_reverse]
  constructor
  · rintro ⟨he, htaken⟩
    refine ⟨.inl he, fun hold => ?_⟩
    have hleft : e ∉ (g.cleared u).edges :=
      fun hleft => hdisjoint e (List.mem_reverse.mpr he) e hleft rfl
    rw [mem_cleared, ← Bool.not_eq_true] at hleft
    exact hleft ⟨hold, fun hbody => htaken ⟨hold, hbody⟩⟩
  · rintro ⟨he | he, hnew⟩
    · exact ⟨he, fun hold => hnew hold.1⟩
    · exact absurd (mem_cleared.mp he).1 hnew

/-- The edges of the first unit change with it alone, so no edge goes that came, or comes that
went. -/
theorem IsNetDelta.cons (hd : IsNetDelta g g' d) (hd' : IsNetDelta g' g'' d')
    (h : BodiesOnly [u] g g') (h' : BodiesOnly batch g' g'') (hu : u.name ∉ batch.map (·.name)) :
    IsNetDelta g g'' (d ++ d') := by
  have honce : ∀ e, (e ∈ g'.edges ↔ e ∈ g.edges) ∨ (e ∈ g''.edges ↔ e ∈ g'.edges) := by
    intro e
    cases hfirst : isBodyIn [u] e with
    | false => exact .inl (h.mem_iff hfirst)
    | true =>
      refine .inr (h'.mem_iff (Bool.eq_false_iff.mpr fun hlast => hu ?_))
      obtain ⟨v, hv, hname⟩ := exists_of_isBodyIn hlast
      obtain ⟨w, hw, hname'⟩ := exists_of_isBodyIn hfirst
      rw [← List.mem_singleton.mp hw, ← hname', hname]
      exact List.mem_map_of_mem hv
  refine ⟨?_, ?_, fun e => ?_, fun e => ?_, ?_⟩
  · refine List.nodup_append.mpr ⟨hd.nodup_removed, hd'.nodup_removed, fun e he k hk heq => ?_⟩
    exact ((hd.mem_removed e).mp he).2 (heq ▸ ((hd'.mem_removed k).mp hk).1)
  · refine List.nodup_append.mpr ⟨hd.nodup_added, hd'.nodup_added, fun e he k hk heq => ?_⟩
    exact ((hd'.mem_added k).mp hk).2 (heq ▸ ((hd.mem_added e).mp he).1)
  · have hmem : e ∈ (d ++ d').removed ↔ e ∈ d.removed ∨ e ∈ d'.removed := List.mem_append
    rw [hmem, hd.mem_removed, hd'.mem_removed]
    grind
  · have hmem : e ∈ (d ++ d').added ↔ e ∈ d.added ∨ e ∈ d'.added := List.mem_append
    rw [hmem, hd.mem_added, hd'.mem_added]
    grind
  · show d.dropped ++ d'.dropped = []
    rw [hd.dropped, hd'.dropped]
    rfl

theorem WellFormed.isNetDelta_relinkBatch (hg : g.WellFormed) (platform : Platform)
    (hb : ∀ u ∈ batch, ∀ id ∈ u.nodeIds, g.contains id = true)
    (hnames : (batch.map (·.name)).Nodup) :
    IsNetDelta g (Graph.relinkBatch platform g batch).1 (Graph.relinkBatch platform g batch).2 := by
  induction batch generalizing g with
  | nil => exact ⟨List.nodup_nil, List.nodup_nil, by simp [Graph.relinkBatch],
      by simp [Graph.relinkBatch], rfl⟩
  | cons u batch ih =>
    have hstep : BodiesOnly [u] g (g.relink platform u) := hg.bodiesOnly_relink
    have hwf : (g.relink platform u).WellFormed := hg.cleared.applyLinks
    have hrest : ∀ v ∈ batch, ∀ id ∈ v.nodeIds, (g.relink platform u).contains id = true :=
      fun v hv id hid => hstep.contains (hb v (List.mem_cons_of_mem u hv) id hid)
    rw [List.map_cons, List.nodup_cons] at hnames
    rw [relinkBatch_cons]
    exact hg.isNetDelta_relink.cons (ih hwf hrest hnames.2) hstep (hwf.bodiesOnly_relinkBatch platform hrest)
      hnames.1

end Difference

section Orphans

theorem nodes_dropOrphans (g : Graph) (candidates : List NodeId) :
    (g.dropOrphans candidates).1.nodes =
      g.nodes.filter fun n => n.id ∉ (g.dropOrphans candidates).2 := by
  induction candidates generalizing g with
  | nil => simp [dropOrphans]
  | cons id candidates ih =>
    rw [dropOrphans]
    split
    next ho =>
      obtain ⟨c, hn, _⟩ := isOrphan_iff.mp ho
      have hnodes : (g.removeNode id).discardWarning.nodes = g.nodes.filter (·.id ≠ id) :=
        (removeNode_class hn).1
      dsimp only
      rw [ih, hnodes, List.filter_filter]
      refine List.filter_congr fun n _ => ?_
      simp [Bool.and_comm]
    next => exact ih g

/-- Dropping one orphan makes no other. -/
theorem Grounded.dropped_eq (hg : g.Grounded) {candidates : List NodeId} (hc : candidates.Nodup) :
    (g.dropOrphans candidates).2 = candidates.filter g.isOrphan := by
  induction candidates generalizing g with
  | nil => rfl
  | cons x candidates ih =>
    rw [List.nodup_cons] at hc
    rw [Graph.dropOrphans]
    split
    next ho =>
      obtain ⟨c, hn, _⟩ := isOrphan_iff.mp ho
      dsimp only
      rw [ih (hg.removeOrphan ho) hc.2, List.filter_cons_of_pos ho]
      congr 1
      refine List.filter_congr fun y hy => ?_
      have hne : y ≠ x := fun heq => hc.1 (heq ▸ hy)
      have hnode : (g.removeNode x).discardWarning.node? y = g.node? y :=
        (node?_removeNode hn).trans (if_neg hne)
      have hedges : (g.removeNode x).discardWarning.edges = g.edges := hg.edges_removeOrphan ho
      rw [isOrphan, isOrphan, hnode, incoming, incoming, hedges]
    next ho => rw [ih hg hc.2, List.filter_cons_of_neg ho]

theorem dropped_settle (hd : d.dropped = []) : (g.settle d).2.dropped =
    (g.dropOrphans ((g.nodes.map Node.id).filter (· ∈ d.removed.map (·.target)))).2 := by
  show d.dropped ++ _ = _
  rw [hd, List.nil_append]

theorem nodes_settle (hd : d.dropped = []) :
    (g.settle d).1.nodes = g.nodes.filter fun n => n.id ∉ (g.settle d).2.dropped := by
  simp only [dropped_settle hd]
  exact nodes_dropOrphans _ _

theorem Grounded.relinkBatch (hg : g.Grounded)
    (hb : ∀ u ∈ batch, ∀ id ∈ u.nodeIds, g.core id ≠ none) :
    (Graph.relinkBatch platform g batch).1.Grounded := by
  induction batch generalizing g with
  | nil => exact hg
  | cons u batch ih =>
    rw [relinkBatch_cons]
    refine ih (hg.relink (hb u List.mem_cons_self)) fun v hv id hid => ?_
    rw [← sameCore_relink id]
    exact hb v (List.mem_cons_of_mem u hv) id hid

end Orphans

section Changes

/-- The recorded difference covers every edge and every node that came or went. -/
structure Changes (g g' : Graph) (delta : EdgeDelta) : Prop where
  lost : ∀ e ∈ g.edges, e ∉ g'.edges → e ∈ delta.removed
  gained : ∀ e ∈ g'.edges, e ∉ g.edges → e ∈ delta.added
  /-- No edge is recorded as new that went again. -/
  present : ∀ e ∈ delta.added, e ∈ g'.edges
  retained : ∀ id, g.contains id = true → id ∉ delta.dropped → g'.contains id = true
  gone : ∀ id ∈ delta.dropped, g'.contains id = false

theorem Changes.not_dropped (hc : Changes g g' d) (hid : g'.contains id = true) :
    id ∉ d.dropped := by
  intro hmem
  rw [hc.gone id hmem] at hid
  cases hid

/-- With the orphans the net difference of the edges is all that changed. -/
theorem Grounded.changes_settle (hg : g'.Grounded) (hd : IsNetDelta g g' d)
    (hkept : ∀ id, g.contains id = true → g'.contains id = true) :
    Changes g (g'.settle d).1 (g'.settle d).2 := by
  have hedges : (g'.settle d).1.edges = g'.edges := (hg.dropOrphans _).2.1
  have hcontains : ∀ id, (g'.settle d).1.contains id = true ↔
      g'.contains id = true ∧ id ∉ (g'.settle d).2.dropped := by
    intro id
    rw [dropped_settle hd.dropped]
    exact hg.contains_dropOrphans _ id
  refine ⟨fun e he hgone => ?_, fun e he hnew => ?_, fun e he => ?_, fun id hid hstays => ?_,
    fun id hid => ?_⟩
  · exact (hd.mem_removed e).mpr ⟨he, fun he' => hgone (hedges ▸ he')⟩
  · exact (hd.mem_added e).mpr ⟨hedges ▸ he, hnew⟩
  · exact hedges ▸ ((hd.mem_added e).mp he).1
  · exact (hcontains id).mpr ⟨hkept id hid, hstays⟩
  · rw [← Bool.not_eq_true, hcontains]
    exact fun h => h.2 hid

end Changes

end Graph

namespace Program

open Graph IncrementalRun

variable {p : Program} {g : Graph} {batch : List CompiledUnit}

/-- Units are linked again one after the other, and the graph follows the edits. -/
theorem Linked.relinkBatch (hp : p.Admissible) (hl : p.Linked g)
    (hb : ∀ u ∈ batch, ∃ s ∈ p.units, s.unit.outline = u.outline) :
    (p.edit batch).Linked (relinkBatch p.platform g batch).1 := by
  induction batch generalizing p g with
  | nil => exact hl
  | cons u batch ih =>
    have hu := hb u List.mem_cons_self
    have hout := outline_replace hp hu
    rw [relinkBatch_cons]
    refine ih (hp.of_outline_eq hout.symm) (hl.relink hp hu) fun v hv => ?_
    obtain ⟨s, hs, heq⟩ := hb v (List.mem_cons_of_mem u hv)
    obtain ⟨t, ht, heq'⟩ := exists_unit_of_outline_eq hout.symm hs
    exact ⟨t, ht, heq'.trans heq⟩

/-- After a batch of edits the graph stands for the edited program, and the difference says how
it came about. -/
theorem Linked.relinkAll (hp : p.Admissible) (hl : p.Linked g) (hb : p.IsEdit batch) :
    (p.edit batch).Linked (relinkAll p.platform g batch).1 ∧
      Changes g (relinkAll p.platform g batch).1 (relinkAll p.platform g batch).2 := by
  have hmembers : ∀ u ∈ batch, ∀ id ∈ u.nodeIds, g.contains id = true := by
    intro u hu id hid
    obtain ⟨s, hs, heq⟩ := hb.outline u hu
    rw [← CompiledUnit.nodeIds_outline, ← heq, CompiledUnit.nodeIds_outline] at hid
    obtain ⟨n, hn⟩ := core_skeleton (unit_mem_roster hs) hid
    exact hl.core.contains_of_core hn
  have hlinked := hl.relinkBatch hp hb.outline
  have hnet := hl.wellFormed.isNetDelta_relinkBatch p.platform hmembers hb.distinct
  have hbodies := hl.wellFormed.bodiesOnly_relinkBatch p.platform hmembers
  rw [relinkAll_eq_settle]
  exact ⟨(hlinked.dropOrphans _).1,
    hlinked.grounded.changes_settle hnet fun _ => hbodies.contains⟩

end Program

end Winnow
