import Winnow.Proofs.Incremental.Placeholders

/-!
# What linking a batch again changes

A graph comes from a build, and after that batches of units are linked into it
again. Each batch changes the bodies and signatures of its units only. What is
recorded is the net difference, and the stand-ins that are dropped afterwards are
those that the last edge was taken from.
-/
namespace Winnow

namespace Graph

variable {g g' : Graph} {u : CompiledUnit} {batch : List CompiledUnit} {id : NodeId} {d : EdgeDelta}

/-- What is dropped once a batch is linked lost its last edge. -/
theorem Grounded.mem_dropped_settle (hg : g'.Grounded) (hd : IsNetDelta g g' d) :
    (g'.settle d).2.dropped.Nodup ∧ ∀ id, id ∈ (g'.settle d).2.dropped ↔
      g'.StandsIn id ∧ (∃ e ∈ g.edges, e.target = id) ∧ ∀ e ∈ g'.edges, e.target ≠ id := by
  have hnodup : ((g'.nodes.map Node.id).filter (· ∈ d.removed.map (·.target))).Nodup :=
    hg.wellFormed.distinct.filter _
  rw [dropped_settle hd.dropped, hg.dropped_eq hnodup]
  refine ⟨hnodup.filter _, fun id => ?_⟩
  rw [List.mem_filter, List.mem_filter, ← contains_iff_mem, decide_eq_true_eq, List.mem_map,
    isOrphan_iff_standsIn]
  constructor
  · rintro ⟨⟨_, e, he, ht⟩, hstands, hlast⟩
    exact ⟨hstands, ⟨e, ((hd.mem_removed e).mp he).1, ht⟩, hlast⟩
  · rintro ⟨hstands, ⟨e, he, ht⟩, hlast⟩
    exact ⟨⟨hstands.1, e, (hd.mem_removed e).mpr ⟨he, fun he' => hlast e he' ht⟩, ht⟩, hstands, hlast⟩

/-- Units of classes of the program that the graph has with their members, at most one of a name. -/
structure IsBatch (g : Graph) (batch : List CompiledUnit) : Prop where
  distinct : (batch.map (·.name)).Nodup
  program : ∀ u ∈ batch, ∃ c, g.class? u.name = some c ∧ c.isProgram = true
  members : ∀ u ∈ batch, ∀ id ∈ u.nodeIds, g.contains id = true

/-- The graphs that come from a build by linking batches again, with or without dropping the
orphans that these leave. -/
inductive Evolved : Graph → Prop
  | build {p : Program} {g : Graph} : p.Gathered → p.build = .ok g → Evolved g
  | batch {g : Graph} {batch : List CompiledUnit} (platform : Platform) : Evolved g →
      g.IsBatch batch → Evolved (relinkBatch platform g batch).1
  | settled {g : Graph} {batch : List CompiledUnit} (platform : Platform) : Evolved g →
      g.IsBatch batch → Evolved (IncrementalRun.relinkAll platform g batch).1

theorem IsBatch.core (hb : g.IsBatch batch) (hu : u ∈ batch) (hid : id ∈ u.nodeIds) :
    g.core id ≠ none := by
  rw [Ne, core_eq_none_iff]
  intro hnone
  obtain ⟨n, hn⟩ := contains_iff_node?.mp (hb.members u hu id hid)
  have hun := hnone n hn
  cases n with
  | member m => cases hun
  | class_ c =>
    obtain ⟨k, hk, hprogram⟩ := hb.program u hu
    have hname : c.name = u.name := by
      rw [← CompiledUnit.className_of_mem_nodeIds hid, ← id_of_node? hn]
      rfl
    rw [← id_of_node? hn] at hn
    obtain rfl : c = k := Option.some.inj ((class?_of_node? hn).symm.trans (hname ▸ hk))
    rw [ClassNode.isProgram, of_decide_eq_true hun] at hprogram
    cases hprogram

theorem Evolved.grounded (h : Evolved g) : g.Grounded := by
  induction h with
  | build hp hb => exact (Program.linked_of_build hb).grounded
  | batch platform _ hb ih => exact ih.relinkBatch fun u hu id hid => hb.core hu hid
  | settled platform _ hb ih =>
    rw [relinkAll_eq_settle]
    exact ((ih.relinkBatch fun u hu id hid => hb.core hu hid).dropOrphans _).1

/-- Linking a batch again changes bodies and signatures only and records the net difference. Then
the stand-ins go that lost their last edge, and no edge. -/
theorem relinkBatch_net_delta (hg : Evolved g) (hb : g.IsBatch batch) (platform : Platform) :
    let r := relinkBatch platform g batch
    let t := r.1.settle r.2
    BodiesOnly batch g r.1 ∧ IsNetDelta g r.1 r.2 ∧
      t.1.edges = r.1.edges ∧ t.1.nodes = r.1.nodes.filter (fun n => n.id ∉ t.2.dropped) ∧
      t.2.dropped.Nodup ∧
      (∀ id, id ∈ t.2.dropped ↔
        (∃ c, r.1.node? id = some (.class_ c) ∧ c.origin = .unresolved) ∧
        (∃ e ∈ g.edges, e.target = id) ∧ ∀ e ∈ r.1.edges, e.target ≠ id) ∧
      t.2.removed = r.2.removed ∧ t.2.added = r.2.added := by
  have hwf := hg.grounded.wellFormed
  have hground : (relinkBatch platform g batch).1.Grounded :=
    hg.grounded.relinkBatch fun u hu id hid => hb.core hu hid
  have hnet := hwf.isNetDelta_relinkBatch platform hb.members hb.distinct
  obtain ⟨hnodup, hdropped⟩ := hground.mem_dropped_settle hnet
  simp only [standsIn_iff] at hdropped
  exact ⟨hwf.bodiesOnly_relinkBatch platform hb.members, hnet, (hground.dropOrphans _).2.1,
    nodes_settle hnet.dropped, hnodup, hdropped, rfl, rfl⟩

section Farewell

open Program

/-- Units after which no one mentions the unknown class. -/
def farewell : List CompiledUnit := [remnantUser false, CompiledUnit.blank "a/Typed"]

def remnantGraph : Graph := (remnant true).complete (remnant true).skeleton

def remnantUse : Edge :=
  ⟨.method ⟨"a/User", "use", "()V"⟩, .class_ "x/Gone", .uses .instantiate⟩

theorem facts_farewell :
    (∀ u ∈ farewell, (remnantGraph.class? u.name).any (·.isProgram) = true ∧
      ∀ id ∈ u.nodeIds, remnantGraph.contains id = true) ∧
    remnantUse ∈ remnantGraph.edges ∧
    ((relinkBatch {} remnantGraph farewell).1.class? "x/Gone").any (·.origin = .unresolved) = true ∧
    ∀ e ∈ (relinkBatch {} remnantGraph farewell).1.edges, e.target ≠ .class_ "x/Gone" := by
  decide +kernel

theorem evolved_remnantGraph : Evolved remnantGraph :=
  .build (gathered_remnant true) (build_remnant true)

theorem isBatch_farewell : remnantGraph.IsBatch farewell where
  distinct := by decide
  program u hu := (Option.any_eq_true _ _).mp (facts_farewell.1 u hu).1
  members u hu := (facts_farewell.1 u hu).2

/-- The use of the unknown class is recorded, and its stand-in is dropped. -/
theorem relinkBatch_net_delta_farewell :
    Evolved remnantGraph ∧ remnantGraph.IsBatch farewell ∧
      remnantUse ∈ (relinkBatch {} remnantGraph farewell).2.removed ∧
      .class_ "x/Gone" ∈ (IncrementalRun.relinkAll {} remnantGraph farewell).2.dropped := by
  obtain ⟨_, huse, hclass, hlast⟩ := facts_farewell
  obtain ⟨_, hnet, _, _, _, hdropped, _⟩ :=
    relinkBatch_net_delta evolved_remnantGraph isBatch_farewell {}
  obtain ⟨c, hc, horigin⟩ := (Option.any_eq_true _ _).mp hclass
  refine ⟨evolved_remnantGraph, isBatch_farewell,
    (hnet.mem_removed _).mpr ⟨huse, fun he => hlast _ he rfl⟩, (hdropped _).mpr ⟨?_, ?_, hlast⟩⟩
  · exact ⟨c, (class?_eq_some hc).1, of_decide_eq_true horigin⟩
  · exact ⟨remnantUse, huse, rfl⟩

end Farewell

end Graph

end Winnow
