import Mathlib.Algebra.BigOperators.Group.List.Basic
import Mathlib.Algebra.GroupWithZero.Nat
import Mathlib.Data.List.Count
import Winnow.Proofs.Program.Relink

/-!
# What a graph counts

A graph warns once of every class that is mentioned and not known, and counts for
every member the references of its body that lead nowhere. Both counts are kept by
linking, by linking again and by dropping stand-ins, so they can be told from the
program at any time.
-/
namespace Winnow

/-- A count that is entered only if it is not zero. -/
def tally (n : Nat) : Option Nat := if n = 0 then none else some n

namespace Graph

variable {g g' S : Graph} {platform : Platform} {id : NodeId} {l : Link} {links : List Link}
  {fresh : List Edge}
  {f : NodeId → Nat} {u : CompiledUnit}

/-- There is one warning for every class that is mentioned and not known. -/
def Warned (g : Graph) : Prop := g.classWarnings = g.nodes.countP Marking.isUnresolved

/-- The references that lead nowhere are counted as `f` says. -/
def Records (g : Graph) (f : NodeId → Nat) : Prop := ∀ id, g.missingRefs.get? id = tally (f id)

section Frames

@[simp] theorem classWarnings_addEdge {e : Edge} : (g.addEdge e).classWarnings = g.classWarnings := by
  unfold addEdge
  split <;> rfl

@[simp] theorem missingRefs_addEdge {e : Edge} : (g.addEdge e).missingRefs = g.missingRefs := by
  unfold addEdge
  split <;> rfl

@[simp] theorem classWarnings_addEdges {edges : List Edge} :
    (g.addEdges edges).classWarnings = g.classWarnings :=
  List.foldlRecOn (motive := fun r : Graph => r.classWarnings = g.classWarnings) _ _ rfl
    fun _ h _ _ => classWarnings_addEdge.trans h

@[simp] theorem missingRefs_addEdges {edges : List Edge} :
    (g.addEdges edges).missingRefs = g.missingRefs :=
  List.foldlRecOn (motive := fun r : Graph => r.missingRefs = g.missingRefs) _ _ rfl
    fun _ h _ _ => missingRefs_addEdge.trans h

@[simp] theorem classWarnings_recordMissing : (g.recordMissing id).classWarnings = g.classWarnings := by
  unfold recordMissing
  split <;> rfl

@[simp] theorem missingRefs_insert {n : Node} : (g.insert n).missingRefs = g.missingRefs := by
  unfold insert
  split <;> rfl

@[simp] theorem classWarnings_insert {n : Node} : (g.insert n).classWarnings = g.classWarnings := by
  unfold insert
  split <;> rfl

@[simp] theorem missingRefs_provide {name : String} :
    (g.provide platform name).missingRefs = g.missingRefs := by
  unfold provide ensureClass
  split
  next => rfl
  next =>
    split
    · simp [addClass]
    · split <;> simp [addClass, recordWarning]

end Frames

theorem Warned.of_eq (hg : g.Warned) (hn : g'.nodes = g.nodes)
    (hw : g'.classWarnings = g.classWarnings) : g'.Warned := by
  rw [Warned, hn, hw]
  exact hg

theorem Warned.provide (hg : g.Warned) {name : String} : (g.provide platform name).Warned := by
  unfold Graph.provide
  split
  next => exact hg
  next hout =>
    have hnew : ∀ (h : Graph) (origin : Origin), h.nodes = g.nodes →
        (h.ensureClass name origin).nodes = g.nodes ++ [.class_ (.placeholder name origin)] ∧
          (h.ensureClass name origin).classWarnings = h.classWarnings := by
      intro h origin hn
      have hcontains : h.contains (.class_ name) = false := by
        rw [contains, hn]
        simpa [contains] using hout
      have hid : (Node.class_ (ClassNode.placeholder name origin)).id = .class_ name := rfl
      simp [ensureClass, addClass, insert, hcontains, hid, hn]
    split
    next =>
      obtain ⟨hn, hw⟩ := hnew g .library rfl
      rw [Warned, hn, hw, List.countP_append, hg]
      rfl
    next =>
      obtain ⟨hn, hw⟩ := hnew g.recordWarning .unresolved rfl
      rw [Warned, hn, hw, List.countP_append]
      exact congrArg (· + 1) hg

theorem Applied.warned (h : Applied platform g l g' fresh) (hg : g.Warned) : g'.Warned := by
  cases h with
  | absent => exact hg
  | mention => exact hg.provide.of_eq nodes_addEdges classWarnings_addEdges
  | known => exact hg.of_eq nodes_addEdges classWarnings_addEdges
  | missing => exact hg.of_eq nodes_recordMissing classWarnings_recordMissing

theorem Warned.applyLinks (hg : g.Warned) : (applyLinks platform g links).Warned :=
  List.foldlRecOn _ _ hg fun _ h _ _ => applied_applyLink.warned h

theorem Records.recordMissing (hg : g.Records f) (hid : g.contains id = true) :
    (g.recordMissing id).Records fun x => f x + if id = x then 1 else 0 := by
  intro x
  rw [Graph.recordMissing, if_pos hid]
  show (g.missingRefs.insert id ((g.missingRefs.get? id).getD 0 + 1)).get? x =
    tally (f x + if id = x then 1 else 0)
  rw [SortedMap.get?_insert]
  by_cases hx : x = id
  · subst hx
    rw [if_pos rfl, if_pos rfl, hg x]
    by_cases hzero : f x = 0 <;> simp [tally, hzero]
  · rw [if_neg hx, if_neg (Ne.symm hx), hg x, Nat.add_zero]

/-- Only a reference that leads nowhere is counted. -/
theorem Applied.missingRefs (h : Applied platform g l g' fresh) (hfound : l.isMissing g = false) :
    g'.missingRefs = g.missingRefs := by
  cases h with
  | absent => rfl
  | mention => rw [missingRefs_addEdges, missingRefs_provide]
  | known => exact missingRefs_addEdges
  | missing _ hmissing => cases hfound.symm.trans hmissing

/-- A link that leads nowhere is counted at its source. -/
theorem Applied.records (h : Applied platform g l g' fresh) (hg : g.Records f)
    (hs : g.contains l.source = true) :
    g'.Records fun id => f id + if l.source = id ∧ l.isMissing g = true then 1 else 0 := by
  cases hmissing : l.isMissing g with
  | false =>
    intro id
    simpa [h.missingRefs hmissing] using hg id
  | true =>
    cases h with
    | absent hout => cases hs.symm.trans hout
    | mention _ _ hfound | known _ _ hfound => cases hmissing.symm.trans hfound
    | missing =>
      simp only [and_true]
      exact hg.recordMissing hs

/-- What leads nowhere is the same in graphs with the same core. -/
theorem SameCore.isMissing (h : SameCore S g) (hS : S.Tame platform) (hg : g.Tame platform) (l : Link) :
    l.isMissing S = l.isMissing g := by
  cases l <;> simp only [Link.isMissing, h.resolve hS hg]

/-- The links of a list that start at a node and lead nowhere. -/
def missesAt (S : Graph) (links : List Link) (id : NodeId) : Nat :=
  links.countP fun l => l.source = id && l.isMissing S

theorem SameCore.missesAt (h : SameCore S g) (hS : S.Tame platform) (hg : g.Tame platform) :
    S.missesAt = g.missesAt := by
  funext links id
  simp only [Graph.missesAt, h.isMissing hS hg]

theorem Records.applyLinks (hg : g.Records f) (h : SameCore S g) (hS : S.Tame platform)
    (ht : g.Tame platform) (hl : ∀ l ∈ links, l.Lateral)
    (hs : ∀ l ∈ links, g.contains l.source = true) :
    (applyLinks platform g links).Records fun id => f id + S.missesAt links id := by
  induction links generalizing g f with
  | nil => exact hg
  | cons l links ih =>
    have hext : Extension platform false g (Graph.applyLink platform g l) := by
      have hext : Extension platform l.inHierarchy g (Graph.applyLink platform g l) :=
        applyLink_extension
      rwa [(hl l List.mem_cons_self).outside] at hext
    have hrest := ih (applied_applyLink.records hg (hs l List.mem_cons_self)) (h.trans hext.sameCore) (ht.extend hext)
      (fun k hk => hl k (List.mem_cons_of_mem l hk))
      (fun k hk => hext.contains (hs k (List.mem_cons_of_mem l hk)))
    intro id
    refine (hrest id).trans (congrArg tally ?_)
    simp only [missesAt, List.countP_cons, Bool.and_eq_true, decide_eq_true_eq,
      h.isMissing hS ht]
    omega

section Cleared

theorem counts_setSignatures (g : Graph) (u : CompiledUnit) :
    (g.setSignatures u).classWarnings = g.classWarnings ∧
      (g.setSignatures u).missingRefs = g.missingRefs := by
  unfold setSignatures
  refine List.foldlRecOn (motive := fun r : Graph =>
    r.classWarnings = g.classWarnings ∧ r.missingRefs = g.missingRefs) _ _ ?_ fun _ h _ _ => h
  exact List.foldlRecOn (motive := fun r : Graph =>
    r.classWarnings = g.classWarnings ∧ r.missingRefs = g.missingRefs) _ _ ⟨rfl, rfl⟩ fun _ h _ _ => h

theorem classWarnings_withoutBodies (g : Graph) (u : CompiledUnit) :
    (g.withoutBodies u).classWarnings = g.classWarnings := by
  rw [withoutBodies_eq_foldl]
  exact List.foldlRecOn (motive := fun r : Graph => r.classWarnings = g.classWarnings) _ _ rfl
    fun _ h _ _ => h

theorem countP_isUnresolved_of_sameBare (h : SameBare g g') :
    g'.nodes.countP Marking.isUnresolved = g.nodes.countP Marking.isUnresolved := by
  have hcount : ∀ g : Graph, (g.nodes.map Node.bare).countP Marking.isUnresolved =
      g.nodes.countP Marking.isUnresolved := by
    intro g
    rw [List.countP_map]
    exact List.countP_congr fun n _ => by simp
  rw [← hcount, ← hcount, h]

theorem Warned.cleared (hg : g.Warned) : (g.cleared u).Warned := by
  rw [Warned, countP_isUnresolved_of_sameBare sameBare_cleared, Graph.cleared,
    (counts_setSignatures _ u).1, classWarnings_withoutBodies]
  exact hg

/-- What the bodies of the unit had missing is forgotten. -/
theorem Records.cleared (hg : g.Records f) :
    (g.cleared u).Records fun id => if id ∈ u.nodeIds then 0 else f id := by
  have hfold : ∀ (ids : List NodeId) (g : Graph) (f : NodeId → Nat), g.Records f →
      (g.takeBodies ids).1.Records fun x => if x ∈ ids then 0 else f x := by
    intro ids
    induction ids with
    | nil => exact fun g f hg x => by simp [takeBodies, hg x]
    | cons id ids ih =>
      intro g f hg
      have hstep : ((g.clearMissing id).removeEdgesFrom id EdgeKind.isBody).Records
          fun x => if x = id then 0 else f x := by
        intro x
        show (g.missingRefs.erase id).get? x = tally (if x = id then 0 else f x)
        rw [SortedMap.get?_erase, hg x]
        split <;> rfl
      intro x
      refine (ih _ _ hstep x).trans (congrArg tally ?_)
      by_cases hx : x = id <;> simp [hx]
  intro id
  rw [Graph.cleared, (counts_setSignatures _ u).2]
  exact hfold u.nodeIds g f hg id

end Cleared

section Orphans

variable {c : ClassNode}

theorem nodes_removeNode (hg : g.WellFormed) (hn : g.node? id = some (.class_ c)) :
    (g.removeNode id).nodes = g.nodes.erase (.class_ c) := by
  have hnodup : g.nodes.Nodup := List.Nodup.of_map _ hg.distinct
  rw [(removeNode_class hn).1, hnodup.erase_eq_filter]
  refine List.filter_congr fun n hmem => ?_
  have hiff : n.id = id ↔ n = .class_ c := by
    constructor
    · intro hid
      exact Option.some.inj ((hid ▸ hg.node?_of_mem hmem).symm.trans hn)
    · rintro rfl
      exact id_of_node? hn
  by_cases heq : n = .class_ c
  · simp [heq, id_of_node? hn]
  · simp [heq, mt hiff.mp heq]

theorem Warned.removeOrphan (hw : g.Warned) (hg : g.WellFormed) (ho : g.isOrphan id = true) :
    (g.removeNode id).discardWarning.Warned := by
  obtain ⟨c, hn, hun, _⟩ := isOrphan_iff.mp ho
  have hwarnings : (g.removeNode id).classWarnings = g.classWarnings := by
    rw [removeNode, hn]
  have hu : Marking.isUnresolved (.class_ c) = true := decide_eq_true hun
  show (g.removeNode id).classWarnings - 1 = (g.removeNode id).nodes.countP Marking.isUnresolved
  rw [hwarnings, hw, nodes_removeNode hg hn, List.countP_erase]
  simp [mem_of_node? hn, hu]

theorem Records.removeOrphan (hg : g.Records f) (ho : g.isOrphan id = true) (hid : f id = 0) :
    (g.removeNode id).discardWarning.Records f := by
  obtain ⟨c, hn, _⟩ := isOrphan_iff.mp ho
  have hmissing : (g.removeNode id).missingRefs = g.missingRefs.erase id := by
    rw [removeNode, hn]
  intro x
  show (g.removeNode id).missingRefs.get? x = tally (f x)
  rw [hmissing, SortedMap.get?_erase, hg x]
  split
  next hx => rw [hx, hid]; rfl
  next => rfl

theorem Warned.dropOrphans (hw : g.Warned) (hg : g.Grounded) (candidates : List NodeId) :
    (g.dropOrphans candidates).1.Warned := by
  induction candidates generalizing g with
  | nil => exact hw
  | cons id candidates ih =>
    rw [Graph.dropOrphans]
    split
    next ho => exact ih (hw.removeOrphan hg.wellFormed ho) (hg.removeOrphan ho)
    next => exact ih hw hg

theorem Records.dropOrphans (hr : g.Records f) (hf : ∀ id, g.core id = none → f id = 0)
    (candidates : List NodeId) : (g.dropOrphans candidates).1.Records f := by
  induction candidates generalizing g with
  | nil => exact hr
  | cons id candidates ih =>
    rw [Graph.dropOrphans]
    split
    next ho =>
      refine ih (hr.removeOrphan ho (hf id (core_of_isOrphan ho))) fun x hx => hf x ?_
      rwa [sameCore_removeOrphan ho x]
    next => exact ih hr hf

end Orphans

end Graph

namespace Program

open Graph IncrementalRun

variable {p : Program} {g : Graph} {u : CompiledUnit} {s : SourcedUnit} {id : NodeId}
  {batch : List CompiledUnit}

/-- How many references of the bodies at a node lead nowhere. -/
def misses (p : Program) (id : NodeId) : Nat :=
  (p.units.map fun s => p.skeleton.missesAt s.unit.bodyLinks id).sum

/-- The graph counts what the program has. -/
structure Counted (p : Program) (g : Graph) : Prop where
  warned : g.Warned
  records : g.Records p.misses

section Build

theorem counts_declare (g : Graph) (u : CompiledUnit) (origin : Origin) :
    (g.declare u origin).classWarnings = g.classWarnings ∧
      (g.declare u origin).missingRefs = g.missingRefs := by
  refine List.foldlRecOn (motive := fun r : Graph =>
    r.classWarnings = g.classWarnings ∧ r.missingRefs = g.missingRefs) _ _ ?_ fun r h m _ => ?_
  · simp [addClass]
  · rw [addMember_eq, classWarnings_insert, missingRefs_insert]
    exact h

theorem counts_declared (p : Program) :
    p.declared.classWarnings = 0 ∧ p.declared.missingRefs = ∅ := by
  have hstep : ∀ {g : Graph} {u origin}, (g.classWarnings = 0 ∧ g.missingRefs = ∅) →
      ((g.declare u origin).classWarnings = 0 ∧ (g.declare u origin).missingRefs = ∅) := by
    intro g u origin h
    rw [(counts_declare g u origin).1, (counts_declare g u origin).2]
    exact h
  unfold declared
  exact List.foldlRecOn (motive := fun r : Graph => r.classWarnings = 0 ∧ r.missingRefs = ∅) _ _
    (List.foldlRecOn (motive := fun r : Graph => r.classWarnings = 0 ∧ r.missingRefs = ∅) _ _
      ⟨rfl, rfl⟩ fun _ h _ _ => hstep h) fun _ h _ _ => hstep h

theorem warned_skeleton (p : Program) : p.skeleton.Warned := by
  have hdeclared : p.declared.Warned := by
    rw [Warned, (counts_declared p).1, eq_comm, List.countP_eq_zero]
    intro n hn
    rw [p.allKnown_declared n.id n (p.wellFormed_declared.node?_of_mem hn)]
    exact Bool.false_ne_true
  exact List.foldlRecOn (motive := Warned) _ _ hdeclared fun _ h _ _ => h.applyLinks

theorem missingRefs_skeleton (p : Program) : p.skeleton.missingRefs = ∅ := by
  refine List.foldlRecOn (motive := fun r : Graph => r.missingRefs = ∅) _ _ (counts_declared p).2
    fun r h u _ => ?_
  refine List.foldlRecOn (motive := fun r : Graph => r.missingRefs = ∅) _ _ h fun r h l hl => ?_
  refine (applied_applyLink.missingRefs ?_).trans h
  simp only [CompiledUnit.hierarchyLinks, List.mem_append, List.mem_map] at hl
  rcases hl with ⟨_, _, rfl⟩ | ⟨_, _, rfl⟩ <;> rfl

theorem counts_linkOverrides (h : Hierarchy) (g : Graph) (u : CompiledUnit) :
    (g.linkOverrides h u).classWarnings = g.classWarnings ∧
      (g.linkOverrides h u).missingRefs = g.missingRefs :=
  List.foldlRecOn (motive := fun r : Graph =>
    r.classWarnings = g.classWarnings ∧ r.missingRefs = g.missingRefs) _ _ ⟨rfl, rfl⟩
    fun _ h _ _ => ⟨classWarnings_addEdges.trans h.1, missingRefs_addEdges.trans h.2⟩

theorem missesAt_lateralLinks (p : Program) (id : NodeId) :
    p.skeleton.missesAt p.lateralLinks id = p.misses id := by
  rw [missesAt, lateralLinks, List.countP_flatMap, misses]
  refine congrArg List.sum (List.map_congr_left fun s _ => ?_)
  rw [Function.comp_apply, List.countP_append, missesAt, Nat.add_eq_right, List.countP_eq_zero]
  intro l hl
  obtain ⟨_, _, hdecl⟩ := CompiledUnit.declarationLink_of_mem hl
  rcases hdecl.mentions with ⟨_, _, rfl, _⟩ | ⟨_, rfl⟩ <;> simp [Link.isMissing]

/-- The graph of a program counts what the program has. -/
theorem counted_of_build (hb : p.build = .ok g) : p.Counted g := by
  obtain ⟨_, rfl⟩ := build_eq_ok_iff.mp hb
  rw [complete_eq]
  have hlinks : p.Counted (p.skeleton.applyLinks p.platform p.lateralLinks) := by
    refine ⟨p.warned_skeleton.applyLinks, fun id => ?_⟩
    have hzero : p.skeleton.Records fun _ => 0 := fun id => by
      rw [missingRefs_skeleton]
      rfl
    have hrecords := hzero.applyLinks (fun _ => rfl) p.tame_skeleton p.tame_skeleton
      (fun l hl => (lateral_of_mem_lateralLinks hl).1)
      (fun _ => contains_source_of_mem_lateralLinks) id
    simpa only [Nat.zero_add, missesAt_lateralLinks] using hrecords
  refine List.foldlRecOn (motive := p.Counted) _ _ hlinks fun r hr s _ => ?_
  obtain ⟨hwarnings, hmissing⟩ := counts_linkOverrides
    (p.skeleton.applyLinks p.platform p.lateralLinks).hierarchy r s.unit
  exact ⟨hr.warned.of_eq (linkOverrides_spec _ r s.unit).1 hwarnings,
    fun id => by rw [hmissing]; exact hr.records id⟩

end Build

section Relink

/-- Links that start elsewhere miss nothing at a node. -/
theorem missesAt_eq_zero {S : Graph} {links : List Link} (h : ∀ l ∈ links, l.source ≠ id) :
    S.missesAt links id = 0 := by
  rw [missesAt, List.countP_eq_zero]
  intro l hl
  simp [h l hl]

theorem missesAt_bodyLinks_eq_zero {S : Graph} (h : id ∉ u.nodeIds) :
    S.missesAt u.bodyLinks id = 0 :=
  missesAt_eq_zero fun _ hl heq => h (heq ▸ (CompiledUnit.lateral_of_mem_bodyLinks hl).2.1)

/-- A node misses what the bodies of its unit miss. -/
theorem misses_of_mem (hp : p.Admissible) (hs : s ∈ p.units) (hid : id ∈ s.unit.nodeIds) :
    p.misses id = p.skeleton.missesAt s.unit.bodyLinks id := by
  classical
  -- The node says which class it belongs to, and the units of a program have distinct names.
  have hother : ∀ t, t ≠ s → t ∈ p.units → p.skeleton.missesAt t.unit.bodyLinks id = 0 := by
    intro t hne ht
    refine missesAt_bodyLinks_eq_zero fun hid' => hne ?_
    exact List.inj_on_of_nodup_map hp.distinct ht hs
      ((CompiledUnit.className_of_mem_nodeIds hid').symm.trans
        (CompiledUnit.className_of_mem_nodeIds hid))
  rw [misses, List.sum_map_eq_nsmul_single s _ hother,
    List.count_eq_one_of_mem (hp.distinct.of_map _) hs, one_nsmul]

theorem misses_eq_zero (h : ∀ s ∈ p.units, id ∉ s.unit.nodeIds) : p.misses id = 0 := by
  refine List.sum_eq_zero fun n hn => ?_
  obtain ⟨s, hs, rfl⟩ := List.mem_map.mp hn
  exact missesAt_bodyLinks_eq_zero (h s hs)

variable (hp : p.Admissible) (hu : ∃ s ∈ p.units, s.unit.outline = u.outline)
include hp hu

/-- With a new version of a unit only what its own bodies miss changes. -/
theorem misses_replace (id : NodeId) : (p.replace u).misses id =
    (if id ∈ u.nodeIds then 0 else p.misses id) +
      (p.replace u).skeleton.missesAt u.bodyLinks id := by
  have hout := outline_replace hp hu
  have hq := hp.of_outline_eq hout.symm
  split
  next hid =>
    obtain ⟨s, hs, rfl⟩ := (mem_units_replace hu).mpr (.inl rfl)
    rw [misses_of_mem hq hs hid, Nat.zero_add]
  next hid =>
    have hcore := sameCore_of_bare_eq (bare_skeleton_of_outline_eq hout)
    have hmisses : (p.replace u).skeleton.missesAt = p.skeleton.missesAt :=
      hcore.missesAt (p.replace u).tame_skeleton p.tame_skeleton
    rw [missesAt_bodyLinks_eq_zero hid, Nat.add_zero, misses, misses, hmisses, replace,
      List.map_map]
    refine congrArg List.sum (List.map_congr_left fun t ht => ?_)
    simp only [Function.comp_apply]
    split
    next hname =>
      obtain ⟨s, hs, heq⟩ := hu
      obtain rfl : t = s := List.inj_on_of_nodup_map hp.distinct ht hs
        (hname.trans (CompiledUnit.name_eq_of_outline_eq heq).symm)
      have hid' : id ∉ t.unit.nodeIds := by
        rwa [← CompiledUnit.nodeIds_outline, heq, CompiledUnit.nodeIds_outline]
      rw [missesAt_bodyLinks_eq_zero hid, missesAt_bodyLinks_eq_zero hid']
    next => rfl

theorem Counted.relink (hl : p.Linked g) (hc : p.Counted g) :
    (p.replace u).Counted (g.relink p.platform u) := by
  obtain ⟨hcore, htame, hsource⟩ := hl.cleared hp hu
  refine ⟨hc.warned.cleared.applyLinks, fun id => ?_⟩
  rw [misses_replace hp hu]
  exact hc.records.cleared.applyLinks hcore (p.replace u).tame_skeleton htame
    (fun l hl => (CompiledUnit.lateral_of_mem_bodyLinks hl).1) hsource id

end Relink

section Drop

/-- A stand-in has no bodies, so nothing is counted for it. -/
theorem Linked.misses_of_core_eq_none (hl : p.Linked g) (hid : g.core id = none) : p.misses id = 0 :=
  misses_eq_zero fun _ hs hmem => hl.core_of_roster (unit_mem_roster hs) hmem hid

theorem Counted.dropOrphans (hl : p.Linked g) (hc : p.Counted g) (candidates : List NodeId) :
    p.Counted (g.dropOrphans candidates).1 :=
  ⟨hc.warned.dropOrphans hl.grounded candidates,
    hc.records.dropOrphans (fun _ => hl.misses_of_core_eq_none) candidates⟩

end Drop

end Program

end Winnow
