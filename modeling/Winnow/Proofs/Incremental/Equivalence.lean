import Winnow.Proofs.Marking.Least
import Winnow.Proofs.Marking.Remark

/-!
# Incremental marking equals marking from scratch

A graph and a table of what is kept in it are brought up to date with one batch
of edits after the other. However many there are, roots and kept states of all
nodes that are known are those of the edited program, built and marked anew.
-/
namespace Winnow

open Graph Marking

namespace Program

/-- The program after all batches. -/
def editAll (p : Program) (batches : List (List CompiledUnit)) : Program := batches.foldl edit p

/-- Every batch edits the program that the batches before it have left. -/
def IsEditSequence : Program → List (List CompiledUnit) → Prop
  | _, [] => True
  | p, batch :: batches => p.IsEdit batch ∧ (p.edit batch).IsEditSequence batches

end Program

/-- A graph and a table of it, brought up to date with a batch of edited units. -/
def advance (platform : Platform) (r : Graph × CounterTable) (batch : List CompiledUnit) :
    Graph × CounterTable :=
  let after := IncrementalRun.relinkAll platform r.1 batch
  (after.1, ((restore r.1 r.2).remark after.1 r.1.hierarchy after.2).1.table after.1)

/-- A node of the program or of a library. -/
def Graph.Known (g : Graph) (id : NodeId) : Prop :=
  ∃ n, g.node? id = some n ∧ isUnresolved n = false

theorem Graph.known_iff_core {g : Graph} {id : NodeId} : g.Known id ↔ g.core id ≠ none := by
  rw [Ne, core_eq_none_iff]
  constructor
  · rintro ⟨n, hn, hu⟩ hall
    rw [hall n hn] at hu
    cases hu
  · intro hne
    obtain ⟨n, hn⟩ := not_forall.mp hne
    obtain ⟨hn, hu⟩ := Classical.not_imp.mp hn
    exact ⟨n, hn, by simpa using hu⟩

theorem blind_profile (select : NodeProfile → Bool) : Blind fun n => select n.profile := by
  intro n
  show select n.bare.profile = _
  rw [Node.profile_bare]

section Least

variable {g : Graph} {h h' : Hierarchy} {platform : Platform} {isRoot : Node → Bool}

/-- Marking from scratch gives a table of the least assignment. -/
theorem Graph.WellFormed.exists_tracks (hg : g.WellFormed) (isRoot : Node → Bool) :
    ∃ A, IsLeast {A : Assignment | A.Closed g g.hierarchy isRoot} A ∧
      Tracks g isRoot A (g.mark g.hierarchy isRoot) := by
  have hrun := drain_run (g := g) (h := g.hierarchy) (seedIn g g.hierarchy isRoot g.nodes)
  refine ⟨_, isLeast_of_seedIn_run hg hg.functional (List.Perm.refl _) hrun (queue_drain _),
    Proper.tracks_table (progress_of_seedIn_run hg.functional hrun).proper (fun id => ?_)
      (fun _ _ hk => hk) fun _ _ _ hk => hk⟩
  refine (mem_roots_of_seedIn_run hrun).trans ?_
  constructor
  · rintro ⟨n, hn, rfl, hp, hr⟩
    exact ⟨n, ⟨hn, hp, hr⟩, rfl⟩
  · rintro ⟨n, ⟨hn, hp, hr⟩, rfl⟩
    exact ⟨n, hn, rfl, hp, hr⟩

/-- Only the supertypes that a hierarchy gives matter. -/
theorem Assignment.Closed.of_supertypes_eq {A : Assignment} (hA : A.Closed g h isRoot)
    (hg : g.Tame platform) (hs : ∀ id, h.supertypes id = h'.supertypes id) :
    A.Closed g h' isRoot where
  shell_of_full := hA.shell_of_full
  member := hA.member
  unresolved := hA.unresolved
  root := hA.root
  root_live := hA.root_live
  owner := hA.owner
  edge := hA.edge
  instantiate := hA.instantiate
  call := hA.call
  dispatch class_ hl receiver decl hcall hsub id hi := by
    rw [← Hierarchy.isSubtype_congr hs] at hsub
    rw [← SameCore.implementationOf (fun _ => rfl) hg hg (hs class_)] at hi
    exact hA.dispatch class_ hl receiver decl hcall hsub id hi

end Least

namespace Program

variable {p : Program} {g : Graph} {t : CounterTable} {isRoot : Node → Bool} {A : Assignment}
  {batch : List CompiledUnit} {batches : List (List CompiledUnit)}

/-- The graph stands for the program and the table for its least assignment. -/
structure InStep (p : Program) (isRoot : Node → Bool) (r : Graph × CounterTable) : Prop where
  admissible : p.Admissible
  linked : p.Linked r.1
  tracks : ∃ A, IsLeast {A : Assignment | A.Closed r.1 r.1.hierarchy isRoot} A ∧
    Tracks r.1 isRoot A r.2

theorem inStep_mark (hp : p.Gathered) (hb : p.build = .ok g) (isRoot : Node → Bool) :
    p.InStep isRoot (g, g.mark g.hierarchy isRoot) :=
  ⟨hp.admissible, linked_of_build hb, (wellFormed_of_build hb).exists_tracks isRoot⟩

/-- What a batch of edits leaves as it is in a graph; the rest is among the recorded changes. -/
structure Relinked (platform : Platform) (g g' : Graph) (delta : EdgeDelta) : Prop where
  before : g.Regular platform
  after : g'.Regular platform
  core : SameCore g g'
  supertypes : ∀ id, g'.hierarchy.supertypes id = g.hierarchy.supertypes id
  changes : Changes g g' delta

theorem Linked.relinked (hl : p.Linked g) (hp : p.Admissible) (hb : p.IsEdit batch) :
    Relinked p.platform g (IncrementalRun.relinkAll p.platform g batch).1
      (IncrementalRun.relinkAll p.platform g batch).2 := by
  obtain ⟨hl', hc⟩ := hl.relinkAll hp hb
  have hout := outline_edit hp hb.outline
  have hbare := bare_skeleton_of_outline_eq hout
  have hladder : (IncrementalRun.relinkAll p.platform g batch).1.ladder = g.ladder := by
    rw [hl'.ladder, hl.ladder, ladder_of_bare_eq hbare]
  have hg := hl.regular hp
  have hg' : (IncrementalRun.relinkAll p.platform g batch).1.Regular p.platform := by
    have := hl'.regular (hp.of_outline_eq hout.symm)
    rwa [platform_eq_of_outline_eq hout] at this
  exact ⟨hg, hg', hl.core.symm.trans ((sameCore_of_bare_eq hbare).symm.trans hl'.core),
    hg'.wellFormed.supertypes_congr hg.wellFormed (parents_congr hladder), hc⟩

/-- The old hierarchy serves for the new graph, since bodies do not change it. -/
theorem Relinked.isLeast {platform : Platform} {g' : Graph} {delta : EdgeDelta}
    (h : Relinked platform g g' delta)
    (hA : IsLeast {A : Assignment | A.Closed g' g'.hierarchy isRoot} A) :
    IsLeast {A : Assignment | A.Closed g' g.hierarchy isRoot} A :=
  ⟨hA.1.of_supertypes_eq h.after.tame h.supertypes,
    fun _ hB => hA.2 (hB.of_supertypes_eq h.after.tame fun id => (h.supertypes id).symm)⟩

/-- One batch keeps graph and table in step with the program. -/
theorem InStep.advance {r : Graph × CounterTable} (hr : p.InStep isRoot r) (hblind : Blind isRoot)
    (hb : p.IsEdit batch) :
    (p.edit batch).InStep isRoot (advance p.platform r batch) := by
  obtain ⟨hp, hl, A, hA, ht⟩ := hr
  have h := hl.relinked hp hb
  obtain ⟨A', hA', _⟩ := h.after.wellFormed.exists_tracks isRoot
  exact ⟨hp.of_outline_eq (outline_edit hp hb.outline).symm, (hl.relinkAll hp hb).1, A', hA',
    ht.remark h.before h.after h.core hblind h.changes hA h.before.wellFormed.functional
      (h.isLeast hA')⟩

theorem platform_edit (hp : p.Admissible) (hb : p.IsEdit batch) :
    (p.edit batch).platform = p.platform :=
  platform_eq_of_outline_eq (outline_edit hp hb.outline)

/-- So do all batches. -/
theorem InStep.advanceAll {r : Graph × CounterTable} (hr : p.InStep isRoot r)
    (hblind : Blind isRoot) (hb : p.IsEditSequence batches) :
    (p.editAll batches).InStep isRoot (batches.foldl (Winnow.advance p.platform) r) := by
  induction batches generalizing p r with
  | nil => exact hr
  | cons batch batches ih =>
    have := ih (hr.advance hblind hb.1) hb.2
    rwa [platform_edit hr.admissible hb.1] at this

theorem outline_editAll (hp : p.Admissible) (hb : p.IsEditSequence batches) :
    (p.editAll batches).outline = p.outline := by
  induction batches generalizing p with
  | nil => rfl
  | cons batch batches ih =>
    have hout := outline_edit hp hb.1.outline
    exact (ih (hp.of_outline_eq hout.symm) hb.2).trans hout

/-- Graphs of one program have the same edges, apart from those for signatures. -/
theorem Linked.mem_edges {g g' : Graph} (hl : p.Linked g) (hl' : p.Linked g') {e : Edge}
    (he : e ∈ g'.edges) (hs : e.kind ≠ .signature) : e ∈ g.edges := by
  by_cases hk : e.kind.isHierarchy = true
  · have hmem : e ∈ g'.ladder := List.mem_filter.mpr ⟨he, hk⟩
    rw [hl'.ladder, ← hl.ladder] at hmem
    exact List.mem_of_mem_filter hmem
  · have hk : e.kind.isHierarchy = false := by simpa using hk
    exact (hl.edges e hk hs).mpr ((hl'.edges e hk hs).mp he)

/-- Two graphs and tables that are in step with one program agree on what is known. -/
theorem InStep.agree {r r' : Graph × CounterTable} (hblind : Blind isRoot) (hr : p.InStep isRoot r)
    (hr' : p.InStep isRoot r') :
    (∀ id, r.1.Known id ↔ r'.1.Known id) ∧ r.2.roots = r'.2.roots ∧
      ∀ id, r'.1.Known id → r.2.state? id = r'.2.state? id := by
  obtain ⟨hp, hl, A, hA, ht⟩ := hr
  obtain ⟨_, hl', A', hA', ht'⟩ := hr'
  have hcore : SameCore r.1 r'.1 := hl.core.symm.trans hl'.core
  have hg := hl.regular hp
  have hg' := hl'.regular hp
  have hsuper : ∀ id, r.1.hierarchy.supertypes id = r'.1.hierarchy.supertypes id :=
    fun id => (hl.supertypes id).trans (hl'.supertypes id).symm
  refine ⟨fun id => ?_, SortedSet.ext_mem fun id => ?_, fun id hid => ?_⟩
  · rw [known_iff_core, known_iff_core, hcore]
  · rw [ht.roots, ht'.roots]
    constructor
    · rintro ⟨n, hn, rfl⟩
      obtain ⟨k, hk, hid, _⟩ := hcore.exists_root hg hg' hblind hn
      exact ⟨k, hk, hid⟩
    · rintro ⟨n, hn, rfl⟩
      obtain ⟨k, hk, hid, _⟩ := hcore.symm.exists_root hg' hg hblind hn
      exact ⟨k, hk, hid⟩
  · have hknown' := known_iff_core.mp hid
    have hknown : r.1.core id ≠ none := hcore id ▸ hknown'
    refine CounterTable.state?_eq_of_keeps fun s => ⟨fun hk => ?_, fun hk => ?_⟩
    · exact ht'.complete id s (Assignment.keeps_of_isLeast hA' hA hg' hg hcore.symm hblind
        (fun id => (hsuper id).symm) (fun e he hs => hl'.mem_edges hl he hs) hknown'
        (ht.sound id s hknown hk))
    · exact ht.complete id s (Assignment.keeps_of_isLeast hA hA' hg hg' hcore hblind hsuper
        (fun e he hs => hl.mem_edges hl' he hs) hknown (ht'.sound id s hknown' hk))

/-- Incremental marking over any sequence of batches of edits to bodies and signatures finds the
roots and the kept states that the edited program has when it is built and marked from scratch. -/
theorem incremental_marking_eq_full (hp : p.Gathered) (hb : p.build = .ok g)
    (select : NodeProfile → Bool) (hedits : p.IsEditSequence batches) :
    (p.editAll batches).Gathered ∧ ∃ g', (p.editAll batches).build = .ok g' ∧
      let isRoot : Node → Bool := fun n => select n.profile
      let r := batches.foldl (advance p.platform) (g, g.mark g.hierarchy isRoot)
      let full := g'.mark g'.hierarchy isRoot
      (∀ id, r.1.Known id ↔ g'.Known id) ∧ r.2.roots = full.roots ∧
        ∀ id, g'.Known id → r.2.state? id = full.state? id := by
  have hout := outline_editAll hp.admissible hedits
  obtain ⟨g', hb'⟩ := exists_build_of_outline_eq hout.symm ⟨g, hb⟩
  have hgathered := (hp.admissible.of_outline_eq hout.symm).gathered
  have hblind := blind_profile select
  refine ⟨hgathered, g', hb', ?_⟩
  exact ((inStep_mark hp hb _).advanceAll hblind hedits).agree hblind (inStep_mark hgathered hb' _)

/-- The main class of the shapes with a signature and without any code. -/
def shapesIdle : CompiledUnit :=
  { CompiledUnit.blank "a/Main" with
    signature := some "La/Disc;"
    methods := [.blank "main" "()V"] }

/-- The main class of the shapes with a class that is not known. -/
def shapesStray : CompiledUnit :=
  { CompiledUnit.blank "a/Main" with
    methods := [((Method.blank "main" "()V").instantiates "b/Gone").instantiates "a/Disc"] }

theorem incremental_marking_eq_full_shapes :
    shapes.Gathered ∧ shapes.IsEditSequence [[shapesIdle], [shapesStray]] ∧
      ∃ g, shapes.build = .ok g ∧
      ∃ g', (shapes.editAll [[shapesIdle], [shapesStray]]).build = .ok g' ∧
        let isRoot : Node → Bool := fun n => n.profile.memberName = some "main"
        let r := [[shapesIdle], [shapesStray]].foldl (advance shapes.platform)
          (g, g.mark g.hierarchy isRoot)
        let full := g'.mark g'.hierarchy isRoot
        (∀ id, r.1.Known id ↔ g'.Known id) ∧ r.2.roots = full.roots ∧
          ∀ id, g'.Known id → r.2.state? id = full.state? id := by
  have hedits : shapes.IsEditSequence [[shapesIdle], [shapesStray]] :=
    ⟨⟨by decide, by decide⟩, ⟨by decide, by decide⟩, trivial⟩
  obtain ⟨g, hb⟩ := exists_build_shapes
  obtain ⟨_, g', hb', hagree⟩ := incremental_marking_eq_full gathered_shapes hb
    (fun profile => profile.memberName = some "main") hedits
  exact ⟨gathered_shapes, hedits, g, hb, g', hb', hagree⟩

end Program

end Winnow
