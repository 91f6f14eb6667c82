import Winnow.Proofs.FullRun
import Winnow.Proofs.Incremental.Equivalence
import Winnow.Proofs.Incremental.Refusal
import Winnow.Proofs.Marking.Idle
import Winnow.Proofs.Pruning.Linking
import Winnow.Proofs.Snapshot.Graph

/-!
# Runs with nothing to do

A full run leaves a snapshot, and an incremental run takes it up. If no file changed in between,
the incremental run links nothing again, but it looks once more at what the live classes run. The
graph it works on has its edges in stored order, and that order decides between default methods.
So it leaves everything as it is just when what runs in stored order is kept already.
-/
namespace Winnow

open FileSystem

/-! ## Tables of the stored graph -/

namespace Graph

open Marking

variable {g g' : Graph} {t : CounterTable} {isRoot : Node → Bool} {A : Assignment} {id : NodeId}

theorem sits_of_tracks (hA : A.Closed g g.hierarchy isRoot) (ht : Tracks g isRoot A t) :
    Sits g t where
  roots id hid := by
    obtain ⟨n, ⟨hn, _⟩, rfl⟩ := (ht.roots id).mp hid
    exact contains_of_mem hn
  proper := ht.proper
  placeholders n hn hu := by
    obtain ⟨r, hr, _⟩ := ht.complete n.id .shell (hA.unresolved n hn hu)
    rw [CounterTable.isKept, hr]
    rfl

theorem WellFormed.sits_mark (hg : g.WellFormed) (isRoot : Node → Bool) :
    Sits g (g.mark g.hierarchy isRoot) := by
  obtain ⟨A, hA, ht⟩ := hg.exists_tracks isRoot
  exact sits_of_tracks hA.1 ht

/-- A table fits all graphs with the same nodes, whatever members their classes list. -/
theorem Alike.sits (h : Alike g g') (hg' : g'.WellFormed) (ht : Sits g t) : Sits g' t where
  roots id hid := (h.contains_eq id).trans (ht.roots id hid)
  proper id r hr := by
    obtain ⟨hkept, n, hn, hstate⟩ := ht.proper id r hr
    refine ⟨hkept, ?_⟩
    rcases h.node?_cases id with ⟨c, c', hc, hc', _⟩ | ⟨m, hm, hm'⟩ | ⟨hnone, _⟩
    · rw [hn] at hc
      cases hc
      exact ⟨_, hc', hstate⟩
    · rw [hn] at hm
      cases hm
      exact ⟨_, hm', hstate⟩
    · rw [hn] at hnone
      cases hnone
  placeholders n hn hu := by
    have hn' := hg'.node?_of_mem hn
    rcases h.node?_cases n.id with ⟨c, c', hc, hc', hcc⟩ | ⟨m, _, hm'⟩ | ⟨_, hnone⟩
    · rw [hn'] at hc'
      cases hc'
      have horigin := (ClassNode.profile_of_unlisted_eq hcc).origin
      have hu' : isUnresolved (.class_ c) = true := by
        simpa only [isUnresolved, horigin] using hu
      rw [← id_of_node? hc]
      exact ht.placeholders _ (mem_of_node? hc) hu'
    · rw [hn'] at hm'
      cases hm'
      cases hu
    · rw [hn'] at hnone
      cases hnone

/-- The live classes and calls of a table are read off members and edges. -/
theorem Alike.resumed_eq (h : Alike g g') (t : CounterTable) : resumed g' t = resumed g t := by
  have hnote : Liveness.note g' = Liveness.note g := by
    funext l e
    unfold Liveness.note
    simp only [h.contains_eq]
  have hclass : ∀ id,
      ((g'.node? id).bind Node.class?).isSome = ((g.node? id).bind Node.class?).isSome := by
    intro id
    rcases h.node?_cases id with ⟨_, _, hc, hc', _⟩ | ⟨_, hm, hm'⟩ | ⟨hnone, hnone'⟩
    · rw [hc, hc']
      rfl
    · rw [hm, hm']
    · rw [hnone, hnone']
  have houtgoing : g'.outgoing = g.outgoing := by
    funext id
    rw [outgoing, outgoing, h.edges]
  unfold resumed Liveness.ofKept
  simp only [hnote, hclass, houtgoing, h.member?_eq]

/-- Whatever the live classes of a table run for the calls seen is kept. -/
def Serves (g : Graph) (t : CounterTable) : Prop :=
  (resumed g t).liveness.RunsOnly g g.hierarchy (t.isKept · = true)

theorem Alike.serves_iff (h : Alike g g') (hg : g.WellFormed) (hg' : g'.WellFormed) :
    g'.Serves t ↔ g.Serves t := by
  unfold Serves Liveness.RunsOnly
  simp only [h.resumed_eq, h.isSubtype_eq hg hg', h.implementationOf_eq hg hg']

theorem Alike.mem_dispatched_iff (h : Alike g g') (hg : g.WellFormed) (hg' : g'.WellFormed) :
    id ∈ dispatched g' g'.hierarchy (resumed g' t).liveness ↔
      id ∈ dispatched g g.hierarchy (resumed g t).liveness := by
  simp only [mem_dispatched hg.functional, mem_dispatched hg'.functional, h.resumed_eq,
    h.isSubtype_eq hg hg', h.implementationOf_eq hg hg']

/-- What the live classes run can be listed. -/
theorem WellFormed.serves_iff (hg : g.WellFormed) : g.Serves t ↔
    ∀ id ∈ dispatched g g.hierarchy (resumed g t).liveness, t.isKept id = true :=
  (forall_dispatched_iff hg.functional).symm

theorem sits_stored (ht : Sits g t) : Sits g.stored t := ⟨ht.roots, ht.proper, ht.placeholders⟩

theorem mem_kept : id ∈ t.kept ↔ t.isKept id = true := by
  rw [← markedIds_resumed (g := ∅), mem_markedIds, isMarked_resumed]

/-- What a closed assignment keeps is all that its live classes run. -/
theorem serves_of_closed (hg : g.WellFormed) (hA : A.Closed g g.hierarchy isRoot)
    (hroots : ∀ id ∈ t.roots, ∃ n, g.IsRoot isRoot n ∧ n.id = id)
    (hkeeps : ∀ id s, t.keeps id s ↔ A.keeps id s) : g.Serves t := by
  have hwithin : (resumed g t).liveness.Within A :=
    Liveness.ofKept_within hA hg hroots fun e _ hs =>
      (hkeeps _ _).mp (CounterTable.isKept_iff.mp (mem_kept.mp hs))
  intro class_ hlive receiver decl hcall hsub id hi
  have hfull := hA.dispatch class_ (hwithin.live _ hlive) receiver decl
    (hwithin.callSites _ hcall) hsub id hi
  exact CounterTable.isKept_iff.mpr ((hkeeps _ _).mpr (hA.shell_of_full _ hfull))

/-- The order of edges makes no difference to what is above a class. -/
theorem WellFormed.mem_supertypes_of_stored (hg : g.WellFormed) {above : NodeId}
    (h : above ∈ g.stored.hierarchy.supertypes id) : above ∈ g.hierarchy.supertypes id := by
  rw [hg.stored.supertypes_eq] at h
  rw [hg.supertypes_eq]
  split at h
  next hclass =>
    have hclass : ∃ c ∈ g.classes, c.id = id := hclass
    obtain ⟨hvisited, hne⟩ := List.mem_filter.mp h
    rw [if_pos hclass]
    refine List.mem_filter.mpr ⟨?_, hne⟩
    obtain ⟨start, hstart, hreach⟩ := reachable_of_mem_breadthFirst hvisited
    rw [List.mem_singleton.mp hstart] at hreach
    clear h hne hvisited
    induction hreach with
    | refl =>
      obtain ⟨c, hc, rfl⟩ := hclass
      exact mem_breadthFirst_of_mem_queue (List.mem_map_of_mem (mem_classes.mp hc))
        (List.mem_singleton.mpr rfl)
    | tail _ hstep ih =>
      obtain ⟨e, he, hkind, rfl, rfl⟩ := mem_parents.mp hstep
      have he : e ∈ g.edges := g.perm_edges_stored.mem_iff.mp he
      exact mem_breadthFirst_of_next ih (mem_parents.mpr ⟨e, he, hkind, rfl, rfl⟩)
        (contains_iff_mem.mp (hg.ends e he).2)
  next => cases h

/-- If the order of edges makes no difference to what a class runs, a table that is complete
serves the stored graph as well. -/
theorem WellFormed.serves_stored (hg : g.WellFormed)
    (h : ∀ class_ decl, g.stored.implementationOf g.stored.hierarchy class_ decl =
      g.implementationOf g.hierarchy class_ decl) (isRoot : Node → Bool) :
    g.stored.Serves (g.mark g.hierarchy isRoot) := by
  obtain ⟨hleast, hrecords⟩ := hg.isLeast_mark isRoot
  obtain ⟨_, _, htracks⟩ := hg.exists_tracks isRoot
  have hA := hleast.1
  have hedge : ∀ {e}, e ∈ g.stored.edges → e ∈ g.edges := g.perm_edges_stored.mem_iff.mp
  have hstored : Assignment.Closed g.stored g.stored.hierarchy isRoot _ := {
    shell_of_full := hA.shell_of_full
    member := hA.member
    unresolved := hA.unresolved
    root := hA.root
    root_live := hA.root_live
    owner := hA.owner
    edge := fun e he => hA.edge e (hedge he)
    instantiate := fun e he => hA.instantiate e (hedge he)
    call := fun e he => hA.call e (hedge he)
    dispatch := fun class_ hlive receiver decl hcall hsub id hi => by
      have hsub' : g.hierarchy.isSubtype class_ receiver = true :=
        Hierarchy.isSubtype_iff.mpr
          ((Hierarchy.isSubtype_iff.mp hsub).imp_right hg.mem_supertypes_of_stored)
      exact hA.dispatch class_ hlive receiver decl hcall hsub' id ((h class_ decl).symm.trans hi) }
  exact serves_of_closed hg.stored hstored (fun id hid => (htracks.roots id).mp hid) hrecords.keeps

end Graph

/-! ## An incremental run on unchanged files -/

/-- The plan to write and delete nothing. -/
def EmitPlan.idle (p : Pruning) : EmitPlan := ⟨p, [], [], []⟩

namespace IncrementalRun

open Marking

variable {r : IncrementalRun} {s : Snapshot} {g : Graph} {f : Findings} {fs fs' : FileSystem}
  {source : FileSystem → UnitSource} {outcome : IncrementalOutcome}

theorem relinkAll_nil (platform : Platform) (g : Graph) : relinkAll platform g [] = (g, {}) := by
  show g.settle {} = _
  simp [Graph.settle, Graph.dropOrphans]

/-- What a run finds out about a snapshot and its graph if nothing has changed. -/
def idleFindings (r : IncrementalRun) (s : Snapshot) (g : Graph) : Findings where
  snapshot := s
  modified := []
  graph := g
  marked := r.remarkAll s g g {}
  oldMasks := (s.counterSets.get? r.emit.counterSet).map fun state =>
    (Pruning.mk g state.table r.emit.omitEmptyShells).masks

theorem investigate_unchanged {source : UnitSource} (hload : Snapshot.load fs r.statePath = .ok s)
    (hgraph : s.graph = .ok g) (hsettings : r.settingChanges s = [])
    (hunits : s.units.changes fs r.program = {})
    (hlibraries : s.libraries.changes fs r.libraries = {}) :
    r.investigate source fs = .ok (r.idleFindings s g) := by
  have hmodified : r.modifiedUnits source s g fs = .ok [] := by
    unfold modifiedUnits fileChanges
    rw [hunits, hlibraries, hsettings]
    rfl
  unfold investigate
  simp only [hload, hgraph, hmodified, Except.mapError, bind, Except.bind, List.map_nil,
    relinkAll_nil]
  rfl

/-- With the same masks before and after there is nothing to write and nothing to delete. -/
theorem planEmit_unchanged {p : Pruning} (hg : p.graph.WellFormed) (source : UnitSource) :
    planEmit p p.masks [] source = .ok (.idle p) := by
  have hstale : (staleFiles p p.masks []).toList = [] := by
    rw [List.eq_nil_iff_forall_not_mem]
    intro name hname
    obtain ⟨_, ⟨_, hu, _⟩ | hne⟩ := (mem_staleFiles hg hg).mp (SortedSet.mem_toList.mp hname)
    · cases hu
    · exact hne rfl
  have hretracted : ∀ e ∈ p.masks.toList, ¬ (p.writes e.2 && !p.emits (p.masks.get? e.1)) = true := by
    intro e hmem
    simp only [SortedMap.mem_toList_iff.mp hmem, Pruning.emits, Option.any_some]
    simp
  unfold planEmit
  simp only [hstale]
  rw [List.filter_eq_nil_iff.mpr hretracted]
  rfl

/-- A run first finds out and plans, then writes, and saves a snapshot last. -/
theorem run_eq_ok_iff : r.run source fs = .ok outcome fs' ↔
    ∃ f plan? fs₁ units, r.investigate (source fs) fs = .ok f ∧
      r.emitPlan? (source fs) f = .ok plan? ∧ f.finish plan? fs = .ok outcome fs₁ ∧
      updatedUnits f fs₁ = .ok units ∧
      (r.nextSnapshot f units fs₁.now).save r.statePath fs₁ = .ok () fs' := by
  simp only [run_eq, Disk.bind_eq_ok_iff, Disk.get_eq_ok_iff, Disk.look_eq_ok_iff,
    mapError_eq_ok_iff, Disk.within_eq_ok_iff, Disk.pure_eq_ok_iff]
  constructor
  · rintro ⟨_, _, ⟨rfl, rfl⟩, f, _, ⟨hf, rfl⟩, plan?, _, ⟨hplan, rfl⟩, outcome', fs₁, hfinish, units,
      _, ⟨hunits, rfl⟩, _, _, ⟨rfl, rfl⟩, _, fs₂, hsave, rfl, rfl⟩
    exact ⟨f, plan?, _, units, hf, hplan, hfinish, hunits, hsave⟩
  · rintro ⟨f, plan?, fs₁, units, hf, hplan, hfinish, hunits, hsave⟩
    exact ⟨_, _, ⟨rfl, rfl⟩, f, _, ⟨hf, rfl⟩, plan?, _, ⟨hplan, rfl⟩, outcome, fs₁, hfinish, units,
      _, ⟨hunits, rfl⟩, _, _, ⟨rfl, rfl⟩, (), fs', hsave, rfl, rfl⟩

/-- The tables of a run are those that it found before it wrote anything. -/
theorem tables_of_run (h : r.run source fs = .ok outcome fs')
    (hf : r.investigate (source fs) fs = .ok f) : outcome.tables = f.tables := by
  obtain ⟨f', plan?, fs₁, _, hf', _, hfinish, _⟩ := run_eq_ok_iff.mp h
  cases hf.symm.trans hf'
  cases plan? with
  | none =>
    cases hfinish
    rfl
  | some planned =>
    obtain ⟨_, _, _, hfinish⟩ := Disk.bind_eq_ok_iff.mp hfinish
    cases hfinish
    rfl

/-- A run that finds nothing modified and has nothing to write saves a snapshot and is done. -/
theorem exists_run (hf : r.investigate (source fs) fs = .ok f) (hmodified : f.modified = [])
    (hplan : r.emitPlan? (source fs) f = .ok none ∨
      ∃ o p, r.emitPlan? (source fs) f = .ok (some (o, .idle p)))
    (hroom : Snapshot.Room r.statePath fs) :
    ∃ outcome fs', r.run source fs = .ok outcome fs' ∧ outcome.modified = [] ∧
      outcome.refreshed = [] ∧ outcome.retracted = [] ∧ outcome.tables = f.tables ∧
      ∀ place ≠ r.statePath.place, fs'.entryAt place = fs.entryAt place := by
  have hunits : updatedUnits f fs = .ok f.snapshot.units := by
    unfold updatedUnits
    rw [hmodified]
    rfl
  have hnone : f.modified.map (·.source) = [] := by rw [hmodified]; rfl
  obtain ⟨fs', hsave, hrest⟩ := hroom.exists_save (r.nextSnapshot f f.snapshot.units fs.now)
  rcases hplan with hplan | ⟨o, p, hplan⟩
  · exact ⟨_, fs', run_eq_ok_iff.mpr ⟨f, none, fs, _, hf, hplan, rfl, hunits, hsave⟩, hnone, rfl,
      rfl, rfl, hrest⟩
  · exact ⟨_, fs', run_eq_ok_iff.mpr ⟨f, some (o, .idle p), fs, _, hf, hplan, rfl, hunits, hsave⟩,
      hnone, rfl, rfl, rfl, hrest⟩

end IncrementalRun

/-! ## After a full run -/

namespace Project

open Graph Marking

variable {p : Project} {rules : List KeepRules} {g : Graph} {s : Snapshot}
  {fs fs₀ fs₁ : FileSystem}

/-- A run finds the files that it found before, and neither the snapshot nor its draft is one of
them. -/
structure SameFiles (p : Project) (fs₀ fs₁ : FileSystem) : Prop where
  program : p.config.programFiles fs₁ = p.config.programFiles fs₀
  libraries : p.config.libraryFiles fs₁ = p.config.libraryFiles fs₀
  apart : ∀ path ∈ p.config.programFiles fs₀ ++ p.config.libraryFiles fs₀,
    path.place ∉ [p.statePath.draft.place, p.statePath.place]

/-- What a run finds out can be told from the text of a snapshot. -/
structure Storable (p : Project) (rules : List KeepRules) (g : Graph) (fs : FileSystem) : Prop where
  graph : (Snapshot.ofGraph g p.config.platform p.emitSettings fs.now).Portable
  tables : ∀ k ∈ rules, (k.table g).Portable
  files : ∀ path ∈ p.config.programFiles fs ++ p.config.libraryFiles fs,
    ∀ f, Fingerprint.read fs path = .ok f → f.Fits

section Again

variable (hd : (rules.map (·.name)).Nodup)
  (hs : p.snapshot rules g (markAll g rules) (p.config.programFiles fs₀)
    (p.config.libraryFiles fs₀) fs = .ok s)
  (hsave : save s p.statePath fs = .ok () fs₁) (hfiles : p.SameFiles fs₀ fs₁)

include hsave hfiles in
/-- Saving the snapshot does not change what is known of the files. -/
theorem read_of_save {path : Path} {f : Fingerprint}
    (hpath : path ∈ p.config.programFiles fs₀ ++ p.config.libraryFiles fs₀)
    (hr : Fingerprint.read fs path = .ok f) : Fingerprint.read fs₁ path = .ok f :=
  Fingerprint.read_of_touches (save_spec hsave).1 (hfiles.apart path hpath) hr

include hd hs hsave hfiles in
theorem portable_snapshot (hfits : p.Storable rules g fs₁) : s.Portable := by
  obtain ⟨known, others, hknown, hothers, rfl⟩ := (snapshot_eq_ok_iff hd).mp hs
  have hnow : fs₁.now = fs.now := (save_spec hsave).1.now
  have hgraph := hfits.graph
  rw [hnow] at hgraph
  have hfile : ∀ path ∈ p.config.programFiles fs₀ ++ p.config.libraryFiles fs₀, ∀ f,
      Fingerprint.read fs path = .ok f → f.Fits := fun path hpath f hr =>
    hfits.files path (by rwa [hfiles.program, hfiles.libraries]) f
      (read_of_save hsave hfiles hpath hr)
  exact { hgraph with
    tables := fun ⟨name, state⟩ hstate => by
      obtain ⟨k, hk, rfl, rfl⟩ := (mem_toList_ofList_rules hd).mp hstate
      exact hfits.tables k hk
    units := fun e he => by
      obtain ⟨path, hpath, _, hr⟩ := (fingerprints_spec hknown).2 e he
      exact hfile path (List.mem_append_left _ hpath) _ hr
    libraries := fun e he => by
      obtain ⟨path, hpath, _, hr⟩ := (fingerprints_spec hothers).2 e he
      exact hfile path (List.mem_append_right _ hpath) _ hr }

include hd hs in
theorem of_snapshot : Snapshot.Of g s := by
  obtain ⟨known, others, _, _, rfl⟩ := (snapshot_eq_ok_iff hd).mp hs
  exact ⟨List.mergeSort_perm _ _, List.mergeSort_perm _ _, rfl⟩

include hd hs in
theorem settingChanges_snapshot : (p.incrementalRun rules fs₁).settingChanges s = [] := by
  obtain ⟨known, others, _, _, rfl⟩ := (snapshot_eq_ok_iff hd).mp hs
  unfold IncrementalRun.settingChanges
  rw [List.append_eq_nil_iff]
  refine ⟨if_pos ?_, List.map_eq_nil_iff.mpr (List.filter_eq_nil_iff.mpr fun k hk => ?_)⟩
  · simp [Snapshot.ofGraph, incrementalRun, EmitSettings.same]
  · simp [counterSets, get?_ofList_rules hd hk]

include hd hs hsave hfiles in
/-- An incremental run after a full one is not refused, and has no unit to link again. -/
theorem investigate_later (hg : g.WellFormed) (hfits : p.Storable rules g fs₁) (now : Nat)
    (source : UnitSource) : ∃ g', g.stored.Alike g' ∧ g'.WellFormed ∧
      (p.incrementalRun rules (fs₁.later now)).investigate source (fs₁.later now) =
        .ok ((p.incrementalRun rules (fs₁.later now)).idleFindings s g') := by
  obtain ⟨_, hread, _⟩ := save_spec hsave
  obtain ⟨g', hgraph, halike, hg'⟩ := (of_snapshot hd hs).exists_graph hg
  have hload : Snapshot.load (fs₁.later now) p.statePath = .ok s :=
    Snapshot.load_of_read (portable_snapshot hd hs hsave hfiles hfits) hread
  obtain ⟨known, others, hknown, hothers, hsnapshot⟩ := (snapshot_eq_ok_iff hd).mp hs
  have hunits : s.units.changes (fs₁.later now) (p.config.programFiles fs₁) = {} := by
    rw [hsnapshot, hfiles.program]
    exact changes_fingerprints hknown fun path hpath f hr =>
      read_of_save hsave hfiles (List.mem_append_left _ hpath) hr
  have hlibraries : s.libraries.changes (fs₁.later now) (p.config.libraryFiles fs₁) = {} := by
    rw [hsnapshot, hfiles.libraries]
    exact changes_fingerprints hothers fun path hpath f hr =>
      read_of_save hsave hfiles (List.mem_append_right _ hpath) hr
  exact ⟨g', halike, hg', IncrementalRun.investigate_unchanged hload hgraph
    (settingChanges_snapshot hd hs) hunits hlibraries⟩

end Again

/-- A run whose snapshot is in none of the directories of units finds the same files afterwards. -/
theorem sameFiles_of_touches
    (h : Touches fs₀ fs₁ [p.statePath.draft.place, p.statePath.place])
    (hd : ∀ d ∈ p.config.inputs ++ p.config.libraries, fs₀.entry d = .ok .directory ∧
      d.place ≠ [] ∧ ∀ q ∈ [p.statePath.draft.place, p.statePath.place], ¬ d.place <+: q)
    (hapart : ∀ path ∈ p.config.programFiles fs₀ ++ p.config.libraryFiles fs₀,
      path.place ∉ [p.statePath.draft.place, p.statePath.place]) : p.SameFiles fs₀ fs₁ where
  program := Config.unitFiles_of_touches h fun d hmem => hd d (List.mem_append_left _ hmem)
  libraries := Config.unitFiles_of_touches h fun d hmem => hd d (List.mem_append_right _ hmem)
  apart := hapart

end Project

namespace IncrementalRun

open Graph Marking

variable {r : IncrementalRun} {s : Snapshot} {g g' : Graph} {k : KeepRules}
  (hd : (r.rules.map (·.name)).Nodup) (hs : s.counterSets = Project.counterSets r.rules g)
include hd hs

theorem marked_idleFindings : (r.idleFindings s g').marked = r.rules.map fun k =>
    (k, (restore g' (k.table g)).remark g' g'.hierarchy {}) := by
  show r.rules.filterMap _ = _
  rw [← List.filterMap_eq_map']
  refine List.filterMap_congr fun k hk => ?_
  rw [hs, Project.counterSets, get?_ofList_rules hd hk]
  rfl

theorem get?_tables_idleFindings (hk : k ∈ r.rules) : (r.idleFindings s g').tables.get? k.name =
    some (((restore g' (k.table g)).remark g' g'.hierarchy {}).1.table g') := by
  unfold Findings.tables
  rw [marked_idleFindings hd hs, List.map_map]
  exact get?_ofList_rules hd hk

/-- If nothing more is to be kept, nothing is to be written. -/
theorem emitPlan?_idleFindings (hg : g'.WellFormed)
    (htable : ∀ k ∈ r.rules,
      ((restore g' (k.table g)).remark g' g'.hierarchy {}).1.table g' = k.table g)
    (source : UnitSource) : r.emitPlan? source (r.idleFindings s g') = .ok none ∨
      ∃ o p, r.emitPlan? source (r.idleFindings s g') = .ok (some (o, .idle p)) := by
  unfold emitPlan?
  split
  next o table old _ hnew hold =>
    refine .inr ⟨o, ⟨g', table, r.emit.omitEmptyShells⟩, ?_⟩
    obtain ⟨k, hk, hname, rfl⟩ : ∃ k ∈ r.rules, k.name = r.emit.counterSet ∧ k.table g = table := by
      unfold Findings.tables at hnew
      rw [marked_idleFindings hd hs, List.map_map] at hnew
      obtain ⟨k, hk, hname, htable'⟩ :=
        (mem_toList_ofList_rules hd).mp (SortedMap.mem_toList_iff.mpr hnew)
      exact ⟨k, hk, hname, (htable k hk).symm.trans htable'⟩
    have hmasks : old = (Pruning.mk g' (k.table g) r.emit.omitEmptyShells).masks := by
      unfold idleFindings at hold
      simp only [hs, Project.counterSets, ← hname, get?_ofList_rules hd hk, Option.map_some] at hold
      exact (Option.some.inj hold).symm
    rw [hmasks]
    show (planEmit ⟨g', k.table g, r.emit.omitEmptyShells⟩ _ [] source >>= _) = _
    rw [planEmit_unchanged hg]
    rfl
  next => exact .inl rfl

end IncrementalRun

namespace Project

open Graph Marking

variable {p : Project} {rules : List KeepRules} {program : Program} {g : Graph}
  {mode : RunMode} {summary : RunSummary} {fs₀ fs₁ : FileSystem}

section After

variable (hrules : p.keepRules = .ok rules) (hload : p.load fs₀ = .ok program)
  (hbuild : program.build = .ok g) (hfull : p.runFull mode fs₀ = .ok summary fs₁)
  (hfiles : p.SameFiles fs₀ fs₁) (hfits : p.Storable rules g fs₁) (now : Nat)
include hrules hload hbuild hfull hfiles hfits

/-- What an incremental run after a full one finds out, on a graph like the stored one. -/
theorem exists_investigate_after_runFull : ∃ s g', g.stored.Alike g' ∧ g'.WellFormed ∧
    s.counterSets = counterSets rules g ∧ Snapshot.Room p.statePath fs₁ ∧
    (p.incrementalRun rules (fs₁.later now)).investigate (UnitFile.read (fs₁.later now))
      (fs₁.later now) = .ok ((p.incrementalRun rules (fs₁.later now)).idleFindings s g') := by
  have hd := nodup_keepRules hrules
  obtain ⟨rules', program', g₀, stats, fs, s, hrules', hload', hbuild', _, hs, hsave, _⟩ :=
    runFull_eq_ok_iff.mp hfull
  cases hrules.symm.trans hrules'
  cases hload.symm.trans hload'
  cases hbuild.symm.trans hbuild'
  obtain ⟨g', halike, hg', hinvestigate⟩ := investigate_later hd hs hsave hfiles
    (Program.wellFormed_of_build hbuild) hfits now (UnitFile.read (fs₁.later now))
  have hsets : s.counterSets = counterSets rules g := by
    obtain ⟨_, _, _, _, rfl⟩ := (snapshot_eq_ok_iff hd).mp hs
    rfl
  exact ⟨s, g', halike, hg', hsets, (save_spec hsave).2.2, hinvestigate⟩

omit hrules hload hfull hfiles hfits in
/-- A table of the full run fits the graph that is taken up, and serves it if it serves the stored
one. -/
theorem sits_and_serves_iff {g' : Graph} (halike : g.stored.Alike g') (hg' : g'.WellFormed)
    (k : KeepRules) : Sits g' (k.table g) ∧
      (g'.Serves (k.table g) ↔ g.stored.Serves (k.table g)) := by
  have hg : g.WellFormed := Program.wellFormed_of_build hbuild
  exact ⟨halike.sits hg' (sits_stored (hg.sits_mark _)), halike.serves_iff hg.stored hg'⟩

/-- If the tables stay as they are, the live classes ran only what was kept. -/
theorem serves_of_run {outcome : IncrementalOutcome} {fs₂ : FileSystem}
    (hrun : (p.incrementalRun rules (fs₁.later now)).run UnitFile.read (fs₁.later now) =
      .ok outcome fs₂)
    (htables : ∀ k ∈ rules, ∃ t, outcome.tables.get? k.name = some t ∧
      t.roots = (k.table g).roots ∧ ∀ id, t.state? id = (k.table g).state? id) :
    ∀ k ∈ rules, g.stored.Serves (k.table g) := by
  obtain ⟨s, g', halike, hg', hsets, _, hinvestigate⟩ :=
    exists_investigate_after_runFull hrules hload hbuild hfull hfiles hfits now
  intro k hk
  obtain ⟨hsits, hserves⟩ := sits_and_serves_iff hbuild halike hg' k
  obtain ⟨t, ht, hroots, hstates⟩ := htables k hk
  rw [IncrementalRun.tables_of_run hrun hinvestigate,
    IncrementalRun.get?_tables_idleFindings (nodup_keepRules hrules) hsets hk] at ht
  cases ht
  exact hserves.mp ((hsits.remark_iff hg'.functional).mp ⟨hroots, hstates⟩)

/-- What the live classes run with the edges in stored order is kept afterwards. -/
theorem isKept_of_run {k : KeepRules} {id : NodeId} {outcome : IncrementalOutcome}
    {fs₂ : FileSystem} (hk : k ∈ rules)
    (hid : id ∈ dispatched g.stored g.stored.hierarchy (resumed g.stored (k.table g)).liveness)
    (hrun : (p.incrementalRun rules (fs₁.later now)).run UnitFile.read (fs₁.later now) =
      .ok outcome fs₂) :
    ∃ t, outcome.tables.get? k.name = some t ∧ t.isKept id = true := by
  obtain ⟨s, g', halike, hg', hsets, _, hinvestigate⟩ :=
    exists_investigate_after_runFull hrules hload hbuild hfull hfiles hfits now
  have hid' := (halike.mem_dispatched_iff (Program.wellFormed_of_build hbuild).stored hg').mpr hid
  refine ⟨_, ?_, (sits_and_serves_iff hbuild halike hg' k).1.isKept_of_dispatched hg'.functional hid'⟩
  rw [IncrementalRun.tables_of_run hrun hinvestigate,
    IncrementalRun.get?_tables_idleFindings (nodup_keepRules hrules) hsets hk]

/-- With no units to write, the run succeeds whatever it keeps. -/
theorem exists_run_of_no_output (houtput : p.config.output = none) :
    ∃ outcome fs₂, (p.incrementalRun rules (fs₁.later now)).run UnitFile.read (fs₁.later now) =
      .ok outcome fs₂ := by
  obtain ⟨s, g', _, _, _, hroom, hinvestigate⟩ :=
    exists_investigate_after_runFull hrules hload hbuild hfull hfiles hfits now
  have hplan : (p.incrementalRun rules (fs₁.later now)).emitPlan? (UnitFile.read (fs₁.later now))
      ((p.incrementalRun rules (fs₁.later now)).idleFindings s g') = .ok none := by
    have hnone : (p.incrementalRun rules (fs₁.later now)).output = none := by
      show p.output? = none
      rw [output?, houtput]
      rfl
    unfold IncrementalRun.emitPlan?
    rw [hnone]
  obtain ⟨outcome, fs₂, hrun, _⟩ :=
    IncrementalRun.exists_run hinvestigate rfl (.inl hplan) (hroom.later now)
  exact ⟨outcome, fs₂, hrun⟩

/-- If the live classes run only what is kept, there is nothing to do. -/
theorem exists_run_of_serves (hall : ∀ k ∈ rules, g.stored.Serves (k.table g)) :
    ∃ outcome fs₂, (p.incrementalRun rules (fs₁.later now)).run UnitFile.read (fs₁.later now) =
        .ok outcome fs₂ ∧
      (∀ k ∈ rules, ∃ t, outcome.tables.get? k.name = some t ∧ t.roots = (k.table g).roots ∧
        ∀ id, t.state? id = (k.table g).state? id) ∧
      outcome.modified = [] ∧ outcome.refreshed = [] ∧ outcome.retracted = [] ∧
      ∀ place ≠ p.statePath.place, fs₂.entryAt place = fs₁.entryAt place := by
  have hd := nodup_keepRules hrules
  obtain ⟨s, g', halike, hg', hsets, hroom, hinvestigate⟩ :=
    exists_investigate_after_runFull hrules hload hbuild hfull hfiles hfits now
  have htable : ∀ k ∈ rules,
      ((restore g' (k.table g)).remark g' g'.hierarchy {}).1.table g' = k.table g := by
    intro k hk
    obtain ⟨hsits, hserves⟩ := sits_and_serves_iff hbuild halike hg' k
    rw [hsits.remark_of_runsOnly hg'.functional (hserves.mpr (hall k hk)), hsits.table_resumed]
  obtain ⟨outcome, fs₂, hrun, hmodified, hrefreshed, hretracted, htables, hrest⟩ :=
    IncrementalRun.exists_run hinvestigate rfl
      (IncrementalRun.emitPlan?_idleFindings hd hsets hg' htable _) (hroom.later now)
  refine ⟨outcome, fs₂, hrun, fun k hk => ⟨k.table g, ?_, rfl, fun _ => rfl⟩, hmodified, hrefreshed,
    hretracted, hrest⟩
  rw [htables, IncrementalRun.get?_tables_idleFindings hd hsets hk, htable k hk]

end After

section Twins

/-- A class below two interfaces with a default method each. Its `main` makes an object of it and
calls the method through one of them. -/
def twins (swapped : Bool) : Program where
  platform := {}
  units := [
    ⟨{ CompiledUnit.blank "a/I" with
        modifiers := ⟨0x601⟩
        methods := [.blank "go" "()V"] }, ⟨"in/I.unit.json"⟩⟩,
    ⟨{ CompiledUnit.blank "a/J" with
        modifiers := ⟨0x601⟩
        methods := [.blank "go" "()V"] }, ⟨"in/J.unit.json"⟩⟩,
    ⟨{ CompiledUnit.blank "a/X" with
        interfaces := if swapped then ["a/J", "a/I"] else ["a/I", "a/J"]
        methods := [((Method.blank "main" "()V").extend (.new "a/X")).calls .interface
          ⟨"a/I", "go", "()V"⟩] }, ⟨"in/X.unit.json"⟩⟩]

def twinsGraph (swapped : Bool) : Graph := (twins swapped).complete (twins swapped).skeleton

def twinsGo : NodeId := .method ⟨"a/J", "go", "()V"⟩

def twinsMain : NodeId := .method ⟨"a/X", "main", "()V"⟩

/-- The edges of the twins in stored order, which says nothing of the order of the interfaces. -/
def twinsEdges : List Edge := [
  ⟨twinsMain, .method ⟨"a/I", "go", "()V"⟩, .uses (.virtualCall "a/I")⟩,
  ⟨twinsMain, .class_ "a/X", .uses .instantiate⟩,
  ⟨twinsMain, .class_ "a/I", .uses .typeReference⟩,
  ⟨.class_ "a/X", twinsMain, .contains⟩,
  ⟨.class_ "a/X", .class_ "a/J", .implements⟩,
  ⟨.class_ "a/X", .class_ "a/I", .implements⟩,
  ⟨.class_ "a/J", .method ⟨"a/J", "go", "()V"⟩, .contains⟩,
  ⟨.class_ "a/I", .method ⟨"a/I", "go", "()V"⟩, .contains⟩]

def twinsRule : KeepRuleText := { class_ := "a/X", member := some "main" }

/-- The regex of a pattern in which every character stands for itself. -/
def twinsRegex (name : String) : Regex :=
  ⟨.start :: (name.toList.map fun c => .one (.literal c)) ++ [.finish]⟩

def twinsRules : List KeepRules := [{
  name := "s"
  rules := [{
    class_ := twinsRegex "a/X"
    member := some (twinsRegex "main")
    descriptor := none, annotated := none, required := [], forbidden := [], negate := false }]
  fingerprint := KeepRules.fingerprintOf [twinsRule] }]

def twinsProject : Project where
  config := { inputs := [⟨"in"⟩], keep := .ofList [("s", [twinsRule])], emit := "s" }
  root := ⟨"."⟩

def twinsDisk (swapped : Bool) : FileSystem where
  entries := .ofList ((["in"], .directory) :: (twins swapped).units.map fun s =>
    (s.source.place, .file (Json.compact s.unit.toData).toUTF8 1))

theorem build_twins (swapped : Bool) : (twins swapped).build = .ok (twinsGraph swapped) := by
  have hedges : ∀ b, ∀ e ∈ (twins b).skeleton.edges,
      e.source = .class_ "a/X" ∧ e.target ≠ .class_ "a/X" := by decide +kernel
  have hranked : (twins swapped).skeleton.Ranked fun id => if id = .class_ "a/X" then 1 else 0 :=
    ranked_of_edges fun e he _ => by
      obtain ⟨hsource, htarget⟩ := hedges swapped e he
      simp only [hsource, htarget, if_true, if_false, Nat.zero_lt_one]
  exact Program.build_of_ranked hranked

/-- What is found on the disk of the twins. -/
theorem files_twins : ∀ b,
    [⟨"in"⟩].flatMap (twinsProject.config.unitFilesIn (twinsDisk b)) =
      (twins b).units.map (·.source) ∧
    ((twins b).units.map (·.source)).Pairwise (compare · · = .lt) ∧
    (["in"] :: (twins b).units.map (·.source.place)).Nodup ∧
    (∀ s ∈ (twins b).units, (twinsDisk b).locate s.source = .ok s.source.place ∧
      s.source.place ≠ [] ∧ Text.endsWith s.source.text "/" = false ∧
      s.source.extension = some "json" ∧
      s.source.place ∉ [twinsProject.statePath.draft.place, twinsProject.statePath.place]) ∧
    (twinsDisk b).entry ⟨"in"⟩ = .ok .directory ∧
    (∀ q ∈ [twinsProject.statePath.draft, twinsProject.statePath],
      (twinsDisk b).locateForWriting q = .ok q.place) ∧
    ∀ q ∈ [twinsProject.statePath.draft.place, twinsProject.statePath.place],
      (twinsDisk b).entryAt q = none ∧ ¬ Path.place ⟨"in"⟩ <+: q := by
  decide +kernel

/-- The units of the twins can be told from their data, and make up a program. -/
theorem units_twins : ∀ b,
    (∀ s ∈ (twins b).units, CompiledUnit.ofData s.unit.toData = .ok s.unit ∧
      s.unit.check = .ok () ∧ (Json.compactChars s.unit.toData).length < 1000) ∧
    Program.gather {} (twins b).units [] = .ok (twins b) ∧
    twinsProject.keepRules = .ok twinsRules := by
  decide +kernel

/-- The graphs of the twins, and what is kept of them. -/
theorem graph_twins : ∀ b,
    twinsEdges.Perm (twinsGraph b).edges ∧ twinsEdges.Pairwise (fun e e' => compareEnds e' e = .lt) ∧
    (∀ c ∈ (twinsGraph b).classes, ∀ id ∈ c.members.toList, id.Readable) ∧
    (∀ m ∈ (twinsGraph b).members, m.id.Readable) ∧
    (∀ e ∈ twinsEdges, e.source.Readable ∧ e.target.Readable) ∧
    (twinsGraph b).missingRefs.toList = [] ∧ (twinsGraph b).classWarnings = 0 ∧
    ∀ k ∈ twinsRules, (∀ id ∈ (k.table (twinsGraph b)).roots.toList, id.Readable) ∧
      (∀ e ∈ (k.table (twinsGraph b)).retention.toList,
        e.1.Readable ∧ e.2.counter < UInt32.size) ∧
      (dispatched { twinsGraph b with edges := twinsEdges }
        (hierarchy { twinsGraph b with edges := twinsEdges })
        (resumed { twinsGraph b with edges := twinsEdges } (k.table (twinsGraph b))).liveness) =
          [twinsGo] ∧
      (k.table (twinsGraph b)).isKept twinsGo = !b := by
  decide +kernel

theorem entry_twins {b : Bool} {s : SourcedUnit} (hs : s ∈ (twins b).units) :
    (twinsDisk b).entry s.source = .ok (.file (Json.compact s.unit.toData).toUTF8 1) := by
  obtain ⟨_, _, hplaces, hunits, _⟩ := files_twins b
  obtain ⟨hlocate, hplace, hend, _⟩ := hunits s hs
  have hget : (twinsDisk b).entries.get? s.source.place =
      some (.file (Json.compact s.unit.toData).toUTF8 1) := by
    refine SortedMap.mem_toList_iff.mp ((SortedMap.mem_toList_ofList ?_).mpr
      (List.mem_cons_of_mem _ (List.mem_map_of_mem hs)))
    rwa [List.map_cons, List.map_map]
  refine entry_eq_file_iff.mpr ⟨hlocate, ?_, hend⟩
  rw [entryAt, if_neg hplace, hget]

theorem load_twins (b : Bool) :
    twinsProject.config.programFiles (twinsDisk b) = (twins b).units.map (·.source) ∧
    twinsProject.config.libraryFiles (twinsDisk b) = [] ∧
    twinsProject.load (twinsDisk b) = .ok (twins b) := by
  obtain ⟨hfound, hincreasing, _, hpaths, _⟩ := files_twins b
  obtain ⟨hunits, hgather, _⟩ := units_twins b
  have hprogram : twinsProject.config.programFiles (twinsDisk b) =
      (twins b).units.map (·.source) :=
    (Config.unitFiles_of_increasing (hfound ▸ hincreasing)).trans hfound
  have hlibraries : twinsProject.config.libraryFiles (twinsDisk b) = [] :=
    Config.unitFiles_of_increasing .nil
  refine ⟨hprogram, hlibraries,
    load_eq_ok_iff.mpr ⟨(twins b).units, [], ?_, by rw [hlibraries]; rfl, hgather⟩⟩
  rw [hprogram]
  refine mapM_eq_ok_iff.mpr (List.forall₂_map_left_iff.mpr (List.forall₂_same.mpr fun s hs => ?_))
  obtain ⟨_, _, _, hjson, _⟩ := hpaths s hs
  obtain ⟨hdata, hcheck, _⟩ := hunits s hs
  exact loadUnit_eq (UnitFile.read_of_compact (entry_twins hs) hjson hdata hcheck)

/-- The twins have a full run, and what it finds out can be stored. -/
theorem runFull_twins (b : Bool) : ∃ summary fs₁,
    twinsProject.runFull .full (twinsDisk b) = .ok summary fs₁ ∧
    twinsProject.SameFiles (twinsDisk b) fs₁ ∧
    twinsProject.Storable twinsRules (twinsGraph b) fs₁ := by
  obtain ⟨_, _, _, hpaths, hdirectory, hlocate, hplaces⟩ := files_twins b
  obtain ⟨hunits, _, hrules⟩ := units_twins b
  obtain ⟨hprogram, hlibraries, hload⟩ := load_twins b
  have hroom : Snapshot.Room twinsProject.statePath (twinsDisk b) :=
    ⟨rfl, hlocate _ (by simp), hlocate _ (by simp), fun _ => (hplaces _ (by simp)).1⟩
  obtain ⟨summary, fs₁, hfull, htouches⟩ :=
    exists_runFull hrules hload (build_twins b) rfl hroom .full
  have hfiles : twinsProject.SameFiles (twinsDisk b) fs₁ := by
    refine sameFiles_of_touches htouches (fun d hd => ?_) fun path hpath => ?_
    · obtain rfl := List.mem_singleton.mp hd
      exact ⟨hdirectory, by decide, fun q hq => (hplaces q hq).2⟩
    · rw [hprogram, hlibraries, List.append_nil] at hpath
      obtain ⟨s, hs, rfl⟩ := List.mem_map.mp hpath
      exact (hpaths s hs).2.2.2.2
  have hword : 4000 < UInt64.size := by decide
  refine ⟨summary, fs₁, hfull, hfiles, ?_, fun k hk => ?_, fun path hpath f hf => ?_⟩
  · obtain ⟨hedges, _, hclasses, hmembers, hends, hrefs, hwarnings, _⟩ := graph_twins b
    refine Snapshot.portable_ofGraph _ _ hclasses hmembers
      (fun e he => hends e (hedges.mem_iff.mpr he)) (hrefs ▸ nofun) (hwarnings ▸ by decide) ?_
    rw [htouches.now]
    exact Nat.zero_lt_of_lt hword
  · obtain ⟨_, _, _, _, _, _, _, htables⟩ := graph_twins b
    exact ⟨(htables k hk).1, (htables k hk).2.1⟩
  · rw [hfiles.program, hfiles.libraries, hprogram, hlibraries, List.append_nil] at hpath
    obtain ⟨s, hs, rfl⟩ := List.mem_map.mp hpath
    have hread := Fingerprint.read_of_touches htouches (hpaths s hs).2.2.2.2
      (Fingerprint.read_eq_ok_iff_entry.mpr ⟨_, _, entry_twins hs, rfl⟩)
    obtain rfl := Except.ok.inj (hf.symm.trans hread)
    have hlength := (hunits s hs).2.2
    have hsize := Json.size_toUTF8_compact_le s.unit.toData
    have hfits : 1 < UInt64.size ∧ (Json.compact s.unit.toData).toUTF8.size < UInt64.size :=
      ⟨by decide, by omega⟩
    exact hfits

theorem dispatched_twins {b : Bool} {k : KeepRules} (hk : k ∈ twinsRules) :
    dispatched (twinsGraph b).stored (twinsGraph b).stored.hierarchy
      (resumed (twinsGraph b).stored (k.table (twinsGraph b))).liveness = [twinsGo] ∧
    (k.table (twinsGraph b)).isKept twinsGo = !b := by
  obtain ⟨hperm, hsorted, _, _, _, _, _, htables⟩ := graph_twins b
  rw [stored_eq_of_perm hperm hsorted]
  exact (htables k hk).2.2

end Twins

/-- A full run leaves a snapshot, and after it nothing but the clock changes. The incremental run
that follows is not refused and links nothing again. It keeps to the tables of the full run, writes
no unit, deletes none and touches no file but the snapshot just when, with the edges in stored
order, the live classes run only what is kept already. That is so if the order of the edges makes
no difference to what any class runs. -/
theorem run_after_runFull_iff (hrules : p.keepRules = .ok rules) (hload : p.load fs₀ = .ok program)
    (hbuild : program.build = .ok g) (hfull : p.runFull mode fs₀ = .ok summary fs₁)
    (hfiles : p.SameFiles fs₀ fs₁) (hfits : p.Storable rules g fs₁) (now : Nat) :
    (∃ f, (p.incrementalRun rules (fs₁.later now)).investigate (UnitFile.read (fs₁.later now))
      (fs₁.later now) = .ok f ∧ f.modified = []) ∧
    ((∃ outcome fs₂, (p.incrementalRun rules (fs₁.later now)).run UnitFile.read (fs₁.later now) =
        .ok outcome fs₂ ∧
      (∀ k ∈ rules, ∃ t, outcome.tables.get? k.name = some t ∧ t.roots = (k.table g).roots ∧
        ∀ id, t.state? id = (k.table g).state? id) ∧
      outcome.modified = [] ∧ outcome.refreshed = [] ∧ outcome.retracted = [] ∧
      ∀ place ≠ p.statePath.place, fs₂.entryAt place = fs₁.entryAt place) ↔
    ∀ k ∈ rules, g.stored.Serves (k.table g)) ∧
    ((∀ class_ decl, g.stored.implementationOf g.stored.hierarchy class_ decl =
      g.implementationOf g.hierarchy class_ decl) →
      ∀ k ∈ rules, g.stored.Serves (k.table g)) := by
  obtain ⟨_, _, _, _, _, _, hinvestigate⟩ :=
    exists_investigate_after_runFull hrules hload hbuild hfull hfiles hfits now
  refine ⟨⟨_, hinvestigate, rfl⟩, ⟨?_, ?_⟩, fun h k _ =>
    (Program.wellFormed_of_build hbuild).serves_stored h _⟩
  · rintro ⟨outcome, fs₂, hrun, htables, _⟩
    exact serves_of_run hrules hload hbuild hfull hfiles hfits now hrun htables
  · exact exists_run_of_serves hrules hload hbuild hfull hfiles hfits now

/-- If the interfaces are named in the order in which they are stored, the run after a full one has
nothing to do. -/
theorem run_after_runFull_iff_twins : twinsProject.keepRules = .ok twinsRules ∧
    twinsProject.load (twinsDisk false) = .ok (twins false) ∧
    (twins false).build = .ok (twinsGraph false) ∧
    ∃ summary fs₁, twinsProject.runFull .full (twinsDisk false) = .ok summary fs₁ ∧
      twinsProject.SameFiles (twinsDisk false) fs₁ ∧
      twinsProject.Storable twinsRules (twinsGraph false) fs₁ ∧
      ∃ outcome fs₂, (twinsProject.incrementalRun twinsRules (fs₁.later 1)).run UnitFile.read
          (fs₁.later 1) = .ok outcome fs₂ ∧
        (∀ k ∈ twinsRules, ∃ t, outcome.tables.get? k.name = some t ∧
          t.roots = (k.table (twinsGraph false)).roots ∧
          ∀ id, t.state? id = (k.table (twinsGraph false)).state? id) ∧
        outcome.refreshed = [] ∧ outcome.retracted = [] := by
  obtain ⟨_, _, hrules⟩ := units_twins false
  obtain ⟨_, _, hload⟩ := load_twins false
  have hbuild := build_twins false
  obtain ⟨summary, fs₁, hfull, hfiles, hfits⟩ := runFull_twins false
  have hserves : ∀ k ∈ twinsRules,
      (twinsGraph false).stored.Serves (k.table (twinsGraph false)) := by
    intro k hk
    obtain ⟨hdispatched, hkept⟩ := dispatched_twins (b := false) hk
    rw [(Program.wellFormed_of_build hbuild).stored.serves_iff, hdispatched]
    exact List.forall_mem_singleton.mpr hkept
  obtain ⟨outcome, fs₂, hrun, htables, _, hrefreshed, hretracted, _⟩ :=
    (run_after_runFull_iff hrules hload hbuild hfull hfiles hfits 1).2.1.mpr hserves
  exact ⟨hrules, hload, hbuild, summary, fs₁, hfull, hfiles, hfits, outcome, fs₂, hrun, htables,
    hrefreshed, hretracted⟩

/-- Named the other way round, the object runs one default method on the graph of the full run and
the other one on the stored graph. So the run after a full one keeps more. -/
theorem default_method_kept_after_runFull : twinsProject.keepRules = .ok twinsRules ∧
    twinsProject.load (twinsDisk true) = .ok (twins true) ∧
    (twins true).build = .ok (twinsGraph true) ∧
    (∀ k ∈ twinsRules, (k.table (twinsGraph true)).isKept twinsGo = false) ∧
    ∃ summary fs₁, twinsProject.runFull .full (twinsDisk true) = .ok summary fs₁ ∧
      twinsProject.SameFiles (twinsDisk true) fs₁ ∧
      ∃ outcome fs₂, (twinsProject.incrementalRun twinsRules (fs₁.later 1)).run UnitFile.read
          (fs₁.later 1) = .ok outcome fs₂ ∧
        ∀ k ∈ twinsRules, ∃ t, outcome.tables.get? k.name = some t ∧ t.isKept twinsGo = true := by
  obtain ⟨_, _, hrules⟩ := units_twins true
  obtain ⟨_, _, hload⟩ := load_twins true
  have hbuild := build_twins true
  obtain ⟨summary, fs₁, hfull, hfiles, hfits⟩ := runFull_twins true
  obtain ⟨outcome, fs₂, hrun⟩ :=
    exists_run_of_no_output hrules hload hbuild hfull hfiles hfits 1 rfl
  refine ⟨hrules, hload, hbuild, fun k hk => (dispatched_twins hk).2, summary, fs₁, hfull, hfiles,
    outcome, fs₂, hrun, fun k hk => ?_⟩
  refine isKept_of_run hrules hload hbuild hfull hfiles hfits 1 hk ?_ hrun
  rw [(dispatched_twins hk).1]
  exact List.mem_singleton.mpr rfl

end Project

end Winnow
