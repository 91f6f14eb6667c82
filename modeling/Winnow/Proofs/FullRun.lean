import Winnow.Proofs.Incremental.Emission
import Winnow.Proofs.Program.Gather
import Winnow.Proofs.Snapshot.File
import Winnow.Proofs.UnitFile
import Winnow.Run

/-!
# Full runs

A full run reads the files of a project, gathers and links their units, marks everything from
nothing under each set of rules, writes what is kept and saves a snapshot of all that last.
-/
namespace Winnow

open FileSystem

/-! ## Rules and tables -/

/-- The table of a counter-set when everything is marked from nothing. -/
def KeepRules.table (k : KeepRules) (g : Graph) : CounterTable :=
  g.mark g.hierarchy fun n => k.isRoot n.profile

section Rules

variable {β : Type} {F : KeepRules → β} {rules : List KeepRules} {k : KeepRules} {name : String}
  {b : β}

theorem mem_toList_ofList_rules (hd : (rules.map (·.name)).Nodup) :
    (name, b) ∈ (SortedMap.ofList (rules.map fun k => (k.name, F k))).toList ↔
      ∃ k ∈ rules, k.name = name ∧ F k = b := by
  rw [SortedMap.mem_toList_ofList (by rwa [List.map_map]), List.mem_map]
  simp only [Prod.mk.injEq]

theorem get?_ofList_rules (hd : (rules.map (·.name)).Nodup) (hk : k ∈ rules) :
    (SortedMap.ofList (rules.map fun k => (k.name, F k))).get? k.name = some (F k) :=
  SortedMap.mem_toList_iff.mp ((mem_toList_ofList_rules hd).mpr ⟨k, hk, rfl, rfl⟩)

end Rules

namespace Project

variable {p : Project} {rules : List KeepRules} {program : Program} {g : Graph} {s : Snapshot}
  {mode : RunMode} {summary : RunSummary} {fs fs₀ fs₁ : FileSystem} {units libraries : List Path}

theorem name_of_compile {name : String} {texts : List KeepRuleText} {k : KeepRules}
    (h : KeepRules.compile name texts = .ok k) : k.name = name := by
  obtain ⟨_, _, hk⟩ := bind_eq_ok_iff.mp h
  cases hk
  rfl

theorem nodup_keepRules (h : p.keepRules = .ok rules) : (rules.map (·.name)).Nodup := by
  unfold keepRules at h
  split at h
  · cases h
  have hall := (mapM_eq_ok_iff.mp h).imp fun _ _ hk => (name_of_compile hk).symm
  have hnames : p.config.counterSetNames = rules.map (·.name) := by
    rwa [← List.forall₂_eq_eq_eq, List.forall₂_map_right_iff]
  exact hnames ▸ SortedSet.nodup_toList _

/-- The counter-sets of a full run. -/
def counterSets (rules : List KeepRules) (g : Graph) : SortedMap String CounterSetState :=
  .ofList (rules.map fun k => (k.name, ⟨k.fingerprint, k.table g⟩))

theorem foldl_withCounterSet (rules : List KeepRules) {s : Snapshot}
    {m : SortedMap String CounterSetState}
    (hm : rules.foldl (fun m k => m.insert k.name ⟨k.fingerprint, k.table g⟩) s.counterSets = m) :
    rules.foldl (fun s k => s.withCounterSet k.name k.fingerprint (k.table g)) s =
      { s with counterSets := m } := by
  induction rules generalizing s with
  | nil =>
    subst hm
    rfl
  | cons k rules ih => exact ih hm

/-- What the snapshot of a full run holds. -/
theorem snapshot_eq_ok_iff (hd : (rules.map (·.name)).Nodup) :
    p.snapshot rules g (markAll g rules) units libraries fs = .ok s ↔
      ∃ known others, fingerprints fs units = .ok known ∧ fingerprints fs libraries = .ok others ∧
        s = { Snapshot.ofGraph g p.config.platform p.emitSettings fs.now with
          units := known, libraries := others, counterSets := counterSets rules g } := by
  have hsets : rules.foldl (fun m k => m.insert k.name ⟨k.fingerprint, k.table g⟩) ∅ =
      counterSets rules g := by
    unfold counterSets SortedMap.ofList
    rw [List.foldl_map]
  unfold snapshot
  cases hknown : fingerprints fs units with
  | error e => simp [bind, Except.bind]
  | ok known =>
    cases hothers : fingerprints fs libraries with
    | error e => simp [bind, Except.bind]
    | ok others =>
      simp only [bind, Except.bind]
      have hget : ∀ k ∈ rules, (markAll g rules).get? k.name = some (k.table g) := fun k hk =>
        get?_ofList_rules hd hk
      rw [List.foldl_ext _ (fun s k => s.withCounterSet k.name k.fingerprint (k.table g)) _
        (fun s k hk => by rw [hget k hk]), foldl_withCounterSet rules hsets]
      simp [pure, Except.pure, eq_comm]

/-- Writes what is kept of the program, if it is to be written. -/
def emission (p : Project) (program : Program) (g : Graph) (tables : SortedMap String CounterTable) :
    Disk RunError EmitStats :=
  match p.output?, tables.get? p.config.emit with
  | some o, some table =>
    (o.emitAll ⟨g, table, p.config.omitEmptyShells⟩ (program.units.map (·.unit))).within .write
  | _, _ => pure {}

/-- The summary of a full run. -/
def fullSummary (p : Project) (mode : RunMode) (g : Graph) (tables : SortedMap String CounterTable)
    (stats : EmitStats) : RunSummary :=
  let summary : RunSummary := {
    requested := mode
    mode := .full
    emitted := p.config.emit
    output := p.config.output
    emit := stats }
  summary.withTables g tables p.config.report.listClasses

/-- A full run marks everything anew, writes what is kept and saves a snapshot of it last. -/
theorem runFull_eq_ok_iff : p.runFull mode fs₀ = .ok summary fs₁ ↔
    ∃ rules program g stats fs s, p.keepRules = .ok rules ∧ p.load fs₀ = .ok program ∧
      program.build = .ok g ∧ p.emission program g (markAll g rules) fs₀ = .ok stats fs ∧
      p.snapshot rules g (markAll g rules) (p.config.programFiles fs₀) (p.config.libraryFiles fs₀)
        fs = .ok s ∧ save s p.statePath fs = .ok () fs₁ ∧
      summary = p.fullSummary mode g (markAll g rules) stats := by
  have hrun : p.runFull mode = (do
      let rules ← Disk.look fun _ => p.keepRules.mapError .keepRules
      let fs₀ ← get
      let program ← Disk.look fun fs => (p.load fs).mapError .build
      let g ← Disk.look fun _ => program.build.mapError .build
      let stats ← p.emission program g (markAll g rules)
      let s ← Disk.look fun now => (p.snapshot rules g (markAll g rules)
        (p.config.programFiles fs₀) (p.config.libraryFiles fs₀) now).mapError .snapshot
      save s p.statePath
      return p.fullSummary mode g (markAll g rules) stats) := by
    refine bind_congr fun rules => bind_congr fun fs₀ => bind_congr fun program =>
      bind_congr fun g => ?_
    unfold emission
    dsimp only
    cases p.output? <;> cases (markAll g rules).get? p.config.emit <;> rfl
  simp only [hrun, Disk.bind_eq_ok_iff, Disk.get_eq_ok_iff, Disk.look_eq_ok_iff,
    mapError_eq_ok_iff, Disk.pure_eq_ok_iff]
  constructor
  · rintro ⟨rules, _, ⟨hrules, rfl⟩, _, _, ⟨rfl, rfl⟩, program, _, ⟨hload, rfl⟩, g, _, ⟨hbuild, rfl⟩,
      stats, fs, hemit, s, _, ⟨hs, rfl⟩, _, _, hsave, hsummary, rfl⟩
    exact ⟨rules, program, g, stats, _, s, hrules, hload, hbuild, hemit, hs, hsave, hsummary⟩
  · rintro ⟨rules, program, g, stats, fs, s, hrules, hload, hbuild, hemit, hs, hsave, hsummary⟩
    exact ⟨rules, _, ⟨hrules, rfl⟩, _, _, ⟨rfl, rfl⟩, program, _, ⟨hload, rfl⟩, g, _, ⟨hbuild, rfl⟩,
      stats, fs, hemit, s, _, ⟨hs, rfl⟩, (), _, hsave, hsummary, rfl⟩
theorem save_spec (hsave : save s p.statePath fs = .ok () fs₁) :
    Touches fs fs₁ [p.statePath.draft.place, p.statePath.place] ∧
      fs₁.read p.statePath = .ok s.text.toUTF8 ∧ Snapshot.Room p.statePath fs₁ := by
  obtain ⟨_, fs₂, hparents, hsave⟩ := Disk.bind_eq_ok_iff.mp hsave
  obtain ⟨htouches, hread, hroom⟩ := Snapshot.save_spec (Disk.within_eq_ok_iff.mp hsave)
  have hparents := (createParents_spec (Disk.change_eq_ok_iff.mp hparents)).1
  exact ⟨(hparents.mono nofun).trans htouches, hread, hroom⟩

/-! ## Runs that succeed -/

/-- The unit of a path, with the path. -/
def loadUnit (fs : FileSystem) (path : Path) : Except BuildError SourcedUnit :=
  match UnitFile.read fs path with
  | .ok unit => .ok ⟨unit, path⟩
  | .error e => .error (.unit e)

theorem loadUnit_eq {path : Path} {u : CompiledUnit} (h : UnitFile.read fs path = .ok u) :
    loadUnit fs path = .ok ⟨u, path⟩ := by
  rw [loadUnit, h]

/-- A project is loaded by reading its files and gathering the units in them. -/
theorem load_eq_ok_iff : p.load fs = .ok program ↔ ∃ units libraries,
    (p.config.programFiles fs).mapM (loadUnit fs) = .ok units ∧
      (p.config.libraryFiles fs).mapM (loadUnit fs) = .ok libraries ∧
      Program.gather p.config.platform units (libraries.map (·.unit)) = .ok program := by
  have hload : p.load fs = (do
      let units ← (p.config.programFiles fs).mapM (loadUnit fs)
      let libraries ← (p.config.libraryFiles fs).mapM (loadUnit fs)
      Program.gather p.config.platform units (libraries.map (·.unit))) := by
    refine bind_congr fun units => bind_congr fun libraries => ?_
    unfold Program.gather
    simp only [List.foldlM_map]
  simp only [hload, bind_eq_ok_iff]
  constructor
  · rintro ⟨units, hunits, libraries, hlibraries, hgather⟩
    exact ⟨units, libraries, hunits, hlibraries, hgather⟩
  · rintro ⟨units, libraries, hunits, hlibraries, hgather⟩
    exact ⟨units, hunits, libraries, hlibraries, hgather⟩

/-- The files of a project that is loaded have fingerprints. -/
theorem exists_fingerprint_of_load (h : p.load fs = .ok program) {path : Path}
    (hpath : path ∈ p.config.programFiles fs ++ p.config.libraryFiles fs) :
    ∃ f, Fingerprint.read fs path = .ok f := by
  obtain ⟨units, libraries, hunits, hlibraries, _⟩ := load_eq_ok_iff.mp h
  have hloaded : ∃ s, loadUnit fs path = .ok s := by
    rcases List.mem_append.mp hpath with hpath | hpath
    · exact ((mem_of_mapM_eq_ok hunits).2 path hpath).imp fun _ hs => hs.2
    · exact ((mem_of_mapM_eq_ok hlibraries).2 path hpath).imp fun _ hs => hs.2
  obtain ⟨s, hs⟩ := hloaded
  cases hread : UnitFile.read fs path with
  | error e => simp [loadUnit, hread] at hs
  | ok u =>
    obtain ⟨content, mtime, hentry⟩ := UnitFile.exists_entry_of_read hread
    exact ⟨_, Fingerprint.read_eq_ok_iff_entry.mpr ⟨content, mtime, hentry, rfl⟩⟩

theorem exists_fingerprints {paths : List Path}
    (h : ∀ path ∈ paths, ∃ f, Fingerprint.read fs path = .ok f) :
    ∃ known, fingerprints fs paths = .ok known := by
  have hfold : ∀ acc, ∃ known, paths.foldlM (enter fs) acc = .ok known := by
    induction paths with
    | nil => exact fun acc => ⟨acc, rfl⟩
    | cons path paths ih =>
      intro acc
      obtain ⟨f, hf⟩ := h path List.mem_cons_self
      have henter : enter fs acc path = .ok (acc.insert path f) := by rw [enter, hf]
      rw [List.foldlM_cons, henter]
      exact ih (fun path hpath => h path (List.mem_cons_of_mem _ hpath)) _
  exact hfold ∅

theorem exists_save {path : Path} (hroom : Snapshot.Room path fs) (s : Snapshot) :
    ∃ fs₁, save s path fs = .ok () fs₁ := by
  obtain ⟨fs₁, hsaved, _⟩ := hroom.exists_save s
  have hparents : Disk.change (fun fs => fs.createParents path)
      (fun e => RunError.io path.parent e.message) fs = .ok () fs :=
    Disk.change_eq_ok_iff.mpr hroom.parents
  exact ⟨fs₁, Disk.bind_eq_ok_iff.mpr ⟨(), fs, hparents, Disk.within_eq_ok_iff.mpr hsaved⟩⟩

/-- A project that is loaded and built and writes no units has a full run if there is room for the
snapshot. -/
theorem exists_runFull (hrules : p.keepRules = .ok rules) (hload : p.load fs = .ok program)
    (hbuild : program.build = .ok g) (houtput : p.config.output = none)
    (hroom : Snapshot.Room p.statePath fs) (mode : RunMode) :
    ∃ summary fs₁, p.runFull mode fs = .ok summary fs₁ ∧
      Touches fs fs₁ [p.statePath.draft.place, p.statePath.place] := by
  have hemission : p.emission program g (markAll g rules) fs = .ok {} fs := by
    unfold emission output?
    rw [houtput]
    rfl
  obtain ⟨known, hknown⟩ := exists_fingerprints fun path hpath =>
    exists_fingerprint_of_load hload (List.mem_append_left (p.config.libraryFiles fs) hpath)
  obtain ⟨others, hothers⟩ := exists_fingerprints fun path hpath =>
    exists_fingerprint_of_load hload (List.mem_append_right (p.config.programFiles fs) hpath)
  obtain ⟨s, hs⟩ : ∃ s, p.snapshot rules g (markAll g rules) (p.config.programFiles fs)
      (p.config.libraryFiles fs) fs = .ok s :=
    ⟨_, (snapshot_eq_ok_iff (nodup_keepRules hrules)).mpr ⟨known, others, hknown, hothers, rfl⟩⟩
  obtain ⟨fs₁, hsave⟩ := exists_save hroom s
  exact ⟨_, fs₁, runFull_eq_ok_iff.mpr
    ⟨rules, program, g, {}, fs, s, hrules, hload, hbuild, hemission, hs, hsave, rfl⟩,
    (save_spec hsave).1⟩

end Project

end Winnow
