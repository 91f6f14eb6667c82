import Winnow.Proofs.FileSystem
import Winnow.Proofs.Incremental.Emission
import Winnow.Proofs.Snapshot.Codec
import Winnow.Proofs.Snapshot.File
import Winnow.Proofs.UnitFile

/-!
# Refused runs

An incremental run first finds out what has changed and plans what to write;
only then does it write. So a run that is refused, or that fails for want of a
snapshot or of a unit, leaves every file as it was. It is refused just if a file
came or went, a library or a setting changed, or a unit changed in more than its
bodies.
-/
namespace Winnow

namespace IncrementalRun

variable {r : IncrementalRun} {s : Snapshot} {g : Graph} {fs fs' : FileSystem}
  {source : UnitSource} {sources : FileSystem → UnitSource} {e : IncrementalError}

/-- Carries out the plan of a run, if there is one, and gives its outcome. -/
def Findings.finish (f : Findings) :
    Option (OutputDirectory × EmitPlan) → Disk IncrementalError IncrementalOutcome
  | none => pure {
      modified := f.modified.map (·.source)
      remark := f.remark
      tables := f.tables
      graph := f.graph }
  | some (o, plan) => do
    let emit ← (EmitPlan.carryOut plan o).within .write
    return {
      modified := f.modified.map (·.source)
      remark := f.remark
      tables := f.tables
      emit
      refreshed := plan.refreshed
      retracted := plan.retracted
      graph := f.graph }

/-- A run looks, plans, writes, looks at the files it read, and saves a snapshot. -/
theorem run_eq (r : IncrementalRun) (source : FileSystem → UnitSource) : r.run source = (do
    let fs ← get
    let f ← Disk.look (r.investigate (source fs))
    let plan? ← Disk.look fun _ => (r.emitPlan? (source fs) f).mapError .unit
    let outcome ← f.finish plan?
    let units ← Disk.look (updatedUnits f)
    let fs₁ ← get
    ((r.nextSnapshot f units fs₁.now).save r.statePath).within .snapshot
    return outcome) := by
  refine bind_congr fun fs => bind_congr fun f => bind_congr fun plan? => ?_
  cases plan? with
  | none => rfl
  | some planned => rw [Findings.finish, bind_assoc]

theorem Findings.finish_eq_error {f : Findings} {plan? : Option (OutputDirectory × EmitPlan)}
    (h : f.finish plan? fs = .error e fs') : ∃ error, e = .write error := by
  cases plan? with
  | none => cases h
  | some planned =>
    simp only [finish, Disk.bind_eq_error_iff, Disk.within_eq_error_iff, Disk.pure_ne_error,
      and_false, exists_const, or_false] at h
    obtain ⟨error, _, rfl⟩ := h
    exact ⟨error, rfl⟩

theorem updatedUnits_eq_error {f : Findings} (h : updatedUnits f fs = .error e) :
    ∃ path detail, e = .io path detail := by
  unfold updatedUnits at h
  generalize f.snapshot.units = known, f.modified = modified at h
  induction modified generalizing known with
  | nil => cases h
  | cons m modified ih =>
    rw [List.foldlM_cons] at h
    cases hm : Fingerprint.read fs m.source with
    | ok fingerprint => exact ih _ (by simpa [hm, bind, Except.bind] using h)
    | error error =>
      rw [hm] at h
      cases h
      exact ⟨_, _, rfl⟩

/-- A failed run found nothing to go on, or lacked a unit, or had started to write. -/
theorem run_error_cases (h : r.run sources fs = .error e fs') :
    (r.investigate (sources fs) fs = .error e ∧ fs' = fs) ∨
    ∃ f, r.investigate (sources fs) fs = .ok f ∧
      ((∃ error, e = .unit error) ∧ fs' = fs ∨ (∃ error, e = .write error) ∨
        (∃ path detail, e = .io path detail) ∨ ∃ error, e = .snapshot error) := by
  simp only [run_eq, Disk.bind_eq_error_iff, Disk.get_eq_ok_iff, Disk.look_eq_ok_iff,
    Disk.look_eq_error_iff, Disk.within_eq_error_iff, Disk.get_ne_error, Disk.pure_ne_error,
    mapError_eq_error_iff, and_false, exists_const, or_false, false_or] at h
  obtain ⟨_, _, ⟨rfl, rfl⟩, ⟨he, rfl⟩ | ⟨f, _, ⟨hf, rfl⟩, h⟩⟩ := h
  · exact .inl ⟨he, rfl⟩
  · refine .inr ⟨f, hf, ?_⟩
    obtain ⟨⟨error, _, rfl⟩, rfl⟩ | ⟨plan?, _, _, hfinish | ⟨_, fs₁, _, h⟩⟩ := h
    · exact .inl ⟨⟨error, rfl⟩, rfl⟩
    · exact .inr (.inl (Findings.finish_eq_error hfinish))
    · obtain ⟨hunits, _⟩ | ⟨_, _, _, _, _, _, error, _, rfl⟩ := h
      · exact .inr (.inr (.inl (updatedUnits_eq_error hunits)))
      · exact .inr (.inr (.inr ⟨error, rfl⟩))

theorem run_of_investigate (h : r.investigate (sources fs) fs = .error e) :
    r.run sources fs = .error e fs := by
  simp only [run_eq, Disk.bind_eq_error_iff, Disk.get_eq_ok_iff, Disk.look_eq_error_iff]
  exact .inr ⟨_, _, ⟨rfl, rfl⟩, .inl ⟨h, rfl⟩⟩

theorem investigate_eq_error_iff : r.investigate source fs = .error e ↔
    (∃ error, Snapshot.load fs r.statePath = .error error ∧ e = .snapshot error) ∨
    ∃ s, Snapshot.load fs r.statePath = .ok s ∧
      ((∃ error, s.graph = .error error ∧ e = .snapshot error) ∨
        ∃ g, s.graph = .ok g ∧ r.modifiedUnits source s g fs = .error e) := by
  unfold investigate
  cases hload : Snapshot.load fs r.statePath with
  | error error => simp [Except.mapError, bind, Except.bind, eq_comm]
  | ok s =>
    cases hgraph : s.graph with
    | error error => simp [hgraph, Except.mapError, bind, Except.bind, eq_comm]
    | ok g =>
      cases hmodified : r.modifiedUnits source s g fs with
      | error error => simp [hgraph, hmodified, Except.mapError, bind, Except.bind]
      | ok modified => simp [hgraph, hmodified, Except.mapError, bind, Except.bind, pure, Except.pure]

/-- What rules out an incremental run. -/
inductive RulesOut (r : IncrementalRun) (source : UnitSource) (s : Snapshot) (g : Graph)
    (fs : FileSystem) : Prop
  | programFile {path : Path} : path ∈ (s.units.changes fs r.program).added ∨
      path ∈ (s.units.changes fs r.program).removed → RulesOut r source s g fs
  | libraryFile {path : Path} : path ∈ (s.libraries.changes fs r.libraries).added ∨
      path ∈ (s.libraries.changes fs r.libraries).removed ∨
      path ∈ (s.libraries.changes fs r.libraries).modified → RulesOut r source s g fs
  | platform : s.platform ≠ r.platform → RulesOut r source s g fs
  | emit : s.emit.same r.emit = false → RulesOut r source s g fs
  | keepRules {k : KeepRules} : k ∈ r.rules →
      (∀ state, s.counterSets.get? k.name = some state → state.fingerprint ≠ k.fingerprint) →
      RulesOut r source s g fs
  | unit {path : Path} {u : CompiledUnit} : path ∈ (s.units.changes fs r.program).modified →
      source path = .ok u → g.structuralChanges path u ≠ [] → RulesOut r source s g fs

theorem settingChanges_eq_nil_iff : r.settingChanges s = [] ↔
    s.platform = r.platform ∧ s.emit.same r.emit = true ∧
      ∀ k ∈ r.rules, ∃ state, s.counterSets.get? k.name = some state ∧
        state.fingerprint = k.fingerprint := by
  simp [settingChanges, List.append_eq_nil_iff, and_assoc, Option.any_eq_true]

theorem fileChanges_eq_nil_iff : r.fileChanges s fs = [] ↔
    ((s.libraries.changes fs r.libraries).added = [] ∧
      (s.libraries.changes fs r.libraries).removed = [] ∧
      (s.libraries.changes fs r.libraries).modified = []) ∧
    (s.units.changes fs r.program).added = [] ∧ (s.units.changes fs r.program).removed = [] := by
  simp [fileChanges, List.append_eq_nil_iff, and_assoc]

/-- The changes that a run names when it is refused. -/
def changes (r : IncrementalRun) (s : Snapshot) (g : Graph) (fs : FileSystem)
    (modified : List SourcedUnit) : List StructuralChange :=
  r.settingChanges s ++ r.fileChanges s fs ++
    modified.flatMap fun m => g.structuralChanges m.source m.unit

/-- The units are those that the source gives for the paths. -/
def Reads (source : UnitSource) (paths : List Path) (units : List SourcedUnit) : Prop :=
  (∀ m ∈ units, m.source ∈ paths ∧ source m.source = .ok m.unit) ∧
    ∀ path ∈ paths, ∃ m ∈ units, m.source = path

/-- The unit of a path, with the path. -/
def readUnit (source : UnitSource) (path : Path) : Except IncrementalError SourcedUnit :=
  match source path with
  | .ok u => .ok ⟨u, path⟩
  | .error e => .error (.unit e)

theorem readUnit_eq {path : Path} {u : CompiledUnit} (h : source path = .ok u) :
    readUnit source path = .ok ⟨u, path⟩ := by
  rw [readUnit, h]

theorem exists_modifiedUnits
    (hread : ∀ path ∈ (s.units.changes fs r.program).modified, ∃ u, source path = .ok u) :
    ∃ units, Reads source (s.units.changes fs r.program).modified units ∧
      r.modifiedUnits source s g fs =
        if r.changes s g fs units = [] then .ok units
        else .error (.requireFull (r.changes s g fs units)) := by
  obtain ⟨units, hunits⟩ : ∃ units,
      (s.units.changes fs r.program).modified.mapM (readUnit source) = .ok units :=
    exists_mapM_eq_ok fun path hpath => (hread path hpath).elim fun _ hu => ⟨_, readUnit_eq hu⟩
  refine ⟨units, ?_, ?_⟩
  · obtain ⟨hfrom, hto⟩ := mem_of_mapM_eq_ok hunits
    constructor
    · intro m hm
      obtain ⟨path, hpath, heq⟩ := hfrom m hm
      obtain ⟨u, hu⟩ := hread path hpath
      cases (readUnit_eq hu).symm.trans heq
      exact ⟨hpath, hu⟩
    · intro path hpath
      obtain ⟨m, hm, heq⟩ := hto path hpath
      obtain ⟨u, hu⟩ := hread path hpath
      cases (readUnit_eq hu).symm.trans heq
      exact ⟨_, hm, rfl⟩
  · unfold modifiedUnits
    show ((s.units.changes fs r.program).modified.mapM (readUnit source) >>= _) = _
    rw [hunits]
    rfl

theorem rulesOut_iff {units : List SourcedUnit}
    (hunits : Reads source (s.units.changes fs r.program).modified units) :
    r.RulesOut source s g fs ↔ r.changes s g fs units ≠ [] := by
  have hnil : r.changes s g fs units = [] ↔ r.settingChanges s = [] ∧ r.fileChanges s fs = [] ∧
      ∀ m ∈ units, g.structuralChanges m.source m.unit = [] := by
    rw [changes, List.append_eq_nil_iff, List.append_eq_nil_iff, List.flatMap_eq_nil_iff, and_assoc]
  rw [ne_eq, hnil, settingChanges_eq_nil_iff, fileChanges_eq_nil_iff]
  constructor
  · rintro hout ⟨⟨hplatform, hemit, hrules⟩, ⟨⟨hla, hlr, hlm⟩, hpa, hpr⟩, hstructure⟩
    cases hout with
    | programFile h => simp [hpa, hpr] at h
    | libraryFile h => simp [hla, hlr, hlm] at h
    | platform h => exact h hplatform
    | emit h => simp [hemit] at h
    | keepRules hk h =>
      obtain ⟨state, hstate, heq⟩ := hrules _ hk
      exact h state hstate heq
    | @unit path u hpath hu h =>
      obtain ⟨m, hm, rfl⟩ := hunits.2 path hpath
      cases hu.symm.trans (hunits.1 m hm).2
      exact h (hstructure m hm)
  · intro hnot
    by_contra hout
    have hempty : ∀ {l : List Path}, (∀ path ∈ l, r.RulesOut source s g fs) → l = [] := fun h =>
      List.eq_nil_iff_forall_not_mem.mpr fun path hpath => hout (h path hpath)
    refine hnot ⟨⟨?_, ?_, fun k hk => ?_⟩, ⟨⟨hempty fun _ h => .libraryFile (.inl h),
      hempty fun _ h => .libraryFile (.inr (.inl h)), hempty fun _ h => .libraryFile (.inr (.inr h))⟩,
      hempty fun _ h => .programFile (.inl h), hempty fun _ h => .programFile (.inr h)⟩, fun m hm => ?_⟩
    · by_contra h
      exact hout (.platform h)
    · by_contra h
      exact hout (.emit (Bool.eq_false_iff.mpr h))
    · by_contra h
      exact hout (.keepRules hk fun state hstate heq => h ⟨state, hstate, heq⟩)
    · by_contra h
      exact hout (.unit (hunits.1 m hm).1 (hunits.1 m hm).2 h)

/-- The run ends before it has anything to write. -/
def Refuses (r : IncrementalRun) (fs : FileSystem) : IncrementalError → Prop
  | .requireFull _ | .unit _ => True
  | .snapshot error => Snapshot.load fs r.statePath = .error error ∨
      ∃ s, Snapshot.load fs r.statePath = .ok s ∧ s.graph = .error error
  | .write _ | .io _ _ => False

section Stray

/-- A run over one file. -/
def strayRun : IncrementalRun where
  statePath := ⟨"state.json"⟩
  program := [⟨"in/New.json"⟩]
  libraries := []
  rules := []
  platform := {}
  emit := {}
  output := none

/-- A snapshot of no class, with some members all the same. -/
def straySnapshot (members : List MemberNode) : Snapshot where
  version := Snapshot.currentVersion
  createdAt := 0
  platform := {}
  emit := {}
  classes := []
  members
  edges := []
  warnings := 0

def strayMember : MemberNode := { id := .method ⟨"a/A", "run", "()V"⟩ }

/-- The disk that holds nothing but the snapshot. -/
def strayDisk (members : List MemberNode) : FileSystem :=
  Disk.outcome ((straySnapshot members).save strayRun.statePath) {}

theorem load_strayDisk {members : List MemberNode} (h : ∀ m ∈ members, m.id.Readable) :
    Snapshot.load (strayDisk members) strayRun.statePath = .ok (straySnapshot members) := by
  have hroom : Snapshot.Room strayRun.statePath {} := ⟨rfl, by decide +kernel, by decide +kernel,
    by decide +kernel⟩
  have hzero : 0 < UInt64.size := by decide
  have hportable : (straySnapshot members).Portable :=
    ⟨rfl, hzero, nofun, h, nofun, nofun, nofun, nofun, hzero, nofun⟩
  exact (hroom.load_outcome_save hportable).1

/-- The snapshot knows no file, so the one there is was added. -/
theorem changes_stray (members : List MemberNode) (fs : FileSystem) :
    (straySnapshot members).units.changes fs strayRun.program = { added := strayRun.program } := by
  have hadded : Path.sorted (strayRun.program.filter fun p => !(straySnapshot members).units.contains p) =
      strayRun.program := List.mergeSort_singleton _
  have hmodified : Path.sorted (strayRun.program.filter fun p =>
      ((straySnapshot members).units.get? p).any (·.changed fs p)) = [] := List.mergeSort_nil
  rw [Fingerprints.changes, hadded, hmodified]
  rfl

end Stray

section Grown

/-- A class that may have come to have a method. -/
def grownUnit (grown : Bool) : CompiledUnit :=
  { CompiledUnit.blank "a/A" with methods := if grown then [.blank "run" "()V"] else [] }

def grownFile : Path := ⟨"in/A.json"⟩

def grownMethod : NodeId := .method ⟨"a/A", "run", "()V"⟩

def grownGraph : Graph :=
  let p : Program := { platform := {}, units := [⟨grownUnit false, grownFile⟩], libraries := [] }
  p.complete p.skeleton

/-- The rules that keep every class. -/
def grownRules : KeepRules where
  name := "s"
  rules := [{
    class_ := ⟨[.start, .many .dot, .finish]⟩
    member := none, descriptor := none, annotated := none
    required := [], forbidden := [], negate := false }]
  fingerprint := KeepRules.fingerprintOf [{ class_ := "**" }]

def grownRun : IncrementalRun where
  statePath := ⟨"state.json"⟩
  program := [grownFile]
  libraries := []
  rules := [grownRules]
  platform := {}
  emit := { counterSet := "s", output := some ⟨"out"⟩, omitEmptyShells := true }
  output := some { root := ⟨"out"⟩ }

/-- The snapshot of the class as it was. -/
def grownSnapshot : Snapshot where
  version := Snapshot.currentVersion
  createdAt := 1
  platform := {}
  emit := grownRun.emit
  classes := grownGraph.classes
  members := grownGraph.members
  edges := grownGraph.edges
  counterSets := .ofList [("s", {
    fingerprint := grownRules.fingerprint
    table := grownGraph.mark grownGraph.hierarchy fun n => grownRules.isRoot n.profile })]
  units := .ofList [(grownFile, { mtime := 1, size := 85, contentHash := "deb865bd5fdacdfb" })]
  warnings := 0

/-- The file of the class as it is now, and the output of the last run. -/
def grownFiles : List (Place × FileEntry) := [
  (["in"], .directory),
  (grownFile.place, .file (Json.compact (grownUnit true).toData).toUTF8 2),
  (["out"], .directory),
  (["out", "a"], .directory),
  (["out", "a", "A.unit.json"], .file (Json.compact (grownUnit false).toData).toUTF8 1)]

def grownDisk : FileSystem :=
  Disk.outcome (grownSnapshot.save grownRun.statePath) { entries := .ofList grownFiles }

/-- What evaluation tells of the snapshot and of the files. -/
theorem evaluated_grown :
    ((∀ c ∈ grownSnapshot.classes, ∀ id ∈ c.members.toList, id.Readable) ∧
      (∀ m ∈ grownSnapshot.members, m.id.Readable) ∧
      (∀ e ∈ grownSnapshot.edges, e.source.Readable ∧ e.target.Readable) ∧
      (∀ c ∈ grownSnapshot.counterSets.toList, (∀ id ∈ c.2.table.roots.toList, id.Readable) ∧
        ∀ e ∈ c.2.table.retention.toList, e.1.Readable ∧ e.2.counter < UInt32.size) ∧
      ∀ f ∈ grownSnapshot.units.toList, f.2.mtime < UInt64.size ∧ f.2.size < UInt64.size) ∧
    (∀ q ∈ [grownRun.statePath.draft, grownRun.statePath],
      FileSystem.locateForWriting { entries := .ofList grownFiles } q = .ok q.place) ∧
    FileSystem.locate { entries := .ofList grownFiles } grownFile = .ok grownFile.place ∧
    (grownFiles.map (·.1)).Nodup ∧
    CompiledUnit.ofData (grownUnit true).toData = .ok (grownUnit true) ∧
    (grownUnit true).check = .ok () ∧
    grownSnapshot.graph.toOption.map (·.structuralChanges grownFile (grownUnit true)) =
      some [.memberAdded grownMethod] ∧
    grownSnapshot.units.get? grownFile = some ⟨1, 85, "deb865bd5fdacdfb"⟩ ∧
    SipHash.fingerprint (Json.compact (grownUnit true).toData).toUTF8 ≠ "deb865bd5fdacdfb" := by
  decide +kernel

theorem load_grownDisk :
    Snapshot.load grownDisk grownRun.statePath = .ok grownSnapshot ∧
    grownDisk.entry grownFile = .ok (.file (Json.compact (grownUnit true).toData).toUTF8 2) := by
  obtain ⟨⟨hclasses, hmembers, hedges, htables, hunits⟩, hwriting, hlocate, hdistinct, _⟩ :=
    evaluated_grown
  have hroom : Snapshot.Room grownRun.statePath { entries := .ofList grownFiles } :=
    ⟨rfl, hwriting _ (by simp), hwriting _ (by simp), fun _ => rfl⟩
  have hportable : grownSnapshot.Portable :=
    ⟨rfl, by decide, hclasses, hmembers, hedges, fun c hc => ⟨(htables c hc).1, (htables c hc).2⟩,
      hunits, nofun, by decide, nofun⟩
  obtain ⟨hload, htouches⟩ := hroom.load_outcome_save hportable
  have hget : (SortedMap.ofList grownFiles).get? grownFile.place =
      some (.file (Json.compact (grownUnit true).toData).toUTF8 2) :=
    SortedMap.mem_toList_iff.mp ((SortedMap.mem_toList_ofList hdistinct).mpr (by simp [grownFiles]))
  have hentry := FileSystem.entry_eq_file_iff.mpr ⟨hlocate, hget, rfl⟩
  exact ⟨hload, htouches.entry (by decide) hentry⟩

theorem graph_grown : ∃ g, grownSnapshot.graph = .ok g ∧
    g.structuralChanges grownFile (grownUnit true) = [.memberAdded grownMethod] := by
  obtain ⟨_, _, _, _, _, _, hchanges, _⟩ := evaluated_grown
  cases hg : grownSnapshot.graph with
  | error e =>
    rw [hg] at hchanges
    cases hchanges
  | ok g =>
    rw [hg] at hchanges
    exact ⟨g, rfl, Option.some.inj hchanges⟩

section Disk

variable (h : grownDisk.entry grownFile =
  .ok (.file (Json.compact (grownUnit true).toData).toUTF8 2))
include h

theorem read_grown : UnitFile.read grownDisk grownFile = .ok (grownUnit true) := by
  obtain ⟨_, _, _, _, hdata, hcheck, _⟩ := evaluated_grown
  exact UnitFile.read_of_compact h rfl hdata hcheck

theorem modified_grown :
    (grownSnapshot.units.changes grownDisk grownRun.program).modified = [grownFile] := by
  obtain ⟨_, _, _, _, _, _, _, hget, hhash⟩ := evaluated_grown
  have hread : Fingerprint.read grownDisk grownFile =
      .ok (.ofFile (Json.compact (grownUnit true).toData).toUTF8 2) :=
    Fingerprint.read_eq_ok_iff_entry.mpr ⟨_, _, h, rfl⟩
  have hchanged : Fingerprint.changed ⟨1, 85, "deb865bd5fdacdfb"⟩ grownDisk grownFile = true :=
    (Fingerprint.changed_iff_of_read hread).mpr ⟨.inl (Nat.succ_ne_self 1), hhash⟩
  have hfilter : (grownRun.program.filter fun p =>
      (grownSnapshot.units.get? p).any (·.changed grownDisk p)) = [grownFile] := by
    refine List.filter_eq_self.mpr (List.forall_mem_singleton.mpr ?_)
    rw [hget, Option.any_some, hchanged]
  rw [Fingerprints.changes, hfilter]
  exact List.mergeSort_singleton _

end Disk

end Grown

/-- A run that is refused leaves no trace: if it asks for a full run, lacks a unit, or cannot load the
snapshot or rebuild its graph, all files are as before. With a snapshot whose graph can be rebuilt and
modified units that can be read it asks for a full run, naming at least one change, just if something
rules out an incremental one. -/
theorem refused_run_leaves_no_trace (r : IncrementalRun) (source : FileSystem → UnitSource)
    (fs : FileSystem) :
    (∀ e fs', r.run source fs = .error e fs' → r.Refuses fs e → fs' = fs) ∧
    ∀ s g, Snapshot.load fs r.statePath = .ok s → s.graph = .ok g →
      (∀ path ∈ (s.units.changes fs r.program).modified, ∃ u, source fs path = .ok u) →
      (r.RulesOut (source fs) s g fs ↔
        ∃ changes, changes ≠ [] ∧ r.run source fs = .error (.requireFull changes) fs) := by
  constructor
  · intro e fs' herror hrefuses
    obtain ⟨_, hsame⟩ | ⟨f, hf, ⟨_, hsame⟩ | ⟨error, rfl⟩ | ⟨path, detail, rfl⟩ | ⟨error, rfl⟩⟩ :=
      run_error_cases herror
    · exact hsame
    · exact hsame
    · exact hrefuses.elim
    · exact hrefuses.elim
    · -- The snapshot was loaded and its graph rebuilt, so it is the new one that was not saved.
      have hnone : r.investigate (source fs) fs = .error (.snapshot error) :=
        investigate_eq_error_iff.mpr (hrefuses.imp (fun h => ⟨error, h, rfl⟩)
          fun ⟨s, hs, h⟩ => ⟨s, hs, .inl ⟨error, h, rfl⟩⟩)
      cases hf.symm.trans hnone
  · intro s g hload hgraph hread
    obtain ⟨units, hunits, hmodified⟩ := exists_modifiedUnits (g := g) hread
    rw [rulesOut_iff hunits]
    constructor
    · intro hne
      rw [if_neg hne] at hmodified
      exact ⟨_, hne, run_of_investigate (investigate_eq_error_iff.mpr
        (.inr ⟨s, hload, .inr ⟨g, hgraph, hmodified⟩⟩))⟩
    · rintro ⟨changes, _, hrun⟩ hnil
      rw [if_pos hnil] at hmodified
      obtain ⟨herror, _⟩ | ⟨_, _, ⟨⟨_, h⟩, _⟩ | ⟨_, h⟩ | ⟨_, _, h⟩ | ⟨_, h⟩⟩ := run_error_cases hrun
      · obtain ⟨_, h, _⟩ | ⟨s', hs', ⟨_, h, _⟩ | ⟨g', hg', h⟩⟩ := investigate_eq_error_iff.mp herror
        · cases hload.symm.trans h
        · cases hload.symm.trans hs'
          cases hgraph.symm.trans h
        · cases hload.symm.trans hs'
          cases hgraph.symm.trans hg'
          cases hmodified.symm.trans h
      all_goals cases h

/-- The file of the class has changed, and a method is new in it. The run is refused, and the output
of the last one stays as it is. -/
theorem refused_run_leaves_no_trace_grown :
    Snapshot.load grownDisk grownRun.statePath = .ok grownSnapshot ∧
    ∃ g, grownSnapshot.graph = .ok g ∧
      (grownSnapshot.units.changes grownDisk grownRun.program).modified = [grownFile] ∧
      UnitFile.read grownDisk grownFile = .ok (grownUnit true) ∧
      g.structuralChanges grownFile (grownUnit true) = [.memberAdded grownMethod] ∧
      grownRun.RulesOut (UnitFile.read grownDisk) grownSnapshot g grownDisk ∧
      (∃ changes, changes ≠ [] ∧
        grownRun.run UnitFile.read grownDisk = .error (.requireFull changes) grownDisk) ∧
      ∀ e fs', grownRun.run UnitFile.read grownDisk = .error e fs' → fs' = grownDisk := by
  obtain ⟨hload, hentry⟩ := load_grownDisk
  obtain ⟨g, hgraph, hchanges⟩ := graph_grown
  have hmodified := modified_grown hentry
  have hread := read_grown hentry
  have hout : grownRun.RulesOut (UnitFile.read grownDisk) grownSnapshot g grownDisk :=
    .unit (by rw [hmodified]; exact List.mem_cons_self) hread (by rw [hchanges]; nofun)
  have hall : ∀ path ∈ (grownSnapshot.units.changes grownDisk grownRun.program).modified,
      ∃ u, UnitFile.read grownDisk path = .ok u := by
    rw [hmodified]
    exact List.forall_mem_singleton.mpr ⟨_, hread⟩
  obtain ⟨hsame, hiff⟩ := refused_run_leaves_no_trace grownRun UnitFile.read grownDisk
  obtain ⟨changes, hne, hrun⟩ := (hiff _ _ hload hgraph hall).mp hout
  refine ⟨hload, g, hgraph, hmodified, hread, hchanges, hout, ⟨changes, hne, hrun⟩, ?_⟩
  intro e fs' herror
  refine hsame e fs' herror ?_
  cases hrun.symm.trans herror
  trivial

/-- A snapshot may load and yet describe no graph. Then the run does not ask for a full run, whatever
has changed. -/
theorem unsound_snapshot_hides_changes :
    Snapshot.load (strayDisk [strayMember]) strayRun.statePath = .ok (straySnapshot [strayMember]) ∧
    (∀ path ∈ ((straySnapshot [strayMember]).units.changes (strayDisk [strayMember])
      strayRun.program).modified, ∃ u, UnitFile.read (strayDisk [strayMember]) path = .ok u) ∧
    ⟨"in/New.json"⟩ ∈ ((straySnapshot [strayMember]).units.changes (strayDisk [strayMember])
      strayRun.program).added ∧
    strayRun.run UnitFile.read (strayDisk [strayMember]) =
      .error (.snapshot (.orphanMember strayMember.id)) (strayDisk [strayMember]) := by
  have hreadable : ∀ m ∈ [strayMember], m.id.Readable :=
    List.forall_mem_singleton.mpr ⟨by decide, by decide⟩
  have hload := load_strayDisk hreadable
  have hgraph : (straySnapshot [strayMember]).graph = .error (.orphanMember strayMember.id) := rfl
  refine ⟨hload, ?_, ?_, run_of_investigate (investigate_eq_error_iff.mpr
    (.inr ⟨_, hload, .inl ⟨_, hgraph, rfl⟩⟩))⟩
  · rw [changes_stray]
    nofun
  · rw [changes_stray]
    exact List.mem_cons_self

end IncrementalRun

end Winnow
