import Winnow.KeepRule
import Winnow.Marking.Remark
import Winnow.Output
import Winnow.Program
import Winnow.Snapshot.File
import Winnow.StructuralChange
import Winnow.Unit.File

/-!
# Incremental runs

A run that starts from the snapshot of the last one. If nothing but bodies and
signatures changed, the changed units are linked again, every table is brought
up to date, and only the files of units that come out differently are written.
Otherwise the run is refused and nothing is touched.
-/
namespace Winnow

inductive IncrementalError
  | requireFull (changes : List StructuralChange)
  | snapshot (error : SnapshotError)
  | unit (error : UnitError)
  | write (error : WriteError)
  | io (path : Path) (detail : String)
deriving DecidableEq, Repr

namespace IncrementalError

def message : IncrementalError → String
  | .requireFull changes =>
    "Incremental run impossible: " ++ Text.joined " " (changes.map StructuralChange.message)
  | .snapshot error => s!"Persisted state unusable: {error.message}"
  | .unit error => error.message
  | .write error => error.message
  | .io path detail => s!"Failed to fingerprint {path.text}: {detail}"

/-- A full run is the answer to it. -/
def isRecoverable : IncrementalError → Bool
  | .requireFull _ | .snapshot _ => true
  | _ => false

def changes : IncrementalError → List StructuralChange
  | .requireFull changes => changes
  | _ => []

end IncrementalError

/-- What an incremental run works on. -/
structure IncrementalRun where
  statePath : Path
  /-- The unit files of the program. -/
  program : List Path
  libraries : List Path
  rules : List KeepRules
  platform : Platform
  emit : EmitSettings
  /-- Without it nothing is written but the snapshot. -/
  output : Option OutputDirectory

structure IncrementalOutcome where
  /-- The files whose units were linked again. -/
  modified : List Path
  remark : SortedMap String RemarkStats
  tables : SortedMap String CounterTable
  emit : EmitStats := {}
  refreshed : List String := []
  retracted : List String := []
  graph : Graph

/-- The changes to the output directory that a run comes to. -/
structure EmitPlan where
  pruning : Pruning
  /-- The classes whose files are written, and their units. -/
  refreshed : List String
  units : List CompiledUnit
  /-- The classes whose files are deleted. -/
  retracted : List String

/-- The file that a class of the program was read from. -/
def Graph.sourceOf (g : Graph) (name : String) : Option Path := do
  match (← g.class? name).origin with
  | .program path => some path
  | _ => none

namespace IncrementalRun

/-- What other than the units of the program rules out an incremental run. -/
def settingChanges (r : IncrementalRun) (s : Snapshot) : List StructuralChange :=
  (if s.platform = r.platform && s.emit.same r.emit then [] else [.settings]) ++
    (r.rules.filter fun rules =>
      !((s.counterSets.get? rules.name).any (·.fingerprint = rules.fingerprint))).map
        (.keepRules ·.name)

def fileChanges (r : IncrementalRun) (s : Snapshot) (fs : FileSystem) : List StructuralChange :=
  let libraries := s.libraries.changes fs r.libraries
  let program := s.units.changes fs r.program
  libraries.added.map .fileAdded ++ libraries.removed.map .fileRemoved ++
    libraries.modified.map .libraryChanged ++ program.added.map .fileAdded ++
    program.removed.map .fileRemoved

/-- The units whose files changed, if nothing rules out an incremental run. -/
def modifiedUnits (r : IncrementalRun) (source : UnitSource) (s : Snapshot) (g : Graph)
    (fs : FileSystem) : Except IncrementalError (List SourcedUnit) := do
  let modified ← (s.units.changes fs r.program).modified.mapM fun path =>
    match source path with
    | .ok u => .ok (⟨u, path⟩ : SourcedUnit)
    | .error e => .error (.unit e)
  let changes := r.settingChanges s ++ r.fileChanges s fs ++
    modified.flatMap fun m => g.structuralChanges m.source m.unit
  if changes = [] then return modified else throw (.requireFull changes)

/-- Links units again, and then drops the orphans that this leaves. -/
def relinkAll (platform : Platform) (g : Graph) (units : List CompiledUnit) : Graph × EdgeDelta :=
  let (g, delta) := g.relinkBatch platform units
  g.settle delta

/-- The tables before, as far as there are rules for them, brought up to date. -/
def remarkAll (r : IncrementalRun) (s : Snapshot) (before after : Graph) (delta : EdgeDelta) :
    List (KeepRules × Marking × RemarkStats) :=
  let h := before.hierarchy
  r.rules.filterMap fun rules => do
    let state ← s.counterSets.get? rules.name
    return (rules, (Marking.restore before state.table).remark after h delta)

/-- The classes whose files are no longer what they should be. -/
def staleFiles (p : Pruning) (old : SortedMap String KeepMask) (modified : List CompiledUnit) :
    SortedSet String :=
  let masks := p.masks
  .ofList ((modified.filter fun u => p.emits (masks.get? u.name)).map (·.name) ++
    (masks.toList.filter fun (name, mask) => p.writes mask && old.get? name ≠ some mask).map (·.1))

def planEmit (p : Pruning) (old : SortedMap String KeepMask) (modified : List CompiledUnit)
    (source : UnitSource) : Except UnitError EmitPlan := do
  let masks := p.masks
  let refreshed := (staleFiles p old modified).toList
  let missing := refreshed.filter fun name => modified.all (·.name ≠ name)
  let loaded ← (missing.filterMap fun name => p.graph.sourceOf name).mapM source
  return {
    pruning := p
    refreshed
    units := modified.filter (·.name ∈ refreshed) ++ loaded
    retracted := (old.toList.filter fun (name, mask) =>
      p.writes mask && !p.emits (masks.get? name)).map (·.1) }

def EmitPlan.carryOut (plan : EmitPlan) (o : OutputDirectory) : Disk WriteError EmitStats := do
  let stats ← o.emit plan.pruning plan.units
  return { stats with deleted := stats.deleted + (← o.retract plan.retracted) }

/-- What an incremental run finds out before it writes anything. -/
structure Findings where
  snapshot : Snapshot
  modified : List SourcedUnit
  graph : Graph
  marked : List (KeepRules × Marking × RemarkStats)
  /-- The masks of the last run, if the counter-set that is written was marked in it. -/
  oldMasks : Option (SortedMap String KeepMask)

def investigate (r : IncrementalRun) (source : UnitSource) (fs : FileSystem) :
    Except IncrementalError Findings := do
  let snapshot ← (Snapshot.load fs r.statePath).mapError .snapshot
  let before ← snapshot.graph.mapError .snapshot
  let modified ← r.modifiedUnits source snapshot before fs
  let (graph, delta) := relinkAll r.platform before (modified.map (·.unit))
  return {
    snapshot, modified, graph
    marked := r.remarkAll snapshot before graph delta
    oldMasks := (snapshot.counterSets.get? r.emit.counterSet).map fun state =>
      (Pruning.mk before state.table r.emit.omitEmptyShells).masks }

namespace Findings

def tables (f : Findings) : SortedMap String CounterTable :=
  .ofList (f.marked.map fun (rules, m, _) => (rules.name, m.table f.graph))

def remark (f : Findings) : SortedMap String RemarkStats :=
  .ofList (f.marked.map fun (rules, _, stats) => (rules.name, stats))

end Findings

/-- The changes to the output directory; none if nothing is to be written. -/
def emitPlan? (r : IncrementalRun) (source : UnitSource) (f : Findings) :
    Except UnitError (Option (OutputDirectory × EmitPlan)) :=
  match r.output, f.tables.get? r.emit.counterSet, f.oldMasks with
  | some o, some table, some old => do
    let plan ← planEmit ⟨f.graph, table, r.emit.omitEmptyShells⟩ old (f.modified.map (·.unit)) source
    return some (o, plan)
  | _, _, _ => .ok none

/-- The snapshot that the run leaves. -/
def nextSnapshot (r : IncrementalRun) (f : Findings) (units : Fingerprints) (now : Nat) : Snapshot :=
  let s : Snapshot := { Snapshot.ofGraph f.graph r.platform r.emit now with
    units, libraries := f.snapshot.libraries }
  f.marked.foldl (fun s (rules, m, _) =>
    s.withCounterSet rules.name rules.fingerprint (m.table f.graph)) s

/-- The fingerprints of the last run, with new ones for the files that were modified. -/
def updatedUnits (f : Findings) (fs : FileSystem) : Except IncrementalError Fingerprints :=
  f.modified.foldlM (fun units m =>
    match Fingerprint.read fs m.source with
    | .ok fingerprint => .ok (units.insert m.source fingerprint)
    | .error e => .error (.io m.source e.message)) f.snapshot.units

/-- Runs incrementally, with units from `source`, and leaves the new state. -/
def run (r : IncrementalRun) (source : FileSystem → UnitSource) :
    Disk IncrementalError IncrementalOutcome := do
  let source := source (← get)
  let f ← Disk.look (r.investigate source)
  let plan? ← Disk.look fun _ => (r.emitPlan? source f).mapError .unit
  let outcome : IncrementalOutcome := {
    modified := f.modified.map (·.source)
    remark := f.remark
    tables := f.tables
    graph := f.graph }
  let outcome ← match plan? with
    | none => pure outcome
    | some (o, plan) =>
      let emit ← (EmitPlan.carryOut plan o).within .write
      pure { outcome with emit, refreshed := plan.refreshed, retracted := plan.retracted }
  let units ← Disk.look (updatedUnits f)
  ((r.nextSnapshot f units (← get).now).save r.statePath).within .snapshot
  return outcome

end IncrementalRun

end Winnow
