import Winnow.Config.Basic
import Winnow.Discovery
import Winnow.Incremental
import Winnow.Summary

/-!
# Runs

A run finds the units of a project, decides what is kept of them, writes that
and leaves a snapshot for the next run.
-/
namespace Winnow

inductive RunError
  | build (error : BuildError)
  | snapshot (error : SnapshotError)
  | incremental (error : IncrementalError)
  | keepRules (error : KeepRuleError)
  | write (error : WriteError)
  | io (path : Path) (detail : String)
deriving DecidableEq, Repr

namespace RunError

def message : RunError → String
  | .build error => s!"Malformed input: {error.message}"
  | .snapshot error => error.message
  | .incremental error => error.message
  | .keepRules error => s!"Invalid keep rules: {error.message}"
  | .write error => s!"Failed to write output: {error.message}"
  | .io path detail => s!"I/O error on {path.text}: {detail}"

/-- A full run is the answer to it. -/
def isRecoverable : RunError → Bool
  | .incremental error => error.isRecoverable
  | .snapshot _ => true
  | _ => false

end RunError

/-- A configuration, rooted at the directory of its project. -/
structure Project where
  config : Config
  root : Path

namespace Project

def statePath (p : Project) : Path := p.config.statePath p.root

def emitSettings (p : Project) : EmitSettings where
  counterSet := p.config.emit
  output := p.config.output
  omitEmptyShells := p.config.omitEmptyShells

def output? (p : Project) : Option OutputDirectory := p.config.output.map fun root => { root }

/-- The rules of all counter-sets; the one that is written has to be among them if there are any. -/
def keepRules (p : Project) : Except KeepRuleError (List KeepRules) :=
  if !p.config.keep.isEmpty && !p.config.keep.contains p.config.emit then
    .error (.unknownCounterSet p.config.emit)
  else p.config.keepRules

/-- Reads all units and gathers them. -/
def load (p : Project) (fs : FileSystem) : Except BuildError Program := do
  let read (path : Path) : Except BuildError SourcedUnit :=
    match UnitFile.read fs path with
    | .ok unit => .ok ⟨unit, path⟩
    | .error e => .error (.unit e)
  let units ← (p.config.programFiles fs).mapM read
  let libraries ← (p.config.libraryFiles fs).mapM read
  let program ← units.foldlM (fun program s => program.addUnit s.unit s.source)
    { platform := p.config.platform }
  libraries.foldlM (fun program s => program.addLibrary s.unit) program

/-- The tables of some counter-sets, by name. -/
def markAll (g : Graph) (rules : List KeepRules) : SortedMap String CounterTable :=
  let h := g.hierarchy
  .ofList (rules.map fun r => (r.name, g.mark h fun node => r.isRoot node.profile))

def fingerprints (view : FileView) (paths : List Path) : Except SnapshotError Fingerprints :=
  paths.foldlM (fun known path =>
    match Fingerprint.read view path with
    | .ok fingerprint => .ok (known.insert path fingerprint)
    | .error e => .error (.fingerprint path e.message)) ∅

/-- The snapshot of a full run. -/
def snapshot (p : Project) (rules : List KeepRules) (g : Graph)
    (tables : SortedMap String CounterTable) (program libraries : List Path) (fs : FileSystem) :
    Except SnapshotError Snapshot := do
  let units ← fingerprints fs program
  let libraries ← fingerprints fs libraries
  let s : Snapshot := { Snapshot.ofGraph g p.config.platform p.emitSettings fs.now with
    units, libraries }
  return rules.foldl (fun s r =>
    match tables.get? r.name with
    | some table => s.withCounterSet r.name r.fingerprint table
    | none => s) s

/-- Saves a snapshot, in a new directory if need be. -/
def save (s : Snapshot) (path : Path) : Disk RunError Unit := do
  Disk.change (fun fs => fs.createParents path) fun e => .io path.parent e.message
  (s.save path).within .snapshot

/-- A run that starts from nothing but the files. -/
def runFull (p : Project) (requested : RunMode) : Disk RunError RunSummary := do
  let rules ← Disk.look fun _ => p.keepRules.mapError .keepRules
  let fs ← get
  let program ← Disk.look fun fs => (p.load fs).mapError .build
  let graph ← Disk.look fun _ => program.build.mapError .build
  let tables := markAll graph rules
  let emit ← match p.output?, tables.get? p.config.emit with
    | some o, some table =>
      (o.emitAll ⟨graph, table, p.config.omitEmptyShells⟩ (program.units.map (·.unit))).within .write
    | _, _ => pure {}
  let snapshot ← Disk.look fun now =>
    (p.snapshot rules graph tables (p.config.programFiles fs) (p.config.libraryFiles fs)
      now).mapError .snapshot
  save snapshot p.statePath
  let summary : RunSummary := {
    requested, mode := .full, emitted := p.config.emit, output := p.config.output, emit }
  return summary.withTables graph tables p.config.report.listClasses

/-- The incremental run of a project. -/
def incrementalRun (p : Project) (rules : List KeepRules) (fs : FileSystem) : IncrementalRun where
  statePath := p.statePath
  program := p.config.programFiles fs
  libraries := p.config.libraryFiles fs
  rules := rules
  platform := p.config.platform
  emit := p.emitSettings
  output := p.output?

/-- A run that starts from the snapshot of the last one. -/
def runIncremental (p : Project) (requested : RunMode) : Disk RunError RunSummary := do
  let rules ← Disk.look fun _ => p.keepRules.mapError .keepRules
  let outcome ← ((p.incrementalRun rules (← get)).run UnitFile.read).within .incremental
  let summary : RunSummary := {
    requested
    mode := .incremental
    emitted := p.config.emit
    output := p.config.output
    emit := outcome.emit
    modifiedUnits := outcome.modified.length
    refreshed := outcome.refreshed
    retracted := outcome.retracted }
  return summary.withTables outcome.graph outcome.tables p.config.report.listClasses

/-- Runs a project. If an incremental run is only tried, whatever a full run can mend leads to one. -/
def run (p : Project) : RunMode → Disk RunError RunSummary
  | .full => p.runFull .full
  | .incremental => p.runIncremental .incremental
  | .auto => fun fs =>
    match p.runIncremental .auto fs with
    | .ok summary fs => .ok summary fs
    | .error e fs =>
      if e.isRecoverable then
        ((fun s => { s with fallback := some e.message }) <$> p.runFull .auto : Disk _ _) fs
      else .error e fs

end Project

end Winnow
