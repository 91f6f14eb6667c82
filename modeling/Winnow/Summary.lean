import Winnow.Graph.Stats
import Winnow.Output
import Winnow.Retention

/-!
# Summaries of runs
-/
namespace Winnow

inductive RunMode
  | full
  | incremental
  /-- Incremental if possible, and full otherwise. -/
  | auto
deriving DecidableEq, Repr, Inhabited

namespace RunMode

def name : RunMode → String
  | .full => "full"
  | .incremental => "incremental"
  | .auto => "auto"

def ofName? : String → Option RunMode
  | "full" => some .full
  | "incremental" => some .incremental
  | "auto" => some .auto
  | _ => none

def ofData : Decoder RunMode := fun d => do
  let name ← d.asName
  match ofName? name with
  | some mode => return mode
  | none => throw (.unknownName name)

end RunMode

/-- What is kept of a program, and what is not. -/
structure CounterSetSummary where
  name : String := ""
  roots : Nat := 0
  keptClasses : Nat := 0
  /-- The kept classes of which only a shell is kept. -/
  shellClasses : Nat := 0
  removedClasses : Nat := 0
  keptMembers : Nat := 0
  removedMembers : Nat := 0
  kept : List String := []
  removed : List String := []
deriving DecidableEq, Repr, Inhabited

namespace CounterSetSummary

/-- Counts the classes of a program and their members, and lists the classes on request. -/
def compute (name : String) (g : Graph) (t : CounterTable) (listClasses : Bool) :
    CounterSetSummary :=
  let (kept, removed) := g.programClasses.partition fun c => t.isKept c.id
  let (keptMembers, removedMembers) :=
    (g.programClasses.flatMap (·.members.toList)).partition t.isKept
  let list (classes : List ClassNode) : List String :=
    if listClasses then (classes.map (·.name)).mergeSort else []
  { name
    roots := t.roots.size
    keptClasses := kept.length
    shellClasses := (kept.filter fun c => !t.isFullyKept c.id).length
    removedClasses := removed.length
    keptMembers := keptMembers.length
    removedMembers := removedMembers.length
    kept := list kept
    removed := list removed }

def toData (s : CounterSetSummary) : Data :=
  .ofFields [
    ("name", some (.string s.name)),
    ("roots", some (.natural s.roots)),
    ("kept_classes", some (.natural s.keptClasses)),
    ("shell_classes", some (.natural s.shellClasses)),
    ("removed_classes", some (.natural s.removedClasses)),
    ("kept_members", some (.natural s.keptMembers)),
    ("removed_members", some (.natural s.removedMembers)),
    ("kept", Data.unlessEmpty (s.kept.map .string)),
    ("removed", Data.unlessEmpty (s.removed.map .string))]

/-- What is not given is empty or zero. -/
def ofData : Decoder CounterSetSummary := fun d => do
  let fields ← Fields.of ["name", "roots", "kept_classes", "shell_classes", "removed_classes",
    "kept_members", "removed_members", "kept", "removed"] d
  let count (name : String) := fields.withDefault name Data.asNatural 0
  let names (name : String) := fields.withDefault name (Data.asList Data.asString) []
  return {
    name := ← fields.withDefault "name" Data.asString ""
    roots := ← count "roots"
    keptClasses := ← count "kept_classes"
    shellClasses := ← count "shell_classes"
    removedClasses := ← count "removed_classes"
    keptMembers := ← count "kept_members"
    removedMembers := ← count "removed_members"
    kept := ← names "kept"
    removed := ← names "removed" }

end CounterSetSummary

structure RunSummary where
  requested : RunMode := .auto
  /-- The mode in which the run was done: full or incremental. -/
  mode : RunMode := .auto
  /-- Why an incremental run was given up for a full one. -/
  fallback : Option String := none
  graph : GraphStats := {}
  counterSets : List CounterSetSummary := []
  /-- The counter-set whose result was written. -/
  emitted : String := ""
  output : Option Path := none
  emit : EmitStats := {}
  /-- The units that an incremental run linked again. -/
  modifiedUnits : Nat := 0
  /-- The classes whose files an incremental run wrote. -/
  refreshed : List String := []
  /-- The classes whose files it deleted. -/
  retracted : List String := []
  warnings : Nat := 0
  /-- In milliseconds. -/
  duration : Nat := 0
deriving DecidableEq, Repr

namespace RunSummary

def counterSet? (s : RunSummary) (name : String) : Option CounterSetSummary :=
  s.counterSets.find? (·.name = name)

/-- The summary with the counts of a marked graph. -/
def withTables (s : RunSummary) (g : Graph) (tables : SortedMap String CounterTable)
    (listClasses : Bool) : RunSummary :=
  { s with
    graph := g.stats
    warnings := g.warnings
    counterSets := tables.toList.map fun (name, t) =>
      CounterSetSummary.compute name g t listClasses }

/-- The parts of the summary by name; a missing fallback is left out. -/
def fields (s : RunSummary) : List (String × Option Data) := [
    ("requested", some (.string s.requested.name)),
    ("mode", some (.string s.mode.name)),
    ("fallback", s.fallback.map .string),
    ("graph", some s.graph.toData),
    ("counter_sets", some (.list (s.counterSets.map CounterSetSummary.toData))),
    ("emitted", some (.string s.emitted)),
    ("output", some (.ofString? (s.output.map (·.text)))),
    ("emit", some s.emit.toData),
    ("modified_units", some (.natural s.modifiedUnits)),
    ("rewritten", some (.strings s.refreshed)),
    ("retracted", some (.strings s.retracted)),
    ("warnings", some (.natural s.warnings)),
    ("duration_ms", some (.natural s.duration))]

/-- What is not given is empty, zero or left open. -/
def ofData : Decoder RunSummary := fun d => do
  let fields ← Fields.of ["requested", "mode", "fallback", "graph", "counter_sets", "emitted",
    "output", "emit", "modified_units", "rewritten", "retracted", "warnings", "duration_ms"] d
  let names (name : String) := fields.withDefault name (Data.asList Data.asString) []
  return {
    requested := ← fields.withDefault "requested" RunMode.ofData .auto
    mode := ← fields.withDefault "mode" RunMode.ofData .auto
    fallback := ← fields.optional "fallback" Data.asString
    graph := ← fields.withDefault "graph" GraphStats.ofData {}
    counterSets := ← fields.withDefault "counter_sets" (Data.asList CounterSetSummary.ofData) []
    emitted := ← fields.withDefault "emitted" Data.asString ""
    output := (← fields.optional "output" Data.asString).map Path.mk
    emit := ← fields.withDefault "emit" EmitStats.ofData {}
    modifiedUnits := ← fields.withDefault "modified_units" Data.asNatural 0
    refreshed := ← names "rewritten"
    retracted := ← names "retracted"
    warnings := ← fields.withDefault "warnings" Data.asNatural 0
    duration := ← fields.withDefault "duration_ms" Data.asNatural 0 }

end RunSummary

end Winnow
