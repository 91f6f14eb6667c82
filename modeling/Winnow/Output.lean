import Winnow.FileSystem
import Winnow.Json.Printer
import Winnow.Mask

/-!
# The output directory

Every class has its file below the output directory, by its name. A run writes
what is kept and deletes the files of everything else.
-/
namespace Winnow

inductive WriteError
  | io (path : Path) (detail : String)
deriving DecidableEq, Repr

def WriteError.message : WriteError → String
  | .io path detail => s!"Failed to write {path.text}: {detail}"

structure OutputDirectory where
  root : Path
  /-- Written with line breaks and indentation. -/
  pretty : Bool := true
deriving DecidableEq, Repr

structure EmitStats where
  written : Nat := 0
  deleted : Nat := 0
  /-- Empty shells left out. -/
  omitted : Nat := 0
deriving DecidableEq, Repr, Inhabited

namespace EmitStats

def toData (s : EmitStats) : Data :=
  .record [("written", .natural s.written), ("deleted", .natural s.deleted),
    ("omitted", .natural s.omitted)]

/-- A count that is not given is zero. -/
def ofData : Decoder EmitStats := fun d => do
  let fields ← Fields.of ["written", "deleted", "omitted"] d
  let count (name : String) := fields.withDefault name Data.asNatural 0
  return ⟨← count "written", ← count "deleted", ← count "omitted"⟩

end EmitStats

namespace OutputDirectory

def path (o : OutputDirectory) (name : String) : Path := o.root / (name ++ ".unit.json")

/-- The text of a unit's file. -/
def content (o : OutputDirectory) (u : CompiledUnit) : String :=
  if o.pretty then Json.pretty u.toData else Json.compact u.toData

def write (o : OutputDirectory) (u : CompiledUnit) : Disk WriteError Path := do
  let path := o.path u.name
  let fail (e : FileError) : WriteError := .io path e.message
  Disk.change (fun fs => fs.createParents path) fail
  Disk.change (fun fs => fs.write path (o.content u).toUTF8) fail
  return path

/-- Deletes the file of a class, and tells whether there was one. -/
def delete (o : OutputDirectory) (name : String) : Disk WriteError Bool := fun fs =>
  let path := o.path name
  match fs.remove path with
  | .ok fs => .ok true fs
  | .error .notFound => .ok false fs
  | .error e => .error (.io path e.message) fs

/-- The classes that have a file. -/
def existing (o : OutputDirectory) (fs : FileSystem) : List String :=
  ((fs.filesBelow o.root).filterMap fun names =>
    Text.withoutEnding ".unit.json" (Text.joined "/" names)).mergeSort

/-- Writes a unit as far as it is kept, or deletes its file. -/
def emitUnit (o : OutputDirectory) (p : Pruning) (stats : EmitStats) (u : CompiledUnit) :
    Disk WriteError EmitStats := do
  match p.mask? u.name with
  | some mask =>
    if p.writes mask then
      let _ ← o.write (mask.apply u)
      return { stats with written := stats.written + 1 }
    else
      let deleted := (← o.delete u.name).toNat
      return { stats with omitted := stats.omitted + 1, deleted := stats.deleted + deleted }
  | none =>
    let deleted := (← o.delete u.name).toNat
    return { stats with deleted := stats.deleted + deleted }

def emit (o : OutputDirectory) (p : Pruning) (units : List CompiledUnit) :
    Disk WriteError EmitStats :=
  units.foldlM (o.emitUnit p) {}

/-- Deletes the files of classes, and counts those that there were. -/
def retract (o : OutputDirectory) (names : List String) : Disk WriteError Nat :=
  names.foldlM (fun n name => return n + (← o.delete name).toNat) 0

/-- Writes all units of a program and clears away the files of classes that are not part of it. -/
def emitAll (o : OutputDirectory) (p : Pruning) (units : List CompiledUnit) :
    Disk WriteError EmitStats := do
  let stats ← o.emit p units
  let stale := (o.existing (← get)).filter fun name =>
    !((p.graph.class? name).any (·.isProgram))
  return { stats with deleted := stats.deleted + (← o.retract stale) }

end OutputDirectory

end Winnow
