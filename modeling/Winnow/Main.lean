import Winnow.CommandLine.Basic

/-!
# The program

Reads the directories that a command names into a file system, runs the command
on it, and carries the changes over to the disk.
-/
namespace Winnow

/-- The text of a place. -/
def placeText : Place → String
  | [] => "."
  | "/" :: names => "/" ++ Text.joined "/" names
  | names => Text.joined "/" names

/-- The present time, in seconds. -/
def presentTime : IO Nat := do
  let (_, path) ← IO.FS.createTempFile
  let time := (← path.metadata).modified.sec.toNat
  IO.FS.removeFile path
  return time

/-- Reads a file, or a directory with everything in it. -/
partial def readTree (fs : FileSystem) (place : Place) : IO FileSystem := do
  let path := (← IO.currentDir) / placeText place
  if !(← path.pathExists) then return fs
  if !(← path.isDir) then
    let time := (← path.metadata).modified.sec.toNat
    return fs.put place (.file (← IO.FS.readBinFile path) time)
  let mut fs := if place = [] then fs else fs.put place .directory
  for entry in ← path.readDir do
    fs ← readTree fs (place ++ [entry.fileName])
  return fs

/-- Reads what some paths lead to, and the directories on the way there. -/
def readPaths (fs : FileSystem) (paths : List Path) : IO FileSystem := do
  let mut fs := fs
  for p in paths do
    let place := p.place
    for n in List.range place.length do
      if ← ((← IO.currentDir) / placeText (place.take n)).isDir then
        fs := if n = 0 then fs else fs.put (place.take n) .directory
    fs ← readTree fs place
  return fs

/-- Makes the disk agree with a file system that came from another one. -/
def writeChanges (before after : FileSystem) : IO Unit := do
  for (place, entry) in after.entries.toList do
    if before.entries.get? place ≠ some entry then
      match entry with
      | .directory => IO.FS.createDirAll (placeText place)
      | .file content _ => IO.FS.writeBinFile (placeText place) content
  for (place, _) in before.entries.toList do
    unless after.entries.contains place do IO.FS.removeFile (placeText place)

/-- The paths that a configuration names. -/
def Config.paths (c : Config) : List Path :=
  c.inputs ++ c.libraries ++ c.output.toList ++ c.state.toList

/-- The files that a command works on. -/
def readFor (a : Arguments) : IO FileSystem := do
  let reportPlaces := a.report.toList ++ a.report.toList.map Path.parent
  let fs ← readPaths { now := ← presentTime } (a.root :: a.config.toList ++ reportPlaces)
  match a.job fs with
  | .ok job => readPaths fs job.project.config.paths
  | .error _ => return fs

def respond (r : Response) : IO UInt32 := do
  IO.print r.output
  IO.eprint r.errors
  return r.code.toUInt32

/-- Runs a job, and tells how long that took. -/
def runJob (job : Job) (fs : FileSystem) : IO UInt32 := do
  let palette : Palette := ⟨← (← IO.getStdout).isTty⟩
  let start ← IO.monoMsNow
  let (response, changed) ←
    match job.project.run job.mode fs with
    | .error e changed => pure (CommandLine.fail (.run e), changed)
    | .ok summary changed =>
      let duration := (← IO.monoMsNow) - start
      pure (CommandLine.answer (job.report palette { summary with duration }) changed)
  writeChanges fs changed
  respond response

/-- The unit files of a job with the times of their last change. -/
def unitTimes (job : Job) (fs : FileSystem) : List (Path × Nat) :=
  (job.project.config.programFiles fs ++ job.project.config.libraryFiles fs).filterMap fun p =>
    match fs.entry p with
    | .ok (.file _ time) => some (p, time)
    | _ => none

/-- Runs a job again whenever one of its unit files changes. -/
partial def watch (a : Arguments) (job : Job) (seen : List (Path × Nat)) : IO UInt32 := do
  IO.sleep 500
  let fs ← readFor a
  let times := unitTimes job fs
  if times ≠ seen then
    let _ ← runJob { job with mode := .auto } fs
  watch a job times

end Winnow

open Winnow in
def main (arguments : List String) : IO UInt32 := do
  match Arguments.parse arguments with
  | .error e => respond (CommandLine.interrupted e)
  | .ok a =>
    let fs ← readFor a
    match a.job fs with
    | .error e => respond (CommandLine.fail e)
    | .ok job =>
      let code ← runJob job fs
      if a.watch then watch a job (unitTimes job fs) else return code
