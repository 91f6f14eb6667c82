import Winnow.CommandLine.Arguments
import Winnow.Config.File
import Winnow.Run

/-!
# The command line

What a command comes to: the text on standard output, a message on standard
error if it fails, and the exit code. Standard output stays empty on failure.
-/
namespace Winnow

inductive CommandError
  | usage (error : UsageError)
  | config (error : ConfigError)
  | notADirectory (path : Path)
  | unknownFormat (name : String)
  | run (error : RunError)
  | report (detail : String)
deriving DecidableEq, Repr

namespace CommandError

def message : CommandError → String
  | .usage error => error.message
  | .config error => error.message
  | .notADirectory path => s!"Invalid project path: {path.text} is not a directory"
  | .unknownFormat name => "Unknown report format \x60" ++ name ++ "\x60"
  | .run error => error.message
  | .report detail => detail

def exitCode : CommandError → UInt8
  | .usage _ => 2
  | _ => 1

end CommandError

/-- A run with what is to be done about its report. -/
structure Job where
  project : Project
  mode : RunMode
  format : ReportFormat
  /-- Where a report for other programs goes instead of standard output. -/
  reportFile : Option Path

namespace Arguments

/-- The directory of the project. -/
def root (a : Arguments) : Path := a.path.getD ⟨"."⟩

/-- The configuration with what the arguments say about it. -/
def override (a : Arguments) (c : Config) : Config :=
  { c with
    inputs := if a.inputs = [] then c.inputs else a.inputs
    libraries := if a.libraries = [] then c.libraries else a.libraries
    output := a.output <|> c.output
    state := a.state <|> c.state
    exclude := c.exclude ++ a.excludes
    emit := a.counterSet.getD c.emit
    report := { c.report with listClasses := a.listClasses || c.report.listClasses } }

def loadConfig (a : Arguments) (fs : FileSystem) : Except ConfigError Config :=
  match a.config with
  | some path => Config.load fs path
  | none => Config.loadDefault fs a.root

def reportFormat (a : Arguments) (c : Config) : Except CommandError ReportFormat :=
  match a.format, a.report with
  | some format, _ => .ok format
  | none, some _ => .ok .json
  | none, none =>
    match ReportFormat.ofName? c.report.format with
    | some format => .ok format
    | none => .error (.unknownFormat c.report.format)

def job (a : Arguments) (fs : FileSystem) : Except CommandError Job := do
  let config := a.override (← (a.loadConfig fs).mapError .config)
  match fs.entry a.root with
  | .ok .directory => pure ()
  | _ => throw (.notADirectory a.root)
  return {
    project := ⟨config.rooted a.root, a.root⟩
    mode := a.mode.getD .auto
    format := ← a.reportFormat config
    reportFile := a.report }

end Arguments

namespace Job

/-- Reports on a run, and hands back what is printed. -/
def report (j : Job) (palette : Palette) (s : RunSummary) : Disk CommandError String :=
  match j.format, j.reportFile with
  | .terminal, _ =>
    return TerminalReport.render ⟨palette, j.project.config.report.listClasses⟩ s
  | .json, none => return s.json ++ "\n"
  | .json, some path => do
    Disk.change (fun fs => fs.write path s.json.toUTF8) fun e => .report e.message
    return s!"Report written to: {path.text}\n"

/-- Runs a project and reports on it. -/
def run (j : Job) (palette : Palette) : Disk CommandError String := do
  j.report palette (← (j.project.run j.mode).within .run)

end Job

/-- What a command leaves behind on the terminal. -/
structure Response where
  code : UInt8 := 0
  output : String := ""
  errors : String := ""
deriving DecidableEq, Repr

namespace CommandLine

/-- The width of a line of help. -/
def helpWidth : Nat := 100

/-- Puts words together to lines, each as long as it fits. -/
def fill (width : Nat) (lines : List String) (word : String) : List String :=
  match lines with
  | [] => [word]
  | line :: lines =>
    if line.length + 1 + word.length ≤ width then (line ++ " " ++ word) :: lines
    else word :: line :: lines

/-- A text in lines of some width, all but the first indented. -/
def wrapped (width indent : Nat) (text : String) : String :=
  Text.joined ("\n" ++ "".pushn ' ' indent) (((text.splitOn " ").foldl (fill width) []).reverse)

def optionHelp (column : Nat) (f : OptionForm) : String :=
  let usage := "  " ++ f.usage
  usage.pushn ' ' (column - usage.length) ++ wrapped (helpWidth - column) column f.about ++ "\n"

/-- The text that explains the command. -/
def help : String :=
  let column := (OptionForm.all.map fun f => f.usage.length).foldl max 0 + 4
  let about := "Whole-program class shrinker: removes unreachable classes, methods and fields, " ++
    "with incremental re-runs"
  wrapped helpWidth 0 about ++ "\n\nUsage: " ++ toolName ++ " [OPTIONS] [PATH]\n\nArguments:\n" ++
    "  [PATH]  Project directory; relative paths in the config resolve against it [default: .]\n" ++
    "\nOptions:\n" ++ String.join (OptionForm.all.map (optionHelp column))

def fail (e : CommandError) : Response where
  code := e.exitCode
  errors := s!"error: {e.message}\n"

/-- What the reading of arguments comes to if it ends early. -/
def interrupted : Interruption → Response
  | .help => { output := help }
  | .version => { output := s!"{toolName} {toolVersion}\n" }
  | .usage error => fail (.usage error)

/-- What work on a file system comes to. -/
def answer (act : Disk CommandError String) (fs : FileSystem) : Response × FileSystem :=
  match act fs with
  | .ok output fs => ({ output }, fs)
  | .error e fs => (fail e, fs)

/-- Runs a command once. -/
def run (arguments : List String) (palette : Palette) (fs : FileSystem) : Response × FileSystem :=
  match Arguments.parse arguments with
  | .error e => (interrupted e, fs)
  | .ok a =>
    match a.job fs with
    | .error e => (fail e, fs)
    | .ok job => answer (job.run palette) fs

end CommandLine

end Winnow
