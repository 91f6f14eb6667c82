import Winnow.Path
import Winnow.Report.Basic

/-!
# Arguments

The command line of a run. An option is written out or as one letter; its value
stands in the same argument or in the next one. Letters may be gathered behind
one dash, and after two dashes alone everything is a plain argument. Arguments
are taken from left to right, and the first that ends the reading decides.
-/
namespace Winnow

inductive CommandOption
  | config
  | input
  | library
  | output
  | state
  | exclude
  | mode
  | counterSet
  | format
  | report
  | listClasses
  | watch
  | verbose
  | quiet
  | help
  | version
deriving DecidableEq, Repr

/-- How an option is written. -/
structure OptionForm where
  option : CommandOption
  letter : Option Char
  word : String
  /-- What its value is called; without it the option has none. -/
  value : Option String
  about : String

namespace OptionForm

def all : List OptionForm := [
  ⟨.config, some 'c', "config", some "CONFIG", "Path to configuration file"⟩,
  ⟨.input, some 'i', "input", some "INPUT",
    "Directories holding program unit files (can be specified multiple times)"⟩,
  ⟨.library, some 'l', "library", some "LIBRARY",
    "Directories holding library unit files (can be specified multiple times)"⟩,
  ⟨.output, some 'o', "output", some "OUTPUT", "Directory the pruned units are written to"⟩,
  ⟨.state, none, "state", some "FILE",
    "Snapshot file used between runs (default: .classshrink-state.json)"⟩,
  ⟨.exclude, some 'e', "exclude", some "EXCLUDE",
    "Patterns to exclude from discovery (can be specified multiple times)"⟩,
  ⟨.mode, some 'm', "mode", some "MODE",
    "Full run, incremental run, or incremental with full fallback [default: auto] " ++
      "[possible values: full, incremental, auto]"⟩,
  ⟨.counterSet, none, "counter-set", some "NAME",
    "Counter-set whose result is written to the output directory"⟩,
  ⟨.format, some 'f', "format", some "FORMAT",
    "Report format [possible values: terminal, json]"⟩,
  ⟨.report, some 'r', "report", some "FILE",
    "Write the JSON report to a file instead of stdout (implies --format json)"⟩,
  ⟨.listClasses, none, "list-classes", none, "List kept and removed classes in the report"⟩,
  ⟨.watch, none, "watch", none, "Watch mode - re-run whenever a unit file changes"⟩,
  ⟨.verbose, some 'v', "verbose", none, "Verbose output"⟩,
  ⟨.quiet, some 'q', "quiet", none, "Quiet mode - only output results"⟩,
  ⟨.help, some 'h', "help", none, "Print help"⟩,
  ⟨.version, some 'V', "version", none, "Print version"⟩]

def ofLetter? (c : Char) : Option OptionForm := all.find? (·.letter = some c)

def ofWord? (word : String) : Option OptionForm := all.find? (·.word = word)

/-- The option as it stands in the help text. -/
def usage (f : OptionForm) : String :=
  let letter := match f.letter with
    | some c => "-" ++ c.toString ++ ", "
    | none => "    "
  let value := match f.value with
    | some name => " <" ++ name ++ ">"
    | none => ""
  letter ++ "--" ++ f.word ++ value

end OptionForm

inductive UsageError
  | unknown (argument : String)
  | unexpectedValue (word : String)
  | missingValue (word : String)
  | repeated (word : String)
  | badValue (word value : String)
deriving DecidableEq, Repr

def UsageError.message : UsageError → String
  | .unknown argument => "unexpected argument '" ++ argument ++ "' found"
  | .unexpectedValue word => "unexpected value for '--" ++ word ++ "' found"
  | .missingValue word => "a value is required for '--" ++ word ++ "' but none was supplied"
  | .repeated word => "the argument '--" ++ word ++ "' cannot be used multiple times"
  | .badValue word value => "invalid value '" ++ value ++ "' for '--" ++ word ++ "'"

/-- What ends the reading of a command line early. -/
inductive Interruption
  | help
  | version
  | usage (error : UsageError)
deriving DecidableEq, Repr

structure Arguments where
  path : Option Path := none
  config : Option Path := none
  inputs : List Path := []
  libraries : List Path := []
  output : Option Path := none
  state : Option Path := none
  excludes : List String := []
  mode : Option RunMode := none
  counterSet : Option String := none
  format : Option ReportFormat := none
  report : Option Path := none
  listClasses : Bool := false
  watch : Bool := false
  verbose : Bool := false
  quiet : Bool := false
deriving DecidableEq, Repr

namespace Arguments

def reportFormat? : String → Option ReportFormat
  | "terminal" => some .terminal
  | "json" => some .json
  | _ => none

/-- A path has at least one character. -/
def path? (value : String) : Option Path := if value = "" then none else some ⟨value⟩

/-- The value of an option that may be given once. -/
def once {α : Type} (f : OptionForm) (read : String → Option α) (old : Option α)
    (value : String) : Except UsageError (Option α) :=
  match read value, old with
  | none, _ => .error (.badValue f.word value)
  | some _, some _ => .error (.repeated f.word)
  | some new, none => .ok (some new)

/-- One more value of an option that may be given several times. -/
def more {α : Type} (f : OptionForm) (read : String → Option α) (old : List α)
    (value : String) : Except UsageError (List α) :=
  match read value with
  | none => .error (.badValue f.word value)
  | some new => .ok (old ++ [new])

def flag (f : OptionForm) (old : Bool) : Except UsageError Bool :=
  if old then .error (.repeated f.word) else .ok true

/-- Takes an option with its value. -/
def set (a : Arguments) (f : OptionForm) (value : String) : Except UsageError Arguments := do
  match f.option with
  | .config => return { a with config := ← once f path? a.config value }
  | .input => return { a with inputs := ← more f path? a.inputs value }
  | .library => return { a with libraries := ← more f path? a.libraries value }
  | .output => return { a with output := ← once f path? a.output value }
  | .state => return { a with state := ← once f path? a.state value }
  | .exclude => return { a with excludes := ← more f some a.excludes value }
  | .mode => return { a with mode := ← once f RunMode.ofName? a.mode value }
  | .counterSet => return { a with counterSet := ← once f some a.counterSet value }
  | .format => return { a with format := ← once f reportFormat? a.format value }
  | .report => return { a with report := ← once f path? a.report value }
  | _ => throw (.unexpectedValue f.word)

/-- Takes an option without a value. -/
def turnOn (a : Arguments) (f : OptionForm) : Except Interruption Arguments :=
  let settle (r : Except UsageError Arguments) : Except Interruption Arguments :=
    r.mapError .usage
  match f.option with
  | .help => .error .help
  | .version => .error .version
  | .listClasses => settle do return { a with listClasses := ← flag f a.listClasses }
  | .watch => settle do return { a with watch := ← flag f a.watch }
  | .verbose => settle do return { a with verbose := ← flag f a.verbose }
  | .quiet => settle do return { a with quiet := ← flag f a.quiet }
  | _ => .error (.usage (.missingValue f.word))

def setPath (a : Arguments) (value : String) : Except UsageError Arguments :=
  match a.path, path? value with
  | none, some p => .ok { a with path := some p }
  | none, none => .error (.badValue "path" value)
  | some _, _ => .error (.unknown value)

/-- Begins with a dash, and is more than that. -/
def isOption (argument : String) : Bool :=
  Text.startsWith argument "-" && argument ≠ "-"

/-- Reads letters behind a dash. An option that still wants its value is handed back. -/
def readLetters (a : Arguments) : List Char → Except Interruption (Arguments × Option OptionForm)
  | [] => .ok (a, none)
  | c :: rest =>
    match OptionForm.ofLetter? c with
    | none => .error (.usage (.unknown ("-" ++ c.toString)))
    | some f =>
      match f.value, rest with
      | none, _ => do (← a.turnOn f).readLetters rest
      | some _, [] => .ok (a, some f)
      | some _, '=' :: value => do
        return (← (a.set f (String.ofList value)).mapError .usage, none)
      | some _, value => do
        return (← (a.set f (String.ofList value)).mapError .usage, none)

/-- Reads an option written out, of which the dashes are left off. -/
def readWord (a : Arguments) (argument : List Char) :
    Except Interruption (Arguments × Option OptionForm) :=
  let (word, value) := match Text.cut '=' argument with
    | some (word, value) => (String.ofList word, some (String.ofList value))
    | none => (String.ofList argument, none)
  match OptionForm.ofWord? word with
  | none => .error (.usage (.unknown ("--" ++ word)))
  | some f =>
    match f.value, value with
    | some _, some v => do return (← (a.set f v).mapError .usage, none)
    | some _, none => .ok (a, some f)
    | none, some _ => .error (.usage (.unexpectedValue word))
    | none, none => do return (← a.turnOn f, none)

def readOption (a : Arguments) (argument : String) :
    Except Interruption (Arguments × Option OptionForm) :=
  match argument.toList with
  | '-' :: '-' :: word => a.readWord word
  | _ :: letters => a.readLetters letters
  | [] => .ok (a, none)

/-- Reads the arguments one after the other; `pending` is an option that wants its value. -/
def read (a : Arguments) (pending : Option OptionForm) :
    List String → Except Interruption Arguments
  | [] =>
    match pending with
    | some f => .error (.usage (.missingValue f.word))
    | none => .ok a
  | argument :: rest =>
    match pending with
    | some f =>
      if isOption argument then .error (.usage (.missingValue f.word))
      else do (← (a.set f argument).mapError .usage).read none rest
    | none =>
      if argument = "--" then (rest.foldlM setPath a).mapError .usage
      else if isOption argument then do
        let (a, pending) ← a.readOption argument
        a.read pending rest
      else do (← (a.setPath argument).mapError .usage).read none rest

def parse (arguments : List String) : Except Interruption Arguments := read {} none arguments

end Arguments

end Winnow
