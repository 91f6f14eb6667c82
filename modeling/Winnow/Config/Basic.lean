import Winnow.Exclusion
import Winnow.KeepRule
import Winnow.Path
import Winnow.Platform
import Winnow.Sorted.Map

/-!
# Configuration

What a run works on and what it keeps. Everything has a default.
-/
namespace Winnow

structure ReportSettings where
  format : String := "terminal"
  /-- Lists the kept and removed classes, not only their numbers. -/
  listClasses : Bool := false
deriving DecidableEq, Repr

structure Config where
  /-- Where the units of the program are. -/
  inputs : List Path := []
  /-- Where the units of its libraries are. -/
  libraries : List Path := []
  /-- Where pruned units go; without it nothing is written. -/
  output : Option Path := none
  /-- Where the state between runs is kept. -/
  state : Option Path := none
  exclude : List String := ["**/build/tmp/**", "**/.gradle/**"]
  platform : Platform := {}
  /-- The keep rules of each counter-set. -/
  keep : SortedMap String (List KeepRuleText) := ∅
  /-- The counter-set whose result is written. -/
  emit : String := "shrink"
  /-- Leaves out classes of which nothing but an empty shell is kept. -/
  omitEmptyShells : Bool := false
  report : ReportSettings := {}
deriving DecidableEq, Repr

namespace ReportSettings

def toData (r : ReportSettings) : Data :=
  .record [("format", .string r.format), ("list_classes", .bool r.listClasses)]

def ofData : Decoder ReportSettings := fun d => do
  let fields ← Fields.of ["format", "list_classes"] d
  return {
    format := ← fields.withDefault "format" Data.asString "terminal"
    listClasses := ← fields.withDefault "list_classes" Data.asBool false }

end ReportSettings

def Path.toData (p : Path) : Data := .string p.text

def Data.asPath : Decoder Path := fun d => return ⟨← d.asString⟩

namespace Config

def toData (c : Config) : Data :=
  let path? (p : Option Path) : Data := .ofString? (p.map (·.text))
  .record [
    ("inputs", .list (c.inputs.map Path.toData)),
    ("libraries", .list (c.libraries.map Path.toData)),
    ("output", path? c.output),
    ("state", path? c.state),
    ("exclude", .strings c.exclude),
    ("platform", c.platform.toData),
    ("keep", .record (c.keep.toList.map fun (name, rules) =>
      (name, .list (rules.map KeepRuleText.toData)))),
    ("emit", .string c.emit),
    ("omit_empty_shells", .bool c.omitEmptyShells),
    ("report", c.report.toData)]

def ofData : Decoder Config := fun d => do
  let fields ← Fields.of ["inputs", "libraries", "output", "state", "exclude", "platform", "keep",
    "emit", "omit_empty_shells", "report"] d
  let default : Config := {}
  return {
    inputs := ← fields.withDefault "inputs" (Data.asList Data.asPath) []
    libraries := ← fields.withDefault "libraries" (Data.asList Data.asPath) []
    output := ← fields.withDefault "output" (Data.asOptional Data.asPath) none
    state := ← fields.withDefault "state" (Data.asOptional Data.asPath) none
    exclude := ← fields.withDefault "exclude" (Data.asList Data.asString) default.exclude
    platform := ← fields.withDefault "platform" Platform.ofData {}
    keep := .ofList (← fields.withDefault "keep"
      (Data.asEntries (Data.asList KeepRuleText.ofData)) [])
    emit := ← fields.withDefault "emit" Data.asString default.emit
    omitEmptyShells := ← fields.withDefault "omit_empty_shells" Data.asBool false
    report := ← fields.withDefault "report" ReportSettings.ofData {} }

/-- The configuration with its relative paths taken from the project's directory, which is also
where the units are if nothing else is said. -/
def rooted (c : Config) (project : Path) : Config :=
  let inputs := c.inputs.map project.join
  { c with
    inputs := if inputs = [] then [project] else inputs
    libraries := c.libraries.map project.join
    output := c.output.map project.join
    state := c.state.map project.join }

/-- The file that keeps the state between runs. -/
def statePath (c : Config) (project : Path) : Path :=
  c.state.getD (project / ".classshrink-state.json")

def excludes (c : Config) (p : Path) : Bool :=
  c.exclude.any fun pattern => (Exclusion.parse pattern).covers p.text

/-- The counter-sets with rules, and the one that is written. -/
def counterSetNames (c : Config) : List String :=
  (SortedSet.ofList (c.emit :: c.keep.keys)).toList

/-- The rules of all counter-sets; one that has none keeps nothing. -/
def keepRules (c : Config) : Except KeepRuleError (List KeepRules) :=
  c.counterSetNames.mapM fun name => KeepRules.compile name ((c.keep.get? name).getD [])

end Config

end Winnow
