import Winnow.Json.Printer
import Winnow.Report.Terminal
import Winnow.Unit.Codec

/-!
# Reports
-/
namespace Winnow

inductive ReportFormat
  | terminal
  | json
deriving DecidableEq, Repr, Inhabited

/-- The format with a name as it stands in a configuration, in small or capital letters. -/
def ReportFormat.ofName? (name : String) : Option ReportFormat :=
  match name.map Char.toLower with
  | "terminal" | "text" => some .terminal
  | "json" => some .json
  | _ => none

/-- The name of the program. -/
def toolName : String := "classshrink"

def toolVersion : String := "0.1.0"

/-- A run as a record for other programs. -/
def RunSummary.report (s : RunSummary) : Data :=
  .ofFields ([("version", some (.string "1.0")), ("tool", some (.string toolName)),
    ("tool_version", some (.string toolVersion))] ++ s.fields)

def RunSummary.json (s : RunSummary) : String := Json.pretty s.report

end Winnow
