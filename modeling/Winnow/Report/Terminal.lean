import Winnow.Report.Style
import Winnow.Summary

/-!
# Reports for a terminal
-/
namespace Winnow

namespace TerminalReport

/-- What a report shows, and how. -/
structure Options where
  palette : Palette := ⟨false⟩
  listClasses : Bool := false

def heading (o : Options) (s : RunSummary) : List String :=
  let paint := o.palette.paint
  let title := paint (.bold ++ .cyan) (if s.mode = .incremental then "Incremental run" else "Full run")
  let duration := paint .dimmed s!"({s.duration}ms)"
  let fallback := s.fallback.map fun reason =>
    "  " ++ paint .yellow "fell back:" ++ " " ++ paint .dimmed reason
  let modified := if s.mode = .incremental then
    [s!"  {s.modifiedUnits} modified units re-linked"] else []
  ["", s!"{title} {duration}"] ++ fallback.toList ++ modified

def graphLine (g : GraphStats) : String :=
  s!"  {g.programClasses} program, {g.libraryClasses} library, {g.unresolvedClasses} unresolved " ++
    s!"classes; {g.members} members, {g.edges} edges"

def counterSet (o : Options) (emitted : String) (s : CounterSetSummary) : List String :=
  let paint := o.palette.paint
  let mark := if s.name = emitted then paint (.bold ++ .green) "●" else paint .dimmed "○"
  let keptClasses := paint .green (toString s.keptClasses)
  let removedClasses := paint .red (toString s.removedClasses)
  let keptMembers := paint .green (toString s.keptMembers)
  let removedMembers := paint .red (toString s.removedMembers)
  let name := paint .bold s.name
  let roots := paint .dimmed s!"({s.roots} roots)"
  let classes :=
    s.kept.map (fun name => "      " ++ paint .green "+" ++ " " ++ name) ++
    s.removed.map fun name => "      " ++ paint .red "-" ++ " " ++ paint .dimmed name
  [s!"{mark} {name} {roots}",
    s!"    classes: {keptClasses} kept ({s.shellClasses} shells), {removedClasses} removed",
    s!"    members: {keptMembers} kept, {removedMembers} removed"] ++
    (if o.listClasses then classes else []) ++ [""]

def outputLines (o : Options) (s : RunSummary) : List String :=
  let paint := o.palette.paint
  match s.output with
  | none => [paint .dimmed "No output directory configured; nothing written."]
  | some path =>
    let written := paint .green (toString s.emit.written)
    let deleted := paint .red (toString s.emit.deleted)
    let changed := if s.mode = .incremental then
      [s!"  {s.refreshed.length} rewritten, {s.retracted.length} retracted"] else []
    let place := paint .cyan path.text
    s!"Output: {written} written, {deleted} deleted, {s.emit.omitted} omitted in {place}" :: changed

def warningLines (o : Options) (s : RunSummary) : List String :=
  if s.warnings = 0 then []
  else [o.palette.paint .yellow s!"⚠ {s.warnings} unresolved references"]

def rule : String := String.ofList (List.replicate 60 '─')

def lines (o : Options) (s : RunSummary) : List String :=
  heading o s ++ [graphLine s.graph, ""] ++ s.counterSets.flatMap (counterSet o s.emitted) ++
    [o.palette.paint .dimmed rule] ++ outputLines o s ++ warningLines o s

def render (o : Options) (s : RunSummary) : String := String.join ((lines o s).map (· ++ "\n"))

end TerminalReport

end Winnow
