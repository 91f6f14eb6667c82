import Winnow.Data.Decode
import Winnow.Graph.Basic

/-!
# Counts of a graph
-/
namespace Winnow

structure GraphStats where
  programClasses : Nat := 0
  libraryClasses : Nat := 0
  unresolvedClasses : Nat := 0
  members : Nat := 0
  edges : Nat := 0
  warnings : Nat := 0
deriving DecidableEq, Repr, Inhabited

def Graph.stats (g : Graph) : GraphStats where
  programClasses := g.programClasses.length
  libraryClasses := (g.classes.filter (·.origin = .library)).length
  unresolvedClasses := (g.classes.filter (·.origin = .unresolved)).length
  members := g.members.length
  edges := g.edgeCount
  warnings := g.warnings

namespace GraphStats

def toData (s : GraphStats) : Data :=
  .record [
    ("program_classes", .natural s.programClasses),
    ("library_classes", .natural s.libraryClasses),
    ("unresolved_classes", .natural s.unresolvedClasses),
    ("members", .natural s.members),
    ("edges", .natural s.edges),
    ("warnings", .natural s.warnings)]

/-- A count that is not given is zero. -/
def ofData : Decoder GraphStats := fun d => do
  let fields ← Fields.of ["program_classes", "library_classes", "unresolved_classes", "members",
    "edges", "warnings"] d
  let count (name : String) := fields.withDefault name Data.asNatural 0
  return {
    programClasses := ← count "program_classes"
    libraryClasses := ← count "library_classes"
    unresolvedClasses := ← count "unresolved_classes"
    members := ← count "members"
    edges := ← count "edges"
    warnings := ← count "warnings" }

end GraphStats

end Winnow
