import Winnow.Graph.Cycle
import Winnow.Link.Unit
import Winnow.Unit.Check

/-!
# Programs

The units of a program and of its libraries, gathered first and linked
together once all names are known.
-/
namespace Winnow

inductive BuildError
  | unit (error : UnitError)
  | duplicateClass (name : String)
  | cyclicHierarchy (name : String)
deriving DecidableEq, Repr

def BuildError.message : BuildError → String
  | .unit error => error.message
  | .duplicateClass name => s!"class {name} is defined by more than one program unit"
  | .cyclicHierarchy name => s!"cyclic class hierarchy through {name}"

/-- A unit with the path of its file. -/
structure SourcedUnit where
  unit : CompiledUnit
  source : Path
deriving DecidableEq, Repr

structure Program where
  platform : Platform
  units : List SourcedUnit := []
  libraries : List CompiledUnit := []
deriving DecidableEq, Repr

def CompiledUnit.checked (u : CompiledUnit) : Except BuildError Unit :=
  match u.check with
  | .ok () => .ok ()
  | .error e => .error (.unit e)

namespace Program

def names (p : Program) : List String := p.units.map (·.unit.name)

/-- A unit for the root of the hierarchy is passed over. -/
def addLibrary (p : Program) (u : CompiledUnit) : Except BuildError Program := do
  u.checked
  return if u.name = objectClass then p else { p with libraries := p.libraries ++ [u] }

/-- A unit may itself say that it belongs to a library. -/
def addUnit (p : Program) (u : CompiledUnit) (source : Path) : Except BuildError Program := do
  u.checked
  if u.name = objectClass then return p
  if u.library then return { p with libraries := p.libraries ++ [u] }
  if u.name ∈ p.names then throw (.duplicateClass u.name)
  return { p with units := p.units ++ [⟨u, source⟩] }

/-- The library units that no unit of the program shadows. -/
def visibleLibraries (p : Program) : List CompiledUnit :=
  p.libraries.filter (·.name ∉ p.names)

/-- The graph with all classes and members and no edge. -/
def declared (p : Program) : Graph :=
  let g := p.units.foldl (fun g s => g.declare s.unit (.program s.source)) Graph.empty
  p.visibleLibraries.foldl (fun g u => g.declare u .library) g

/-- The graph with its hierarchy only. -/
def skeleton (p : Program) : Graph :=
  (p.units.map (·.unit) ++ p.visibleLibraries).foldl
    (fun g u => g.applyLinks p.platform u.hierarchyLinks) p.declared

/-- Links everything else; only the units of the program have more to link. -/
def complete (p : Program) (g : Graph) : Graph :=
  let g := p.units.foldl
    (fun g s => g.applyLinks p.platform (s.unit.declarationLinks ++ s.unit.bodyLinks)) g
  p.units.foldl (fun g' s => g'.linkOverrides g.hierarchy s.unit) g

def build (p : Program) : Except BuildError Graph :=
  match p.skeleton.cycle? with
  | some name => .error (.cyclicHierarchy name)
  | none => .ok (p.complete p.skeleton)

end Program

end Winnow
