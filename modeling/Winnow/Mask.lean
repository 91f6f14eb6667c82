import Winnow.Graph.Basic
import Winnow.Retention

/-!
# Masks

What is left of a unit: the members that are kept, and of its lists and
annotations what still has a meaning. A class name is struck out only if it
names a class of the program that is not kept.
-/
namespace Winnow

structure KeepMask where
  class_ : String
  state : KeepState
  root : Bool
  methods : SortedSet MemberKey
  fields : SortedSet MemberKey
  interfaces : List String
  innerClasses : List InnerClass
  classAnnotations : SortedSet String
  /-- The annotation types kept on each member, by the text of its key. -/
  memberAnnotations : SortedMap String (SortedSet String)
  /-- The number of kept classes directly below this one. -/
  structuralDependents : Nat
deriving DecidableEq, Repr

namespace KeepMask

def memberCount (m : KeepMask) : Nat := m.methods.size + m.fields.size

/-- Nothing inside and nothing below. -/
def isEmptyShell (m : KeepMask) : Bool :=
  m.state = .shell && !m.root && m.memberCount = 0 && m.structuralDependents = 0

def retain (kept : SortedSet String) (annotations : List AnnotationUse) : List AnnotationUse :=
  annotations.filter (·.type ∈ kept)

def annotationsOf (m : KeepMask) (key : MemberKey) (annotations : List AnnotationUse) :
    List AnnotationUse :=
  match m.memberAnnotations.get? key.text with
  | some kept => retain kept annotations
  | none => []

/-- The unit as it is written. -/
def apply (m : KeepMask) (u : CompiledUnit) : CompiledUnit :=
  { u with
    interfaces := m.interfaces
    innerClasses := m.innerClasses
    annotations := retain m.classAnnotations u.annotations
    methods := (u.methods.filter (·.key ∈ m.methods)).map fun x =>
      { x with annotations := m.annotationsOf x.key x.annotations }
    fields := (u.fields.filter (·.key ∈ m.fields)).map fun x =>
      { x with annotations := m.annotationsOf x.key x.annotations } }

def keysToData (keys : SortedSet MemberKey) : Data :=
  .list (keys.toList.map fun k =>
    .record [("name", .string k.name), ("descriptor", .string k.descriptor)])

def toData (m : KeepMask) : Data :=
  .record [
    ("class", .string m.class_),
    ("state", .string m.state.name),
    ("root", .bool m.root),
    ("methods", keysToData m.methods),
    ("fields", keysToData m.fields),
    ("interfaces", .strings m.interfaces),
    ("inner_classes", .list (m.innerClasses.map InnerClass.toData)),
    ("class_annotations", m.classAnnotations.textsToData),
    ("member_annotations", .record (m.memberAnnotations.toList.map fun (key, kept) =>
      (key, kept.textsToData))),
    ("structural_dependents", .natural m.structuralDependents)]

end KeepMask

/-- A graph with what is kept of it. -/
structure Pruning where
  graph : Graph
  table : CounterTable
  /-- Does not write classes of which only an empty shell is kept. -/
  omitEmptyShells : Bool := false

namespace Pruning

/-- The name still means something. -/
def survives (p : Pruning) (name : String) : Bool :=
  match p.graph.class? name with
  | some c => !c.isProgram || p.table.isKept c.id
  | none => true

def survivors (p : Pruning) (names : SortedSet String) : SortedSet String := names.filter p.survives

/-- The members of a class that are kept in full. -/
def keptMembers (p : Pruning) (c : ClassNode) : List MemberNode :=
  (c.members.toList.filter p.table.isFullyKept).filterMap p.graph.member?

def dependents (p : Pruning) (id : NodeId) : Nat :=
  ((p.graph.incoming id).filter fun e => e.kind.isHierarchy && p.table.isKept e.source).length

def buildMask (p : Pruning) (c : ClassNode) (state : KeepState) : KeepMask :=
  let members := p.keptMembers c
  let key (m : MemberNode) : MemberKey := ⟨m.name, m.descriptor⟩
  { class_ := c.name
    state
    root := p.table.isRoot c.id
    methods := .ofList ((members.filter (·.isMethod)).map key)
    fields := .ofList ((members.filter (!·.isMethod)).map key)
    interfaces := c.interfaces.filter p.survives
    innerClasses := c.innerClasses.filter fun r => p.survives r.inner && r.outer.all p.survives
    classAnnotations := p.survivors c.annotations
    memberAnnotations := .ofList (members.map fun m => ((key m).text, p.survivors m.annotations))
    structuralDependents := p.dependents c.id }

/-- What is left of a class of the program, if it is kept. -/
def mask? (p : Pruning) (name : String) : Option KeepMask := do
  let c ← (p.graph.class? name).filter (·.isProgram)
  let state ← p.table.state? c.id
  return p.buildMask c state

/-- The masks of all kept classes of the program. -/
def masks (p : Pruning) : SortedMap String KeepMask :=
  .ofList (p.graph.programClasses.filterMap fun c =>
    (p.table.state? c.id).map fun state => (c.name, p.buildMask c state))

def writes (p : Pruning) (m : KeepMask) : Bool := !(p.omitEmptyShells && m.isEmptyShell)

/-- A class with that mask, if it has one, is written. -/
def emits (p : Pruning) (m : Option KeepMask) : Bool := m.any p.writes

end Pruning

end Winnow
