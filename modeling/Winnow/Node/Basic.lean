import Winnow.Path
import Winnow.Sorted.Set
import Winnow.Unit.Basic

/-!
# Nodes

What the graph knows of a class or member besides its edges: everything that a
unit declares, without the bodies.
-/
namespace Winnow

/-- Where a class comes from. -/
inductive Origin
  /-- Read from `source` as part of the program; pruned and written. -/
  | program (source : Path)
  /-- A library unit or a platform type; never written. -/
  | library
  /-- Mentioned, and not known. -/
  | unresolved
deriving DecidableEq, Repr

def Origin.isProgram : Origin → Bool
  | .program _ => true
  | _ => false

structure ClassNode where
  name : String
  modifiers : Modifiers := .none
  superclass : Option String := none
  interfaces : List String := []
  /-- The types of the annotations on the class. -/
  annotations : SortedSet String := ∅
  /-- The classes that the values of these annotations name. -/
  annotationRefs : SortedSet String := ∅
  signature : Option String := none
  innerClasses : List InnerClass := []
  /-- The members that the class declares. -/
  members : SortedSet NodeId := ∅
  origin : Origin
deriving DecidableEq, Repr

namespace ClassNode

/-- A class of which nothing is known but its name. -/
def placeholder (name : String) (origin : Origin) : ClassNode := { name, origin }

def id (c : ClassNode) : NodeId := .class_ c.name

def isProgram (c : ClassNode) : Bool := c.origin.isProgram

def isPlaceholder (c : ClassNode) : Bool :=
  !c.isProgram && c.members.isEmpty && c.superclass.isNone

end ClassNode

structure MemberNode where
  id : NodeId
  modifiers : Modifiers := .none
  annotations : SortedSet String := ∅
  annotationRefs : SortedSet String := ∅
  exceptions : List String := []
  annotationDefault : SortedSet String := ∅
  signature : Option String := none
deriving DecidableEq, Repr

namespace MemberNode

def name (m : MemberNode) : String := (m.id.member?.map (·.name)).getD ""

def descriptor (m : MemberNode) : String := (m.id.member?.map (·.descriptor)).getD ""

def isMethod (m : MemberNode) : Bool := m.id.kind = .method

end MemberNode

inductive Node
  | class_ (c : ClassNode)
  | member (m : MemberNode)
deriving DecidableEq, Repr

namespace Node

def id : Node → NodeId
  | .class_ c => c.id
  | .member m => m.id

def modifiers : Node → Modifiers
  | .class_ c => c.modifiers
  | .member m => m.modifiers

def annotations : Node → SortedSet String
  | .class_ c => c.annotations
  | .member m => m.annotations

def class? : Node → Option ClassNode
  | .class_ c => some c
  | .member _ => none

def member? : Node → Option MemberNode
  | .class_ _ => none
  | .member m => some m

end Node

def AnnotationUse.types (annotations : List AnnotationUse) : SortedSet String :=
  .ofList (annotations.map (·.type))

def AnnotationUse.allReferences (annotations : List AnnotationUse) : SortedSet String :=
  .ofList (annotations.flatMap (·.references))

/-- The node of a class, before its members are known. -/
def CompiledUnit.node (u : CompiledUnit) (origin : Origin) : ClassNode where
  name := u.name
  modifiers := u.modifiers
  superclass := u.superclass
  interfaces := u.interfaces
  annotations := AnnotationUse.types u.annotations
  annotationRefs := AnnotationUse.allReferences u.annotations
  signature := u.signature
  innerClasses := u.innerClasses
  origin := origin

def Method.node (owner : String) (m : Method) : MemberNode where
  id := m.id owner
  modifiers := m.modifiers
  annotations := AnnotationUse.types m.annotations
  annotationRefs := AnnotationUse.allReferences m.annotations
  exceptions := m.exceptions
  annotationDefault := .ofList m.annotationDefault
  signature := m.signature

def Field.node (owner : String) (f : Field) : MemberNode where
  id := f.id owner
  modifiers := f.modifiers
  annotations := AnnotationUse.types f.annotations
  annotationRefs := AnnotationUse.allReferences f.annotations
  signature := f.signature

/-- The nodes of the members that a unit declares, methods before fields. -/
def CompiledUnit.memberNodes (u : CompiledUnit) : List MemberNode :=
  u.methods.map (·.node u.name) ++ u.fields.map (·.node u.name)

end Winnow
