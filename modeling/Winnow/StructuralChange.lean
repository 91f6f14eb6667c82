import Winnow.Graph.Basic
import Winnow.Sorted.Map

/-!
# Structural changes

What keeps a run from starting where the last one stopped: anything new but
method bodies and generic signatures.
-/
namespace Winnow

inductive StructuralChange
  | fileAdded (path : Path)
  | fileRemoved (path : Path)
  | libraryChanged (path : Path)
  /-- The file holds a class that was not known to come from it. -/
  | classReplaced (path : Path) (name : String)
  | becameLibrary (name : String)
  | memberAdded (id : NodeId)
  | memberRemoved (id : NodeId)
  | superclass (name : String)
  | interfaces (name : String)
  | modifiers (id : NodeId)
  | annotationAdded (type : String) (target : NodeId)
  | annotationRemoved (type : String) (target : NodeId)
  | annotationValues (id : NodeId)
  | exceptions (id : NodeId)
  | annotationDefault (id : NodeId)
  | innerClasses (name : String)
  | keepRules (counterSet : String)
  | settings
deriving DecidableEq, Repr

/-- A member with its kind. -/
def NodeId.labelled (id : NodeId) : String := id.kind.label ++ " " ++ id.display

/-- A class by its name alone, a member with its kind. -/
def NodeId.subject : NodeId → String
  | .class_ name => name
  | id => id.labelled

namespace StructuralChange

def message : StructuralChange → String
  | .fileAdded path => s!"File {path.text} added."
  | .fileRemoved path => s!"File {path.text} removed."
  | .libraryChanged path => s!"Library {path.text} changed."
  | .classReplaced path name => s!"File {path.text} now declares {name}."
  | .becameLibrary name => s!"{name} became a library class."
  | .memberAdded id => s!"{id.labelled} added."
  | .memberRemoved id => s!"{id.labelled} removed."
  | .superclass name => s!"{name} superclass changed."
  | .interfaces name => s!"{name} interfaces changed."
  | .modifiers id => s!"{id.subject} modifiers changed."
  | .annotationAdded type target => s!"Annotation {type} on {target.display} added."
  | .annotationRemoved type target => s!"Annotation {type} on {target.display} removed."
  | .annotationValues id => s!"{id.subject} annotation values changed."
  | .exceptions id => s!"{id.subject} exceptions changed."
  | .annotationDefault id => s!"{id.subject} annotation default changed."
  | .innerClasses name => s!"{name} inner classes changed."
  | .keepRules counterSet => s!"Keep rules of counter-set {counterSet} changed."
  | .settings => "Platform or output settings changed."

/-- A change, if the two differ. -/
def when {α : Type} [DecidableEq α] (old new : α) (change : StructuralChange) :
    List StructuralChange :=
  if old = new then [] else [change]

def ofAnnotations (id : NodeId) (old new : SortedSet String) : List StructuralChange :=
  (new.diff old).map (.annotationAdded · id) ++ (old.diff new).map (.annotationRemoved · id)

def ofMember (old new : MemberNode) : List StructuralChange :=
  when old.modifiers new.modifiers (.modifiers old.id) ++
    ofAnnotations old.id old.annotations new.annotations ++
    when old.annotationRefs new.annotationRefs (.annotationValues old.id) ++
    when old.exceptions new.exceptions (.exceptions old.id) ++
    when old.annotationDefault new.annotationDefault (.annotationDefault old.id)

/-- The differences between two nodes of a class, members apart. -/
def ofClass (old new : ClassNode) : List StructuralChange :=
  when old.modifiers new.modifiers (.modifiers old.id) ++
    when old.superclass new.superclass (.superclass new.name) ++
    when old.interfaces new.interfaces (.interfaces new.name) ++
    ofAnnotations old.id old.annotations new.annotations ++
    when old.annotationRefs new.annotationRefs (.annotationValues old.id) ++
    when old.innerClasses new.innerClasses (.innerClasses new.name)

/-- The members of a unit by identity. -/
def freshMembers (u : CompiledUnit) : SortedMap NodeId MemberNode :=
  .ofList (u.memberNodes.map fun m => (m.id, m))

def ofMembers (g : Graph) (c : ClassNode) (u : CompiledUnit) : List StructuralChange :=
  let fresh := freshMembers u
  (c.members.toList.filter fun id => !fresh.contains id).map .memberRemoved ++
    fresh.toList.flatMap fun (id, new) =>
      match (g.member? id).filter fun _ => id ∈ c.members with
      | some old => ofMember old new
      | none => [.memberAdded id]

/-- The class was read from that file. -/
def comesFrom (c : ClassNode) (path : Path) : Bool :=
  match c.origin with
  | .program source => source.same path
  | _ => false

end StructuralChange

/-- How a unit differs from what the graph has of it, bodies and signatures apart. -/
def Graph.structuralChanges (g : Graph) (path : Path) (u : CompiledUnit) : List StructuralChange :=
  match (g.class? u.name).filter (StructuralChange.comesFrom · path) with
  | none => [.classReplaced path u.name]
  | some c =>
    if u.library then [.becameLibrary u.name]
    else StructuralChange.ofClass c (u.node (.program path)) ++ StructuralChange.ofMembers g c u

end Winnow
