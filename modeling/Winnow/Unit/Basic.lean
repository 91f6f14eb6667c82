import Winnow.Modifiers
import Winnow.NodeId

/-!
# Compiled units

A unit is one class with the members it declares. Method bodies are lists of
the symbolic references they make; everything else about code is left out.
-/
namespace Winnow

/-- The root of the class hierarchy. It is never a node of the graph. -/
def objectClass : String := "java/lang/Object"

def constructorName : String := "<init>"

def staticInitializerName : String := "<clinit>"

/-- An annotation on a class or member. -/
structure AnnotationUse where
  type : String
  /-- The classes that the values of its elements name. -/
  references : List String := []
  /-- An annotation that is not visible makes no demand on its type. -/
  visible : Bool := true
deriving DecidableEq, Repr

/-- An entry of the table of nested types. -/
structure InnerClass where
  inner : String
  outer : Option String := none
  simpleName : Option String := none
  modifiers : Modifiers := .none
deriving DecidableEq, Repr

/-- The entry of a class whose simple name is what follows the last `$`. -/
def InnerClass.named (inner : String) (outer : Option String) : InnerClass where
  inner := inner
  outer := outer
  simpleName := some (String.ofList (inner.toList.reverse.takeWhile (· ≠ '$')).reverse)

namespace InnerClass

/-- No text at all comes before every text. -/
def rankText : Option String → String
  | none => "0"
  | some s => "1" ++ s

/-- What entries are ordered by first. -/
def names (r : InnerClass) : List String := [r.inner, rankText r.outer, rankText r.simpleName]

def flags (r : InnerClass) : Nat := r.modifiers.bits.toNat

instance : Ord InnerClass := ⟨compareLex (compareOn names) (compareOn flags)⟩

instance : Std.TransOrd InnerClass :=
  inferInstanceAs (Std.TransCmp (compareLex (compareOn names) (compareOn flags)))

end InnerClass

inductive Dispatch
  | static | special | virtual | interface
deriving DecidableEq, Repr

/-- A reference in a method body. -/
inductive Instruction
  | invoke (dispatch : Dispatch) (target : MemberRef)
  | field (target : MemberRef)
  | new (class_ : String)
  /-- A cast, a type test, the creation of an array, the type of a handler. -/
  | type (class_ : String)
  | classLiteral (class_ : String)
  /-- A look-up by name at run time of which the names are known. -/
  | reflect (class_ : String) (member descriptor : Option String)
deriving DecidableEq, Repr

structure Method where
  name : String
  descriptor : String
  modifiers : Modifiers := .none
  annotations : List AnnotationUse := []
  exceptions : List String := []
  signature : Option String := none
  /-- The classes that the default value of an annotation element names. -/
  annotationDefault : List String := []
  body : List Instruction := []
deriving DecidableEq, Repr

namespace Method

def key (m : Method) : MemberKey := ⟨m.name, m.descriptor⟩

/-- The method as a member of `owner`. -/
def id (owner : String) (m : Method) : NodeId := .method ⟨owner, m.name, m.descriptor⟩

/-- A public method with an empty body. -/
def blank (name descriptor : String) : Method := { name, descriptor, modifiers := .publicOnly }

/-- The method with one more instruction at the end of its body. -/
def extend (m : Method) (i : Instruction) : Method := { m with body := m.body ++ [i] }

def calls (m : Method) (dispatch : Dispatch) (target : MemberRef) : Method :=
  m.extend (.invoke dispatch target)

/-- Creates an object and runs its constructor without arguments. -/
def instantiates (m : Method) (class_ : String) : Method :=
  (m.extend (.new class_)).calls .special ⟨class_, constructorName, "()V"⟩

/-- A constructor without arguments that runs the one of `superclass`. -/
def defaultConstructor (superclass : String) : Method :=
  (blank constructorName "()V").calls .special ⟨superclass, constructorName, "()V"⟩

end Method

structure Field where
  name : String
  descriptor : String
  modifiers : Modifiers := .none
  annotations : List AnnotationUse := []
  signature : Option String := none
deriving DecidableEq, Repr

namespace Field

def key (f : Field) : MemberKey := ⟨f.name, f.descriptor⟩

/-- The field as a member of `owner`. -/
def id (owner : String) (f : Field) : NodeId := .field ⟨owner, f.name, f.descriptor⟩

def blank (name descriptor : String) : Field := { name, descriptor, modifiers := .publicOnly }

end Field

/-- One class and everything it declares. -/
structure CompiledUnit where
  name : String
  modifiers : Modifiers := .none
  superclass : Option String := none
  interfaces : List String := []
  annotations : List AnnotationUse := []
  signature : Option String := none
  innerClasses : List InnerClass := []
  /-- Of a library unit only the declarations count. -/
  library : Bool := false
  methods : List Method := []
  fields : List Field := []
deriving DecidableEq, Repr

namespace CompiledUnit

/-- A public class without members, directly below the root of the hierarchy. -/
def blank (name : String) : CompiledUnit :=
  { name, modifiers := .publicOnly, superclass := some objectClass }

def id (u : CompiledUnit) : NodeId := .class_ u.name

def method? (u : CompiledUnit) (key : MemberKey) : Option Method := u.methods.find? (·.key = key)

def field? (u : CompiledUnit) (key : MemberKey) : Option Field := u.fields.find? (·.key = key)

/-- The class and its members, methods before fields. -/
def nodeIds (u : CompiledUnit) : List NodeId :=
  u.id :: u.methods.map (·.id u.name) ++ u.fields.map (·.id u.name)

end CompiledUnit

end Winnow
