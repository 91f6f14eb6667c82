import Winnow.Data.Decode
import Winnow.Unit.Basic

/-!
# Units as data

The shape in which units are stored. Empty lists and absent texts are mostly
left out when a unit is written, and take these values when it is read.
-/
namespace Winnow

namespace Data

/-- A record of those fields that have a value. -/
def ofFields (fields : List (String × Option Data)) : Data :=
  .record (fields.filterMap fun (name, d) => d.map (name, ·))

/-- A list that is left out when it is empty. -/
def unlessEmpty : List Data → Option Data
  | [] => none
  | items => some (.list items)

end Data

namespace Modifiers

def toData (m : Modifiers) : Data := .natural m.bits.toNat

def ofData : Decoder Modifiers := fun d => return ⟨← d.asUInt32⟩

end Modifiers

namespace AnnotationUse

def toData (a : AnnotationUse) : Data :=
  .ofFields [
    ("type", some (.string a.type)),
    ("references", Data.unlessEmpty (a.references.map .string)),
    ("visible", some (.bool a.visible))]

def ofData : Decoder AnnotationUse := fun d => do
  let fields ← Fields.of ["type", "references", "visible"] d
  return {
    type := ← fields.required "type" Data.asString
    references := ← fields.withDefault "references" (Data.asList Data.asString) []
    visible := ← fields.withDefault "visible" Data.asBool true }

end AnnotationUse

namespace InnerClass

def toData (r : InnerClass) : Data :=
  .record [
    ("inner", .string r.inner),
    ("outer", .ofString? r.outer),
    ("simple_name", .ofString? r.simpleName),
    ("modifiers", r.modifiers.toData)]

def ofData : Decoder InnerClass := fun d => do
  let fields ← Fields.of ["inner", "outer", "simple_name", "modifiers"] d
  return {
    inner := ← fields.required "inner" Data.asString
    outer := ← fields.withDefault "outer" (Data.asOptional Data.asString) none
    simpleName := ← fields.withDefault "simple_name" (Data.asOptional Data.asString) none
    modifiers := ← fields.withDefault "modifiers" Modifiers.ofData .none }

end InnerClass

namespace Dispatch

def name : Dispatch → String
  | .static => "static"
  | .special => "special"
  | .virtual => "virtual"
  | .interface => "interface"

def ofName? (s : String) : Option Dispatch :=
  [static, special, virtual, interface].find? (·.name = s)

/-- A name alone, or the name of an empty value. -/
def ofData : Decoder Dispatch := fun d => do
  let s ← match d with
    | .record [(s, .record [])] => pure s
    | d => d.asName
  match ofName? s with
  | some dispatch => return dispatch
  | none => throw (.unknownName s)

end Dispatch

namespace Instruction

def op : Instruction → String
  | .invoke .. => "invoke"
  | .field .. => "field"
  | .new .. => "new"
  | .type .. => "type"
  | .classLiteral .. => "class_literal"
  | .reflect .. => "reflect"

def toData (i : Instruction) : Data :=
  let target (r : MemberRef) : List (String × Data) :=
    [("owner", .string r.owner), ("name", .string r.name), ("descriptor", .string r.descriptor)]
  .record (("op", .string i.op) :: match i with
    | .invoke dispatch r => ("dispatch", .string dispatch.name) :: target r
    | .field r => target r
    | .new c | .type c | .classLiteral c => [("class", .string c)]
    | .reflect c member descriptor =>
      [("class", .string c), ("member", .ofString? member), ("descriptor", .ofString? descriptor)])

def readTarget (fields : Fields) : Except DecodeError MemberRef :=
  return ⟨← fields.required "owner" Data.asString, ← fields.required "name" Data.asString,
    ← fields.required "descriptor" Data.asString⟩

def readClass (d : Data) : Except DecodeError String := do
  (← Fields.of ["class"] d).required "class" Data.asString

/-- An instruction is read whole before its operation is known, so an unquoted scalar in it is
what it looks like, never a mere text. -/
def ofData : Decoder Instruction := fun d => do
  let (op, d) ← d.resolve.tagged "op"
  match ← op.asString with
  | "invoke" =>
    let fields ← Fields.of ["dispatch", "owner", "name", "descriptor"] d
    return .invoke (← fields.required "dispatch" Dispatch.ofData) (← readTarget fields)
  | "field" => return .field (← readTarget (← Fields.of ["owner", "name", "descriptor"] d))
  | "new" => return .new (← readClass d)
  | "type" => return .type (← readClass d)
  | "class_literal" => return .classLiteral (← readClass d)
  | "reflect" =>
    let fields ← Fields.of ["class", "member", "descriptor"] d
    return .reflect (← fields.required "class" Data.asString)
      (← fields.withDefault "member" (Data.asOptional Data.asString) none)
      (← fields.withDefault "descriptor" (Data.asOptional Data.asString) none)
  | other => throw (.unknownName other)

end Instruction

namespace Method

def toData (m : Method) : Data :=
  .ofFields [
    ("name", some (.string m.name)),
    ("descriptor", some (.string m.descriptor)),
    ("modifiers", some m.modifiers.toData),
    ("annotations", Data.unlessEmpty (m.annotations.map AnnotationUse.toData)),
    ("exceptions", Data.unlessEmpty (m.exceptions.map .string)),
    ("signature", m.signature.map .string),
    ("annotation_default", Data.unlessEmpty (m.annotationDefault.map .string)),
    ("body", some (.list (m.body.map Instruction.toData)))]

def ofData : Decoder Method := fun d => do
  let fields ← Fields.of ["name", "descriptor", "modifiers", "annotations", "exceptions",
    "signature", "annotation_default", "body"] d
  return {
    name := ← fields.required "name" Data.asString
    descriptor := ← fields.required "descriptor" Data.asString
    modifiers := ← fields.withDefault "modifiers" Modifiers.ofData .none
    annotations := ← fields.withDefault "annotations" (Data.asList AnnotationUse.ofData) []
    exceptions := ← fields.withDefault "exceptions" (Data.asList Data.asString) []
    signature := ← fields.withDefault "signature" (Data.asOptional Data.asString) none
    annotationDefault := ←
      fields.withDefault "annotation_default" (Data.asList Data.asString) []
    body := ← fields.withDefault "body" (Data.asList Instruction.ofData) [] }

end Method

namespace Field

def toData (f : Field) : Data :=
  .ofFields [
    ("name", some (.string f.name)),
    ("descriptor", some (.string f.descriptor)),
    ("modifiers", some f.modifiers.toData),
    ("annotations", Data.unlessEmpty (f.annotations.map AnnotationUse.toData)),
    ("signature", f.signature.map .string)]

def ofData : Decoder Field := fun d => do
  let fields ← Fields.of ["name", "descriptor", "modifiers", "annotations", "signature"] d
  return {
    name := ← fields.required "name" Data.asString
    descriptor := ← fields.required "descriptor" Data.asString
    modifiers := ← fields.withDefault "modifiers" Modifiers.ofData .none
    annotations := ← fields.withDefault "annotations" (Data.asList AnnotationUse.ofData) []
    signature := ← fields.withDefault "signature" (Data.asOptional Data.asString) none }

end Field

namespace CompiledUnit

def toData (u : CompiledUnit) : Data :=
  .ofFields [
    ("name", some (.string u.name)),
    ("modifiers", some u.modifiers.toData),
    ("superclass", some (.ofString? u.superclass)),
    ("interfaces", Data.unlessEmpty (u.interfaces.map .string)),
    ("annotations", Data.unlessEmpty (u.annotations.map AnnotationUse.toData)),
    ("signature", u.signature.map .string),
    ("inner_classes", Data.unlessEmpty (u.innerClasses.map InnerClass.toData)),
    ("library", if u.library then some (.bool true) else none),
    ("methods", some (.list (u.methods.map Method.toData))),
    ("fields", some (.list (u.fields.map Field.toData)))]

def ofData : Decoder CompiledUnit := fun d => do
  let fields ← Fields.of ["name", "modifiers", "superclass", "interfaces", "annotations",
    "signature", "inner_classes", "library", "methods", "fields"] d
  return {
    name := ← fields.required "name" Data.asString
    modifiers := ← fields.withDefault "modifiers" Modifiers.ofData .none
    superclass := ← fields.withDefault "superclass" (Data.asOptional Data.asString) none
    interfaces := ← fields.withDefault "interfaces" (Data.asList Data.asString) []
    annotations := ← fields.withDefault "annotations" (Data.asList AnnotationUse.ofData) []
    signature := ← fields.withDefault "signature" (Data.asOptional Data.asString) none
    innerClasses := ← fields.withDefault "inner_classes" (Data.asList InnerClass.ofData) []
    library := ← fields.withDefault "library" Data.asBool false
    methods := ← fields.withDefault "methods" (Data.asList Method.ofData) []
    fields := ← fields.withDefault "fields" (Data.asList Field.ofData) [] }

end CompiledUnit

end Winnow
