import Winnow.Edge
import Winnow.Node.Basic
import Winnow.Unit.Codec

/-!
# Nodes and edges as data
-/
namespace Winnow

/-- A set of texts, written as the list of them. -/
def SortedSet.textsToData (s : SortedSet String) : Data := .strings s.toList

def Data.asTextSet : Decoder (SortedSet String) := fun d => return .ofList (← d.asList asString)

def NodeId.toData (id : NodeId) : Data := .string id.text

namespace Origin

def toData : Origin → Data
  | .program source => .record [("program", .record [("source", .string source.text)])]
  | .library => .string "library"
  | .unresolved => .string "unresolved"

def ofData : Decoder Origin
  | .record [("program", d)] => do
    return .program ⟨← (← Fields.of ["source"] d).required "source" Data.asString⟩
  | d => do
    match ← d.asName with
    | "library" => return .library
    | "unresolved" => return .unresolved
    | name => throw (.unknownName name)

end Origin

namespace ClassNode

def toData (c : ClassNode) : Data :=
  .record [
    ("name", .string c.name),
    ("modifiers", c.modifiers.toData),
    ("superclass", .ofString? c.superclass),
    ("interfaces", .strings c.interfaces),
    ("annotations", c.annotations.textsToData),
    ("annotation_refs", c.annotationRefs.textsToData),
    ("signature", .ofString? c.signature),
    ("inner_classes", .list (c.innerClasses.map InnerClass.toData)),
    ("members", .list (c.members.toList.map NodeId.toData)),
    ("origin", c.origin.toData)]

def ofData : Decoder ClassNode := fun d => do
  let fields ← Fields.of ["name", "modifiers", "superclass", "interfaces", "annotations",
    "annotation_refs", "signature", "inner_classes", "members", "origin"] d
  return {
    name := ← fields.required "name" Data.asString
    modifiers := ← fields.required "modifiers" Modifiers.ofData
    superclass := ← fields.optional "superclass" Data.asString
    interfaces := ← fields.required "interfaces" (Data.asList Data.asString)
    annotations := ← fields.required "annotations" Data.asTextSet
    annotationRefs := ← fields.withDefault "annotation_refs" Data.asTextSet ∅
    signature := ← fields.withDefault "signature" (Data.asOptional Data.asString) none
    innerClasses := ← fields.withDefault "inner_classes" (Data.asList InnerClass.ofData) []
    members := .ofList (← fields.required "members" (Data.asList Data.asNodeId))
    origin := ← fields.required "origin" Origin.ofData }

end ClassNode

namespace MemberNode

def toData (m : MemberNode) : Data :=
  .record [
    ("id", m.id.toData),
    ("modifiers", m.modifiers.toData),
    ("annotations", m.annotations.textsToData),
    ("annotation_refs", m.annotationRefs.textsToData),
    ("exceptions", .strings m.exceptions),
    ("annotation_default", m.annotationDefault.textsToData),
    ("signature", .ofString? m.signature)]

def ofData : Decoder MemberNode := fun d => do
  let fields ← Fields.of ["id", "modifiers", "annotations", "annotation_refs", "exceptions",
    "annotation_default", "signature"] d
  return {
    id := ← fields.required "id" Data.asNodeId
    modifiers := ← fields.required "modifiers" Modifiers.ofData
    annotations := ← fields.required "annotations" Data.asTextSet
    annotationRefs := ← fields.withDefault "annotation_refs" Data.asTextSet ∅
    exceptions := ← fields.withDefault "exceptions" (Data.asList Data.asString) []
    annotationDefault := ← fields.withDefault "annotation_default" Data.asTextSet ∅
    signature := ← fields.withDefault "signature" (Data.asOptional Data.asString) none }

end MemberNode

namespace Use

def name : Use → String
  | .call => "call"
  | .virtualCall _ => "virtual_call"
  | .fieldAccess => "field_access"
  | .instantiate => "instantiate"
  | .typeReference => "type_reference"
  | .reflection => "reflection"

/-- The uses that carry nothing. -/
def simple : List Use := [.call, .fieldAccess, .instantiate, .typeReference, .reflection]

/-- The names of all uses, in the order in which a number stands for one of them. -/
def names : List String :=
  ["call", "virtual_call", "field_access", "instantiate", "type_reference", "reflection"]

def toFields (u : Use) : List (String × Data) :=
  ("use", .string u.name) :: match u with
    | .virtualCall receiver => [("receiver", .string receiver)]
    | _ => []

end Use

/-- Nothing is left of a list; a record may hold anything. -/
def Data.asNothing : Decoder Unit
  | .record _ => .ok ()
  | .list [] => .ok ()
  | _ => .error .surplus

namespace Use

/-- The name of a use may also be given as its number. -/
def ofData : Decoder Use := fun d => do
  let (tag, d) ← d.tagged "use"
  let name ← match tag with
    | .natural n => pure (names[n]?.getD "")
    | tag => tag.asString
  if name = "virtual_call" then
    return .virtualCall (← (← Fields.of ["receiver"] d).required "receiver" Data.asString)
  match simple.find? (·.name = name) with
  | some use => d.asNothing; return use
  | none => throw (.unknownName name)

end Use

namespace EdgeKind

def name : EdgeKind → String
  | .contains => "contains"
  | .super => "super"
  | .implements => "implements"
  | .typeRef => "type_ref"
  | .uses _ => "uses"
  | .overrides => "overrides"
  | .annotatedBy => "annotated_by"
  | .annotationDefault => "annotation_default"
  | .nestedIn => "nested_in"
  | .implicit => "implicit"
  | .signature => "signature"

/-- The kinds that carry nothing. -/
def simple : List EdgeKind :=
  [.contains, .super, .implements, .typeRef, .overrides, .annotatedBy, .annotationDefault,
    .nestedIn, .implicit, .signature]

def toData (k : EdgeKind) : Data :=
  .record (("kind", .string k.name) :: match k with
    | .uses use => use.toFields
    | _ => [])

def ofData : Decoder EdgeKind := fun d => do
  let (tag, d) ← d.tagged "kind"
  let name ← tag.asString
  if name = "uses" then return .uses (← Use.ofData d)
  match simple.find? (·.name = name) with
  | some kind => d.asNothing; return kind
  | none => throw (.unknownName name)

end EdgeKind

end Winnow
