import Winnow.Data.Plain
import Winnow.NodeId

/-!
# Reading values from structured data

Small readers for scalars, lists and records. A record may also be written as
the list of its fields in declaration order. Fields that the reader does not
know are ignored; a known field may be given only once.
-/
namespace Winnow

inductive DecodeError
  | expected (what : String)
  | missing (field : String)
  | repeated (field : String)
  | surplus
  | outOfRange
  | unknownName (name : String)
  | badNodeId (error : NodeIdError)
deriving DecidableEq, Repr

def DecodeError.message : DecodeError → String
  | .expected what => s!"expected {what}"
  | .missing field => s!"missing field {field}"
  | .repeated field => s!"repeated field {field}"
  | .surplus => "too many fields"
  | .outOfRange => "number out of range"
  | .unknownName name => s!"unknown name {name}"
  | .badNodeId error => error.message

/-- Reads a value of type `α`. -/
abbrev Decoder (α : Type) := Data → Except DecodeError α

namespace Data

def asString : Decoder String
  | .string s => .ok s
  | .plain s => .ok s
  | _ => .error (.expected "text")

def asBool : Decoder Bool
  | .bool b => .ok b
  | .plain s =>
    match Plain.bool? s with
    | some b => .ok b
    | none => .error (.expected "true or false")
  | _ => .error (.expected "true or false")

def asNatural : Decoder Nat
  | .natural n => .ok n
  | .plain s =>
    match Plain.natural? s with
    | some n => .ok n
    | none => .error (.expected "a natural number")
  | _ => .error (.expected "a natural number")

/-- A natural number below `bound`. -/
def asBelow (bound : Nat) : Decoder Nat := fun d => do
  let n ← d.asNatural
  if n < bound then .ok n else .error .outOfRange

def asUInt32 : Decoder UInt32 := fun d => do
  return UInt32.ofNat (← d.asBelow UInt32.size)

def isAbsent : Data → Bool
  | .null => true
  | .plain s => Plain.isNull s
  | _ => false

/-- Nothing, or a value. -/
def asOptional {α : Type} (read : Decoder α) : Decoder (Option α) := fun d =>
  if d.isAbsent then .ok none else (read d).map some

def asList {α : Type} (read : Decoder α) : Decoder (List α)
  | .list items => items.mapM read
  | .plain "" => .ok []
  | _ => .error (.expected "a list")

/-- The entries of a record with arbitrary names. -/
def asEntries {α : Type} (read : Decoder α) : Decoder (List (String × α))
  | .record fields => fields.mapM fun (name, d) => return (name, ← read d)
  | .plain "" => .ok []
  | _ => .error (.expected "a record")

/-- Exactly two values. -/
def asPair {α β : Type} (first : Decoder α) (second : Decoder β) : Decoder (α × β)
  | .list [a, b] => return (← first a, ← second b)
  | _ => .error (.expected "a pair")

def asNodeId : Decoder NodeId := fun d => do
  match NodeId.parse (← d.asString) with
  | .ok id => .ok id
  | .error e => .error (.badNodeId e)

/-- One of a few names that carry nothing, alone or as `{name: null}`. -/
def asName : Decoder String
  | .string s => .ok s
  | .record [(name, .null)] => .ok name
  | _ => .error (.expected "a name")

end Data

/-- The fields of a record, by name; `positional` when they were given as a list. -/
structure Fields where
  positional : Bool
  entries : List (String × Data)
deriving Repr

namespace Fields

/-- The fields called `names` of a record, or of a list in that order. -/
def of (names : List String) : Decoder Fields
  | .record fields =>
    match names.find? fun name => 1 < (fields.filter (·.1 = name)).length with
    | some name => .error (.repeated name)
    | none => .ok ⟨false, fields⟩
  | .list items =>
    if names.length < items.length then .error .surplus else .ok ⟨true, names.zip items⟩
  | .plain "" => .ok ⟨false, []⟩
  | _ => .error (.expected "a record")

def get? (fs : Fields) (name : String) : Option Data := fs.entries.lookup name

def required {α : Type} (fs : Fields) (name : String) (read : Decoder α) :
    Except DecodeError α :=
  match fs.get? name with
  | some d => read d
  | none => .error (.missing name)

/-- A field that has a value of its own when it is not given. -/
def withDefault {α : Type} (fs : Fields) (name : String) (read : Decoder α) (default : α) :
    Except DecodeError α :=
  match fs.get? name with
  | some d => read d
  | none => .ok default

/-- A field that may hold nothing; only a record may leave it out. -/
def optional {α : Type} (fs : Fields) (name : String) (read : Decoder α) :
    Except DecodeError (Option α) :=
  match fs.get? name with
  | some d => d.asOptional read
  | none => if fs.positional then .error (.missing name) else .ok none

end Fields

/-- A value with a named variant: the name, and the data without it. The name is the field `tag`
of a record or the first item of a list. -/
def Data.tagged (tag : String) : Decoder (Data × Data)
  | .record fields =>
    match fields.filter (·.1 = tag) with
    | [] => .error (.missing tag)
    | [(_, name)] => .ok (name, .record (fields.filter (·.1 ≠ tag)))
    | _ => .error (.repeated tag)
  | .list (name :: items) => .ok (name, .list items)
  | _ => .error (.missing tag)

end Winnow
