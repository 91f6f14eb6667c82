import Winnow.Text

/-!
# Node identities

A class is known by its name, a member by its owner, name and descriptor. The
identity is the same in every run and has an exact textual form, `class:a/B`,
`method:a/B.m:()V` or `field:a/B.f:I`.

Identities are ordered: classes, then methods, then fields; each kind by owner,
name and descriptor.
-/
namespace Winnow

/-- Name and descriptor of a member, which single it out among the members of its kind in a class. -/
structure MemberKey where
  name : String
  descriptor : String
deriving DecidableEq, Repr

namespace MemberKey

def text (k : MemberKey) : String := k.name ++ ":" ++ k.descriptor

/-- What keys are ordered by. -/
def rank (k : MemberKey) : List String := [k.name, k.descriptor]

instance : Ord MemberKey := ⟨compareOn rank⟩

instance : Std.TransOrd MemberKey := inferInstanceAs (Std.TransCmp (compareOn rank))

end MemberKey

/-- A member of a named class. -/
structure MemberRef where
  owner : String
  name : String
  descriptor : String
deriving DecidableEq, Repr

namespace MemberRef

def key (r : MemberRef) : MemberKey := ⟨r.name, r.descriptor⟩

def text (r : MemberRef) : String := r.owner ++ "." ++ r.name ++ ":" ++ r.descriptor

def chars (r : MemberRef) : List Char :=
  r.owner.toList ++ '.' :: (r.name.toList ++ ':' :: r.descriptor.toList)

end MemberRef

inductive NodeKind
  | class_ | method | field
deriving DecidableEq, Repr

def NodeKind.label : NodeKind → String
  | .class_ => "Class"
  | .method => "Method"
  | .field => "Field"

inductive NodeId
  | class_ (name : String)
  | method (ref : MemberRef)
  | field (ref : MemberRef)
deriving DecidableEq, Repr

inductive NodeIdError
  | noTag (text : String)
  | noOwner (text : String)
  | noDescriptor (text : String)
  | unknownKind (tag : String)
deriving DecidableEq, Repr

def NodeIdError.message : NodeIdError → String
  | .noTag text => s!"node id without kind tag: {text}"
  | .noOwner text => s!"member id without owner: {text}"
  | .noDescriptor text => s!"member id without descriptor: {text}"
  | .unknownKind tag => s!"unknown node kind `{tag}`"

namespace NodeId

def kind : NodeId → NodeKind
  | .class_ _ => .class_
  | .method _ => .method
  | .field _ => .field

/-- The class that the node is, or belongs to. -/
def className : NodeId → String
  | .class_ name => name
  | .method ref | .field ref => ref.owner

def member? : NodeId → Option MemberRef
  | .class_ _ => none
  | .method ref | .field ref => some ref

def isClass : NodeId → Bool
  | .class_ _ => true
  | _ => false

/-- The identity without its kind. -/
def display : NodeId → String
  | .class_ name => name
  | .method ref | .field ref => ref.text

def text : NodeId → String
  | .class_ name => "class:" ++ name
  | .method ref => "method:" ++ ref.text
  | .field ref => "field:" ++ ref.text

/-- The member named by the part of `whole` after its tag. -/
def parseMember (whole rest : String) : Except NodeIdError MemberRef :=
  match Text.divide '.' rest with
  | none => .error (.noOwner whole)
  | some (owner, tail) =>
    match Text.divide ':' tail with
    | none => .error (.noDescriptor whole)
    | some (name, descriptor) => .ok ⟨owner, name, descriptor⟩

def parse (whole : String) : Except NodeIdError NodeId :=
  match Text.divide ':' whole with
  | none => .error (.noTag whole)
  | some (tag, rest) =>
    if tag = "class" then .ok (.class_ rest)
    else if tag = "method" then (parseMember whole rest).map .method
    else if tag = "field" then (parseMember whole rest).map .field
    else .error (.unknownKind tag)

/-- What identities are ordered by. -/
def rank : NodeId → List String
  | .class_ name => ["0", name]
  | .method ref => ["1", ref.owner, ref.name, ref.descriptor]
  | .field ref => ["2", ref.owner, ref.name, ref.descriptor]

theorem rank_injective {a b : NodeId} (h : a.rank = b.rank) : a = b := by
  obtain _ | ⟨_, _, _⟩ | ⟨_, _, _⟩ := a <;> obtain _ | ⟨_, _, _⟩ | ⟨_, _, _⟩ := b <;>
    simp_all [rank]

instance : Ord NodeId := ⟨compareOn rank⟩

instance : Std.TransOrd NodeId := inferInstanceAs (Std.TransCmp (compareOn rank))

theorem compare_eq_iff {a b : NodeId} : compare a b = .eq ↔ a = b := by
  show compare a.rank b.rank = .eq ↔ a = b
  rw [Std.LawfulEqCmp.compare_eq_iff_eq]
  exact ⟨rank_injective, fun h => h ▸ rfl⟩

end NodeId

end Winnow
