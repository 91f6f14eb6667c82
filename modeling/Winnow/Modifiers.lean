/-!
# Access flags

The flag word of a class or member, with the keywords that keep rules speak of.
-/
namespace Winnow

structure Modifiers where
  bits : UInt32
deriving DecidableEq, Repr, Inhabited

inductive Access
  | public_ | private_ | protected_ | static_ | final_ | native_ | interface_ | abstract_
  | annotation_ | enum_
deriving DecidableEq, Repr

namespace Access

/-- Every keyword, in the order in which the keywords of a flag word are listed. -/
def all : List Access :=
  [public_, private_, protected_, static_, final_, native_, interface_, abstract_, annotation_,
    enum_]

def flag : Access → UInt32
  | public_ => 0x0001
  | private_ => 0x0002
  | protected_ => 0x0004
  | static_ => 0x0008
  | final_ => 0x0010
  | native_ => 0x0100
  | interface_ => 0x0200
  | abstract_ => 0x0400
  | annotation_ => 0x2000
  | enum_ => 0x4000

def keyword : Access → String
  | public_ => "public"
  | private_ => "private"
  | protected_ => "protected"
  | static_ => "static"
  | final_ => "final"
  | native_ => "native"
  | interface_ => "interface"
  | abstract_ => "abstract"
  | annotation_ => "annotation"
  | enum_ => "enum"

def ofKeyword? (word : String) : Option Access := all.find? (·.keyword = word)

end Access

namespace Modifiers

def none : Modifiers := ⟨0⟩

/-- The flag word of a class or member that is public and nothing else. -/
def publicOnly : Modifiers := ⟨Access.public_.flag⟩

def has (m : Modifiers) (access : Access) : Bool := m.bits &&& access.flag = access.flag

def isPublic (m : Modifiers) : Bool := m.has .public_
def isPrivate (m : Modifiers) : Bool := m.has .private_
def isStatic (m : Modifiers) : Bool := m.has .static_
def isAbstract (m : Modifiers) : Bool := m.has .abstract_
def isInterface (m : Modifiers) : Bool := m.has .interface_
def isAnnotation (m : Modifiers) : Bool := m.has .annotation_

/-- The keywords of the flags that are set. -/
def accesses (m : Modifiers) : List Access := Access.all.filter m.has

end Modifiers

end Winnow
