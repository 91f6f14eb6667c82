import Winnow.Descriptor
import Winnow.Path
import Winnow.Unit.Basic

/-!
# Well-formed units

What a unit has to satisfy before anything is made of it. The checks run in a
fixed order and the first that fails is the one reported.
-/
namespace Winnow

/-- Why a unit could not be had from its file, or is not well formed. -/
inductive UnitError
  | unreadable (path : Path) (detail : String)
  | unparsable (path : Path) (detail : String)
  | unsupportedFormat (path : Path)
  | descriptor (unit descriptor : String)
  | duplicateMember (unit : String) (key : MemberKey)
  | missingSuperclass (unit : String)
  | selfSupertype (unit : String)
  | emptyName
deriving DecidableEq, Repr

def UnitError.message : UnitError → String
  | .unreadable path detail => s!"failed to read unit file {path.text}: {detail}"
  | .unparsable path detail => s!"failed to parse unit file {path.text}: {detail}"
  | .unsupportedFormat path => s!"unsupported unit file extension: {path.text}"
  | .descriptor unit text => s!"unit {unit}: malformed descriptor `{text}`"
  | .duplicateMember unit key => s!"unit {unit}: duplicate member {key.text}"
  | .missingSuperclass unit => s!"unit {unit} has no superclass"
  | .selfSupertype unit => s!"unit {unit} names itself as a supertype"
  | .emptyName => "unit has an empty class name"

/-- Every descriptor can be read and no key occurs twice, or in `seen`. -/
def checkKeys (unit : String) (readable : String → Bool) (seen : List MemberKey) :
    List MemberKey → Except UnitError Unit
  | [] => .ok ()
  | key :: keys =>
    if !readable key.descriptor then .error (.descriptor unit key.descriptor)
    else if key ∈ seen then .error (.duplicateMember unit key)
    else checkKeys unit readable (key :: seen) keys

namespace CompiledUnit

def checkSupertypes (u : CompiledUnit) : Except UnitError Unit :=
  if u.superclass = none ∧ u.name ≠ objectClass then .error (.missingSuperclass u.name)
  else if u.superclass = some u.name ∨ u.name ∈ u.interfaces then .error (.selfSupertype u.name)
  else .ok ()

/-- The unit is well formed. Of the root of the hierarchy alone no superclass is asked. -/
def check (u : CompiledUnit) : Except UnitError Unit := do
  if u.name = "" then throw .emptyName
  u.checkSupertypes
  checkKeys u.name (fun d => (Descriptor.parseMethod d).isOk) [] (u.methods.map Method.key)
  checkKeys u.name (fun d => (Descriptor.parseField d).isOk) [] (u.fields.map Field.key)

end CompiledUnit

end Winnow
