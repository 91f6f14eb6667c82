import Winnow.Data.Decode

/-!
# Platform types

Classes that are known to exist although no unit describes them. They are
recognised by how their names begin.
-/
namespace Winnow

structure Platform where
  prefixes : List String := ["java/", "javax/", "android/"]
  /-- A name with one of these texts in it is no platform type after all. -/
  exclusions : List String := ["/support/"]
deriving DecidableEq, Repr, Inhabited

namespace Platform

def recognizes (p : Platform) (name : String) : Bool :=
  p.prefixes.any (Text.startsWith name) && !p.exclusions.any (Text.contains name)

def toData (p : Platform) : Data :=
  .record [("prefixes", .strings p.prefixes), ("exclusions", .strings p.exclusions)]

def ofData : Decoder Platform := fun d => do
  let fields ← Fields.of ["prefixes", "exclusions"] d
  let default : Platform := {}
  return {
    prefixes := ← fields.withDefault "prefixes" (Data.asList Data.asString) default.prefixes
    exclusions := ← fields.withDefault "exclusions" (Data.asList Data.asString) default.exclusions }

end Platform

end Winnow
