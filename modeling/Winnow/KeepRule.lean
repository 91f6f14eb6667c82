import Winnow.Data.Decode
import Winnow.Glob
import Winnow.Json.Printer
import Winnow.Node.Basic
import Winnow.SipHash

/-!
# Keep rules

A rule names the nodes to keep by patterns for class, member, descriptor and
annotations, and by access keywords. A rule without a member pattern speaks of
classes, any other of members. Under a set of rules a node is a root when some
rule matches it and no rule that is negated does.
-/
namespace Winnow

/-- A rule as it is written. -/
structure KeepRuleText where
  class_ : String := ""
  member : Option String := none
  descriptor : Option String := none
  annotated : Option String := none
  /-- Keywords that must be there, and after `!` keywords that must not. -/
  access : Option String := none
  negate : Bool := false
deriving DecidableEq, Repr

namespace KeepRuleText

def toData (r : KeepRuleText) : Data :=
  let text (name : String) (s : Option String) : List (String × Data) :=
    s.toList.map fun s => (name, .string s)
  .record (("class", .string r.class_) :: text "member" r.member ++ text "descriptor" r.descriptor ++
    text "annotated" r.annotated ++ text "access" r.access ++
    (if r.negate then [("negate", .bool true)] else []))

def ofData : Decoder KeepRuleText := fun d => do
  let fields ← Fields.of ["class", "member", "descriptor", "annotated", "access", "negate"] d
  let text (name : String) := fields.withDefault name (Data.asOptional Data.asString) none
  return {
    class_ := ← fields.withDefault "class" Data.asString ""
    member := ← text "member"
    descriptor := ← text "descriptor"
    annotated := ← text "annotated"
    access := ← text "access"
    negate := ← fields.withDefault "negate" Data.asBool false }

end KeepRuleText

inductive KeepRuleError
  | emptyPattern (counterSet field : String)
  | unclosedBracket (pattern : String)
  | badPattern (pattern detail : String)
  | unknownAccess (keyword : String)
  | unknownCounterSet (name : String)
deriving DecidableEq, Repr

def KeepRuleError.message : KeepRuleError → String
  | .emptyPattern counterSet field =>
    s!"Keep rule in counter-set `{counterSet}` has an empty {field} pattern"
  | .unclosedBracket pattern => s!"Unclosed `[` in pattern `{pattern}`"
  | .badPattern pattern detail => s!"Pattern `{pattern}` does not compile: {detail}"
  | .unknownAccess keyword => s!"Unknown access keyword `{keyword}`"
  | .unknownCounterSet name => s!"Unknown counter-set `{name}`"

/-- What a rule sees of a node. -/
structure NodeProfile where
  kind : NodeKind
  className : String
  memberName : Option String := none
  descriptor : Option String := none
  modifiers : Modifiers := .none
  annotations : List String := []
deriving DecidableEq, Repr

def Node.profile : Node → NodeProfile
  | .class_ c => {
      kind := .class_, className := c.name, modifiers := c.modifiers
      annotations := c.annotations.toList }
  | .member m => {
      kind := m.id.kind, className := m.id.className, memberName := some m.name
      descriptor := some m.descriptor, modifiers := m.modifiers
      annotations := m.annotations.toList }

/-- A rule with its patterns compiled. -/
structure KeepRule where
  class_ : Regex
  member : Option Regex
  descriptor : Option Regex
  annotated : Option Regex
  required : List Access
  forbidden : List Access
  negate : Bool
deriving DecidableEq, Repr

namespace KeepRule

/-- The pattern as a name pattern, or for a descriptor as a descriptor pattern. -/
def readPattern (counterSet field : String) (pattern : String) : Except KeepRuleError Regex :=
  if pattern = "" then .error (.emptyPattern counterSet field)
  else
    match (if field = "descriptor" then Glob.parseDescriptor else Glob.parse) pattern with
    | .ok regex => .ok regex
    | .error .unclosedBracket => .error (.unclosedBracket pattern)
    | .error .refused => .error (.badPattern pattern "the regex is refused")

def readOptional (counterSet field : String) :
    Option String → Except KeepRuleError (Option Regex)
  | none => .ok none
  | some pattern => (readPattern counterSet field pattern).map some

def readKeyword (word : String) : Except KeepRuleError Access :=
  match Access.ofKeyword? word with
  | some access => .ok access
  | none => .error (.unknownAccess word)

/-- The keywords required and the keywords forbidden. -/
def readAccess : List String → Except KeepRuleError (List Access × List Access)
  | [] => .ok ([], [])
  | word :: words => do
    match word.toList with
    | '!' :: l =>
      let access ← readKeyword (String.ofList l)
      let (required, forbidden) ← readAccess words
      return (required, access :: forbidden)
    | _ =>
      let access ← readKeyword word
      let (required, forbidden) ← readAccess words
      return (access :: required, forbidden)

/-- The access keywords are read before the patterns. -/
def compile (counterSet : String) (r : KeepRuleText) : Except KeepRuleError KeepRule := do
  let (required, forbidden) ← readAccess (Text.words (r.access.getD ""))
  return {
    class_ := ← readPattern counterSet "class" r.class_
    member := ← readOptional counterSet "member" r.member
    descriptor := ← readOptional counterSet "descriptor" r.descriptor
    annotated := ← readOptional counterSet "annotated" r.annotated
    required, forbidden, negate := r.negate }

/-- The part of a rule that tells classes from members. -/
def matchesMember (r : KeepRule) (n : NodeProfile) : Bool :=
  match r.member, n.kind, n.memberName with
  | none, .class_, _ => true
  | some regex, .method, some name | some regex, .field, some name =>
    regex.isMatch name && match r.descriptor, n.descriptor with
      | some regex, some descriptor => regex.isMatch descriptor
      | _, _ => true
  | _, _, _ => false

def isMatch (r : KeepRule) (n : NodeProfile) : Bool :=
  r.class_.isMatch n.className && r.matchesMember n &&
    (r.annotated.all fun regex => n.annotations.any regex.isMatch) &&
    r.required.all n.modifiers.has && !r.forbidden.any n.modifiers.has

end KeepRule

/-- The rules of one counter-set. -/
structure KeepRules where
  name : String
  rules : List KeepRule
  /-- Differs when the rules are written differently. -/
  fingerprint : String
deriving DecidableEq, Repr

namespace KeepRules

def fingerprintOf (rules : List KeepRuleText) : String :=
  SipHash.fingerprint (Json.compact (.list (rules.map KeepRuleText.toData))).toUTF8

def compile (name : String) (rules : List KeepRuleText) : Except KeepRuleError KeepRules := do
  return ⟨name, ← rules.mapM (KeepRule.compile name), fingerprintOf rules⟩

def isRoot (r : KeepRules) (n : NodeProfile) : Bool :=
  (r.rules.any fun rule => !rule.negate && rule.isMatch n) &&
    !(r.rules.any fun rule => rule.negate && rule.isMatch n)

end KeepRules

end Winnow
