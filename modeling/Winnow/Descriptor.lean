import Winnow.Text

/-!
# Type descriptors

Field and method descriptors of compiled classes: `I`, `[Lpkg/Name;`,
`(ILpkg/Name;)V`. A reader works on the characters that are left; when it
fails it hands back the characters it could not read, so the place of the
fault is known, and always lies between two characters of the text.
-/
namespace Winnow

/-- The eight primitive types. -/
inductive BaseType
  | byte | char | double | float | int | long | short | boolean
deriving DecidableEq, Repr

def BaseType.letter : BaseType → Char
  | .byte => 'B'
  | .char => 'C'
  | .double => 'D'
  | .float => 'F'
  | .int => 'I'
  | .long => 'J'
  | .short => 'S'
  | .boolean => 'Z'

def BaseType.ofLetter? : Char → Option BaseType
  | 'B' => some .byte
  | 'C' => some .char
  | 'D' => some .double
  | 'F' => some .float
  | 'I' => some .int
  | 'J' => some .long
  | 'S' => some .short
  | 'Z' => some .boolean
  | _ => none

inductive FieldType
  | base (type : BaseType)
  | object (name : String)
  | array (element : FieldType)
deriving DecidableEq, Repr

/-- The parameters of a method and its result, `none` for void. -/
structure MethodType where
  params : List FieldType
  result : Option FieldType
deriving DecidableEq, Repr

namespace FieldType

/-- The class a type mentions, seen through arrays. -/
def className : FieldType → Option String
  | .base _ => none
  | .object name => some name
  | .array element => element.className

def dims : FieldType → Nat
  | .array element => element.dims + 1
  | _ => 0

def innermost : FieldType → FieldType
  | .array element => element.innermost
  | type => type

def chars : FieldType → List Char
  | .base type => [type.letter]
  | .object name => 'L' :: name.toList ++ [';']
  | .array element => '[' :: element.chars

/-- A class name may hold any character but these. -/
def nameChar (c : Char) : Bool :=
  c ≠ ';' && c ≠ '.' && c ≠ '[' && c ≠ '(' && c ≠ ')'

/-- The types that a descriptor can express. -/
def Valid : FieldType → Prop
  | .base _ => True
  | .object name => name ≠ "" ∧ ∀ c ∈ name.toList, nameChar c = true
  | .array element => element.Valid

/-- Reads one type from the front. -/
def read : List Char → Except (List Char) (FieldType × List Char)
  | [] => .error []
  | c :: l =>
    if c = '[' then
      match read l with
      | .ok (element, rest) => .ok (.array element, rest)
      | .error stuck => .error stuck
    else if c = 'L' then
      match Text.cut ';' l with
      | some (name, rest) =>
        if name ≠ [] ∧ name.all nameChar then .ok (.object (String.ofList name), rest)
        else .error (c :: l)
      | none => .error (c :: l)
    else
      match BaseType.ofLetter? c with
      | some type => .ok (.base type, l)
      | none => .error (c :: l)

theorem length_read {l rest : List Char} {type : FieldType} (h : read l = .ok (type, rest)) :
    rest.length < l.length := by
  induction l generalizing type rest with
  | nil => simp [read] at h
  | cons c l ih =>
    simp only [read] at h
    split at h
    · split at h
      next hr =>
        obtain ⟨rfl, rfl⟩ := by simpa using h
        exact Nat.lt_succ_of_lt (ih hr)
      next => simp at h
    · split at h
      · split at h
        next hc =>
          split at h
          · obtain ⟨rfl, rfl⟩ := by simpa using h
            have := (Text.eq_of_cut hc).1
            simp [this]; omega
          · simp at h
        next => simp at h
      · split at h
        · obtain ⟨rfl, rfl⟩ := by simpa using h
          simp
        · simp at h

end FieldType

namespace MethodType

def chars (type : MethodType) : List Char :=
  '(' :: type.params.flatMap FieldType.chars ++
    ')' :: (match type.result with | none => ['V'] | some result => result.chars)

/-- Reads parameter types up to and with the closing parenthesis. -/
def readParams (l : List Char) : Except (List Char) (List FieldType × List Char) :=
  match l with
  | [] => .error []
  | ')' :: rest => .ok ([], rest)
  | c :: tail =>
    match h : FieldType.read (c :: tail) with
    | .error stuck => .error stuck
    | .ok (type, rest) =>
      have := FieldType.length_read h
      match readParams rest with
      | .ok (types, rest) => .ok (type :: types, rest)
      | .error stuck => .error stuck
termination_by l.length
decreasing_by exact this

def readResult : List Char → Except (List Char) (Option FieldType × List Char)
  | 'V' :: rest => .ok (none, rest)
  | l =>
    match FieldType.read l with
    | .ok (type, rest) => .ok (some type, rest)
    | .error stuck => .error stuck

def read : List Char → Except (List Char) (MethodType × List Char)
  | '(' :: l =>
    match readParams l with
    | .error stuck => .error stuck
    | .ok (params, rest) =>
      match readResult rest with
      | .error stuck => .error stuck
      | .ok (result, rest) => .ok (⟨params, result⟩, rest)
  | l => .error l

/-- The types of a method in order of appearance, the result last. -/
def types (type : MethodType) : List FieldType := type.params ++ type.result.toList

end MethodType

/-- A text that is no descriptor, with the byte offset of the fault. -/
structure DescriptorError where
  descriptor : String
  offset : Nat
deriving DecidableEq, Repr

def DescriptorError.message (e : DescriptorError) : String :=
  s!"malformed descriptor `{e.descriptor}` at offset {e.offset}"

namespace Descriptor

/-- The fault of a text of which `rest` could not be read. -/
def fault (text : String) (rest : List Char) : DescriptorError :=
  ⟨text, text.utf8ByteSize - (String.ofList rest).utf8ByteSize⟩

/-- Reads the whole text or names the place where reading stopped. -/
def whole {α : Type} (read : List Char → Except (List Char) (α × List Char)) (text : String) :
    Except DescriptorError α :=
  match read text.toList with
  | .ok (a, []) => .ok a
  | .ok (_, rest) => .error (fault text rest)
  | .error rest => .error (fault text rest)

def parseField (text : String) : Except DescriptorError FieldType := whole FieldType.read text

def parseMethod (text : String) : Except DescriptorError MethodType := whole MethodType.read text

/-- The classes that a field or method descriptor mentions, in order of appearance. -/
def classes (text : String) : Except DescriptorError (List String) :=
  if Text.startsWith text "(" then
    (parseMethod text).map fun type => type.types.filterMap FieldType.className
  else
    (parseField text).map fun type => [type].filterMap FieldType.className

/-- The class behind a class operand, which may be an array type. -/
def elementClass (name : String) : Option String :=
  if Text.startsWith name "[" then
    match parseField name with
    | .ok type => type.className
    | .error _ => none
  else if name = "" then none
  else some name

end Descriptor

end Winnow
