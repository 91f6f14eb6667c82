import Winnow.Sorted.Map

/-!
# Structured data

The tree that a data file holds, whatever its format. A record keeps its
fields in file order, repetitions included, so that each reader of a record
can say what a repeated field means to it.
-/
namespace Winnow

inductive Data
  | null
  | bool (b : Bool)
  | natural (n : Nat)
  /-- A number that is no natural number below 2^64, as written. -/
  | number (text : String)
  | string (s : String)
  /-- An unquoted scalar, whose type depends on what its reader wants. -/
  | plain (text : String)
  | list (items : List Data)
  | record (fields : List (String × Data))
deriving BEq, Repr, Inhabited

namespace Data

mutual
/-- Every record with its fields by increasing name, the last of repeated fields only. -/
def normalize : Data → Data
  | .list items => .list (normalizeItems items)
  | .record fields => .record (SortedMap.ofList (normalizeFields fields)).toList
  | scalar => scalar

def normalizeItems : List Data → List Data
  | [] => []
  | d :: ds => d.normalize :: normalizeItems ds

def normalizeFields : List (String × Data) → List (String × Data)
  | [] => []
  | (name, d) :: fs => (name, d.normalize) :: normalizeFields fs
end

mutual
/-- How deep lists and records are nested. -/
def depth : Data → Nat
  | .list items => depthItems items + 1
  | .record fields => depthFields fields + 1
  | _ => 0

def depthItems : List Data → Nat
  | [] => 0
  | d :: ds => max d.depth (depthItems ds)

def depthFields : List (String × Data) → Nat
  | [] => 0
  | (_, d) :: fs => max d.depth (depthFields fs)
end

/-- The last field of that name in a record. -/
def field? (d : Data) (name : String) : Option Data :=
  match d with
  | .record fields => fields.reverse.lookup name
  | _ => none

def ofString? : Option String → Data
  | none => .null
  | some s => .string s

def strings (texts : List String) : Data := .list (texts.map .string)

end Data

end Winnow
