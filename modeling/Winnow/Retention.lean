import Winnow.Data.Decode
import Winnow.Node.Codec

/-!
# Retention

What marking finds out about a program under one set of rules: the roots, and
for every node that is kept how often and how much of it.
-/
namespace Winnow

/-- How much of a kept node survives. -/
inductive KeepState
  /-- Enough for the rest to be well formed; no member is implied. -/
  | shell
  /-- Needed by code that runs. -/
  | full
deriving DecidableEq, Repr

namespace KeepState

def name : KeepState → String
  | .shell => "shell"
  | .full => "full"

def ofData : Decoder KeepState := fun d => do
  match ← d.asName with
  | "shell" => return .shell
  | "full" => return .full
  | name => throw (.unknownName name)

end KeepState

structure Retention where
  /-- The number of reasons to keep the node. -/
  counter : Nat
  state : KeepState
deriving DecidableEq, Repr

namespace Retention

def isKept (r : Retention) : Bool := 0 < r.counter

def toData (r : Retention) : Data :=
  .record [("counter", .natural r.counter), ("state", .string r.state.name)]

def ofData : Decoder Retention := fun d => do
  let fields ← Fields.of ["counter", "state"] d
  return ⟨← fields.required "counter" (Data.asBelow UInt32.size),
    ← fields.required "state" KeepState.ofData⟩

end Retention

/-- Roots and retentions under one set of rules. -/
structure CounterTable where
  roots : SortedSet NodeId := ∅
  retention : SortedMap NodeId Retention := ∅
deriving DecidableEq, Repr, Inhabited

namespace CounterTable

/-- A node with no reason left to keep it is not kept, listed or not. -/
def state? (t : CounterTable) (id : NodeId) : Option KeepState :=
  ((t.retention.get? id).filter Retention.isKept).map (·.state)

def isKept (t : CounterTable) (id : NodeId) : Bool := (t.state? id).isSome

def isFullyKept (t : CounterTable) (id : NodeId) : Bool := t.state? id = some .full

def isRoot (t : CounterTable) (id : NodeId) : Bool := id ∈ t.roots

def counter (t : CounterTable) (id : NodeId) : Nat := ((t.retention.get? id).map (·.counter)).getD 0

/-- What is kept, and how much of it. -/
def keptStates (t : CounterTable) : List (NodeId × KeepState) :=
  (t.retention.toList.filter (·.2.isKept)).map fun (id, r) => (id, r.state)

def kept (t : CounterTable) : List NodeId := t.keptStates.map (·.1)

def size (t : CounterTable) : Nat := t.kept.length

/-- The names of the kept classes, in order. -/
def keptClasses (t : CounterTable) : List String :=
  (t.kept.filter (·.isClass)).map (·.className)

def toData (t : CounterTable) : Data :=
  .record [
    ("roots", .list (t.roots.toList.map NodeId.toData)),
    ("retention", .record (t.retention.toList.map fun (id, r) => (id.text, r.toData)))]

/-- The entry of a node; the last of several entries counts. -/
def readEntry (name : String) (d : Data) : Except DecodeError (NodeId × Retention) :=
  return (← (Data.string name).asNodeId, ← Retention.ofData d)

def ofData : Decoder CounterTable := fun d => do
  let fields ← Fields.of ["roots", "retention"] d
  let roots ← fields.required "roots" (Data.asList Data.asNodeId)
  let entries ← fields.required "retention" fun d => do
    (← d.asEntries pure).mapM fun (name, d) => readEntry name d
  return ⟨.ofList roots, .ofList entries⟩

end CounterTable

end Winnow
