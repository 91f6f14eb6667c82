import Mathlib.Order.Bounds.Defs
import Winnow.Marking.Basic
import Winnow.Proofs.Graph.Nodes
import Winnow.Proofs.Sorted

/-!
# What marking has to find

The rules of marking, without any order of work: an assignment says how much of
each node is kept, which classes are alive and which calls are seen, and it is
closed when no rule asks for more. Marking is meant to find the least closed
assignment.
-/
namespace Winnow

namespace KeepState

/-- A shell is less than everything. -/
instance : LE KeepState := ⟨fun s t => s = .shell ∨ t = .full⟩

instance (s t : KeepState) : Decidable (s ≤ t) :=
  inferInstanceAs (Decidable (s = .shell ∨ t = .full))

@[simp] theorem shell_le (s : KeepState) : .shell ≤ s := .inl rfl

@[simp] theorem le_full (s : KeepState) : s ≤ .full := .inr rfl

@[simp] theorem le_refl (s : KeepState) : s ≤ s := by cases s <;> simp

@[simp] theorem full_le_iff {s : KeepState} : .full ≤ s ↔ s = .full := by
  cases s <;> simp [LE.le]

theorem le_trans {s t u : KeepState} (h : s ≤ t) (h' : t ≤ u) : s ≤ u := by
  cases s <;> cases t <;> simp_all

theorem le_antisymm {s t : KeepState} (h : s ≤ t) (h' : t ≤ s) : s = t := by
  cases s <;> cases t <;> simp_all

end KeepState

/-- What is kept, alive and called. -/
structure Assignment where
  /-- At least so much of the node is kept. -/
  keeps : NodeId → KeepState → Prop
  live : Set NodeId
  /-- The receivers of calls, with the methods called on them. -/
  called : Set (NodeId × NodeId)

namespace Assignment

instance : LE Assignment where
  le A B := (∀ id s, A.keeps id s → B.keeps id s) ∧ A.live ⊆ B.live ∧ A.called ⊆ B.called

/-- No rule asks for more. -/
structure Closed (g : Graph) (h : Hierarchy) (isRoot : Node → Bool) (A : Assignment) : Prop where
  shell_of_full : ∀ id, A.keeps id .full → A.keeps id .shell
  /-- Of a member there is no shell. -/
  member : ∀ m, Node.member m ∈ g.nodes → A.keeps m.id .shell → A.keeps m.id .full
  unresolved : ∀ n ∈ g.nodes, Marking.isUnresolved n = true → A.keeps n.id .shell
  root : ∀ n ∈ g.nodes, Marking.inProgram g n = true → isRoot n = true → A.keeps n.id .full
  root_live : ∀ c, Node.class_ c ∈ g.nodes → Marking.inProgram g (.class_ c) = true →
    isRoot (.class_ c) = true → c.id ∈ A.live
  owner : ∀ m, Node.member m ∈ g.nodes → A.keeps m.id .shell →
    A.keeps (.class_ m.id.className) .shell
  edge : ∀ e ∈ g.edges, A.keeps e.source .shell → ∀ d, e.demand? = some d → A.keeps d.id d.state
  instantiate : ∀ e ∈ g.edges, A.keeps e.source .shell → e.kind = .uses .instantiate →
    e.target ∈ A.live
  call : ∀ e ∈ g.edges, A.keeps e.source .shell → ∀ receiver,
    e.kind = .uses (.virtualCall receiver) → g.contains (.class_ receiver) = true →
    (NodeId.class_ receiver, e.target) ∈ A.called
  /-- A class that is alive runs its own method for every call on it or on a type above it. -/
  dispatch : ∀ class_ ∈ A.live, ∀ receiver decl, (receiver, decl) ∈ A.called →
    h.isSubtype class_ receiver = true → ∀ id, g.implementationOf h class_ decl = some id →
    A.keeps id .full

variable {g : Graph} {h : Hierarchy} {isRoot : Node → Bool} {A : Assignment}

theorem Closed.shell_of_keeps (hA : A.Closed g h isRoot) {id : NodeId} {s : KeepState}
    (hs : A.keeps id s) : A.keeps id .shell := by
  cases s with
  | shell => exact hs
  | full => exact hA.shell_of_full id hs

theorem Closed.keeps_of_le (hA : A.Closed g h isRoot) {id : NodeId} {s t : KeepState}
    (hst : s ≤ t) (ht : A.keeps id t) : A.keeps id s := by
  cases s with
  | shell => exact hA.shell_of_keeps ht
  | full => rwa [KeepState.full_le_iff.mp hst] at ht

/-- A demand that is met is met to the extent that the node allows. -/
theorem Closed.keeps_effective (hA : A.Closed g h isRoot) {d : Demand} {n : Node}
    (hn : g.node? d.id = some n) (hd : A.keeps d.id d.state) :
    A.keeps d.id (Marking.effectiveState n d.state) := by
  cases n with
  | class_ c => exact hd
  | member m =>
    have hid : m.id = d.id := Graph.id_of_node? hn
    have := hA.member m (Graph.mem_of_node? hn)
    rw [hid] at this
    exact this (hA.shell_of_keeps hd)

end Assignment

/-- A table keeps at least so much of a node. -/
def CounterTable.keeps (t : CounterTable) (id : NodeId) (s : KeepState) : Prop :=
  ∃ r, t.state? id = some r ∧ s ≤ r

theorem CounterTable.state?_eq_of_keeps {t t' : CounterTable} {id : NodeId}
    (h : ∀ s, t.keeps id s ↔ t'.keeps id s) : t.state? id = t'.state? id := by
  cases ht : t.state? id with
  | none =>
    cases ht' : t'.state? id with
    | none => rfl
    | some r =>
      obtain ⟨r', hr', _⟩ := (h r).mpr ⟨r, ht', KeepState.le_refl r⟩
      rw [ht] at hr'
      cases hr'
  | some r =>
    obtain ⟨r', hr', hle⟩ := (h r).mp ⟨r, ht, KeepState.le_refl r⟩
    obtain ⟨r'', hr'', hle'⟩ := (h r').mpr ⟨r', hr', KeepState.le_refl r'⟩
    obtain rfl : r = r'' := by simpa [ht] using hr''
    rw [hr', KeepState.le_antisymm hle hle']

namespace Marking

/-- At least so much of the node is marked. -/
def has (m : Marking) (id : NodeId) (s : KeepState) : Prop :=
  ∃ r, m.marks.get? id = some r ∧ s ≤ r.state

/-- The assignment that a marking has come to. -/
def assignment (m : Marking) : Assignment where
  keeps := m.has
  live := {id | id ∈ m.liveness.live}
  called := {call | call ∈ m.liveness.callSites}

/-- One turn of marking in any order of work: any node that waits, its edges in any order, and
what they ask for in any order. -/
inductive Step (g : Graph) (h : Hierarchy) : Marking → Marking → Prop
  | absent {m : Marking} {id : NodeId} {rest : List NodeId} : m.queue.Perm (id :: rest) →
      g.node? id = none → Step g h m { m with queue := rest }
  | pass {m : Marking} {id : NodeId} {rest : List NodeId} {n : Node} {edges : List Edge}
      {liveness : Liveness} {demands demands' : List Demand} : m.queue.Perm (id :: rest) →
      g.node? id = some n → edges.Perm (g.outgoing id) →
      edges.foldl (followEdge g h) (m.liveness, ownerDemand n) = (liveness, demands) →
      demands'.Perm demands →
      Step g h m (keepAll g { m with queue := rest, liveness := liveness } demands')

/-- The roots and placeholders, taken up in any order. -/
def seedIn (g : Graph) (h : Hierarchy) (isRoot : Node → Bool) (nodes : List Node) : Marking :=
  nodes.foldl (seedNode g h isRoot) {}

end Marking

end Winnow
