import Winnow.Marking.Liveness
import Winnow.Retention

/-!
# Marking

Everything that is reachable from the roots is kept. A node waits in a queue
when it is first kept, and again when it is kept in full after having been kept
as a shell; in its turn it passes on to the targets of its edges as much as each
edge propagates.

The queue empties: each entry costs a step of some node from unknown over shell
to full, and no node takes more than two.
-/
namespace Winnow

/-- A reason to keep a node. -/
structure Demand where
  id : NodeId
  state : KeepState
deriving DecidableEq, Repr

structure Marking where
  roots : SortedSet NodeId := ∅
  marks : SortedMap NodeId Retention := ∅
  liveness : Liveness := {}
  /-- The nodes whose edges are still to be followed. -/
  queue : List NodeId := []
deriving DecidableEq, Repr, Inhabited

def Propagation.state? : Propagation → Option KeepState
  | .none => Option.none
  | .shell => some .shell
  | .full => some .full

/-- What an edge out of a kept node asks for its target. -/
def Edge.demand? (e : Edge) : Option Demand := e.kind.propagation.state?.map (⟨e.target, ·⟩)

namespace Marking

def isMarked (m : Marking) (id : NodeId) : Bool :=
  match m.marks.get? id with
  | some r => r.isKept
  | none => false

def markedIds (m : Marking) : List NodeId := (m.marks.toList.filter (·.2.isKept)).map (·.1)

/-- The retention that one more demand makes of an old one. -/
def raised (state : KeepState) : Option Retention → Retention
  | none => ⟨1, state⟩
  | some r => ⟨r.counter + 1, if state = .full then .full else r.state⟩

/-- The demand is news, so the node has to pass it on. -/
def isNews (state : KeepState) : Option Retention → Bool
  | none => true
  | some r => r.state = .shell && state = .full

/-- A member is never kept as a shell. -/
def effectiveState (n : Node) (state : KeepState) : KeepState :=
  match n with
  | .class_ _ => state
  | .member _ => .full

/-- One more reason to keep a node; nothing if the graph does not have it. -/
def keep (g : Graph) (m : Marking) (d : Demand) : Marking :=
  match g.node? d.id with
  | none => m
  | some n =>
    let old := m.marks.get? d.id
    let state := effectiveState n d.state
    { m with
      marks := m.marks.insert d.id (raised state old)
      queue := if isNews state old then m.queue ++ [d.id] else m.queue }

def keepAll (g : Graph) (m : Marking) (demands : List Demand) : Marking := demands.foldl (keep g) m

/-- An edge asks for its target, and for what it makes run. -/
def followEdge (g : Graph) (h : Hierarchy) (s : Liveness × List Demand) (e : Edge) :
    Liveness × List Demand :=
  let (liveness, run) := s.1.follow g h e
  (liveness, s.2 ++ e.demand?.toList ++ run.map (⟨·, .full⟩))

/-- A kept member asks for its owner. -/
def ownerDemand : Node → List Demand
  | .class_ _ => []
  | .member m => [⟨.class_ m.id.className, .shell⟩]

/-- Passes on what a node has. -/
def process (g : Graph) (h : Hierarchy) (m : Marking) (id : NodeId) : Marking :=
  match g.node? id with
  | none => m
  | some n =>
    let (liveness, demands) :=
      (g.outgoing id).foldl (followEdge g h) (m.liveness, ownerDemand n)
    keepAll g { m with liveness := liveness } demands

/-- How many steps a node can still take. -/
def room : Option Retention → Nat
  | none => 2
  | some r => if r.state = .shell then 1 else 0

/-- How many steps all nodes can still take. -/
def potential (g : Graph) (m : Marking) : Nat :=
  total (fun n => room (m.marks.get? n.id)) g.nodes

/-- What shrinks while the queue empties. -/
def remaining (g : Graph) (m : Marking) : Nat := 2 * m.potential g + m.queue.length

theorem total_le {α : Type} {f f' : α → Nat} {l : List α} (h : ∀ a ∈ l, f' a ≤ f a) :
    total f' l ≤ total f l := by
  induction l with
  | nil => exact Nat.le_refl _
  | cons a l ih =>
    have ha := h a List.mem_cons_self
    have hl := ih fun b hb => h b (List.mem_cons_of_mem a hb)
    simp only [total]
    omega

theorem total_add_le {α : Type} {f f' : α → Nat} {l : List α} (h : ∀ a ∈ l, f' a ≤ f a) {b : α}
    (hb : b ∈ l) {k : Nat} (hk : f' b + k ≤ f b) : total f' l + k ≤ total f l := by
  induction l with
  | nil => cases hb
  | cons a l ih =>
    have ha := h a List.mem_cons_self
    have hl : ∀ c ∈ l, f' c ≤ f c := fun c hc => h c (List.mem_cons_of_mem a hc)
    simp only [total]
    rcases List.mem_cons.mp hb with rfl | hb
    · have := total_le hl
      omega
    · have := ih hl hb
      omega

theorem room_raised_le (state : KeepState) (old : Option Retention) :
    room (some (raised state old)) ≤ room old := by
  cases old with
  | none => cases state <;> simp [room, raised]
  | some r => obtain ⟨_, s⟩ := r; cases state <;> cases s <;> simp [room, raised]

theorem room_raised_lt {state : KeepState} {old : Option Retention} (h : isNews state old = true) :
    room (some (raised state old)) < room old := by
  cases old with
  | none => cases state <;> simp [room, raised]
  | some r => obtain ⟨_, s⟩ := r; cases state <;> cases s <;> simp_all [room, raised, isNews]

theorem room_keep_le (g : Graph) (m : Marking) (d : Demand) (id : NodeId) :
    room ((keep g m d).marks.get? id) ≤ room (m.marks.get? id) := by
  unfold keep
  split
  next => exact Nat.le_refl _
  next n _ =>
    by_cases hid : id = d.id
    · rw [hid, SortedMap.get?_insert_self]
      exact room_raised_le _ _
    · exact Nat.le_of_eq (congrArg room
        (SortedMap.get?_insert_of_ne (fun e => hid (NodeId.compare_eq_iff.mp e))))

/-- A node that has to wait has taken a step. -/
theorem queue_keep (g : Graph) (m : Marking) (d : Demand) :
    (keep g m d).queue = m.queue ∨
      (keep g m d).queue = m.queue ++ [d.id] ∧ (∃ n ∈ g.nodes, n.id = d.id) ∧
        room ((keep g m d).marks.get? d.id) < room (m.marks.get? d.id) := by
  unfold keep
  split
  next => exact .inl rfl
  next n hn =>
    dsimp only
    split
    next hnews =>
      refine .inr ⟨rfl, ⟨n, List.mem_of_find?_eq_some hn, by simpa using List.find?_some hn⟩, ?_⟩
      rw [SortedMap.get?_insert_self]
      exact room_raised_lt hnews
    next => exact .inl rfl

theorem remaining_keep_le (g : Graph) (m : Marking) (d : Demand) :
    (keep g m d).remaining g ≤ m.remaining g := by
  have hroom : ∀ n ∈ g.nodes, room ((keep g m d).marks.get? n.id) ≤ room (m.marks.get? n.id) :=
    fun n _ => room_keep_le g m d n.id
  rcases queue_keep g m d with hq | ⟨hq, ⟨n, hn, hid⟩, hlt⟩
  · have := total_le hroom
    simp only [remaining, potential, hq]
    omega
  · have : potential g (keep g m d) + 1 ≤ potential g m :=
      total_add_le hroom hn (by rw [hid]; exact hlt)
    simp only [remaining, hq, List.length_append, List.length_cons, List.length_nil]
    omega

theorem remaining_keepAll_le (g : Graph) (m : Marking) (demands : List Demand) :
    (keepAll g m demands).remaining g ≤ m.remaining g := by
  induction demands generalizing m with
  | nil => exact Nat.le_refl _
  | cons d demands ih => exact Nat.le_trans (ih _) (remaining_keep_le g m d)

theorem remaining_process_le (g : Graph) (h : Hierarchy) (m : Marking) (id : NodeId) :
    (process g h m id).remaining g ≤ m.remaining g := by
  unfold process
  split
  next => exact Nat.le_refl _
  next => exact remaining_keepAll_le g _ _

/-- Empties the queue. -/
def drain (g : Graph) (h : Hierarchy) (m : Marking) : Marking :=
  match hq : m.queue with
  | [] => m
  | id :: queue =>
    have : (process g h { m with queue := queue } id).remaining g < m.remaining g := by
      refine Nat.lt_of_le_of_lt (remaining_process_le g h _ id) ?_
      simp [remaining, potential, hq]
    drain g h (process g h { m with queue := queue } id)
termination_by m.remaining g

/-- A node of the program, as against one of a library or an unknown one. -/
def inProgram (g : Graph) : Node → Bool
  | .class_ c => c.isProgram
  | .member m => ((g.class? m.id.className).map (·.isProgram)).getD false

def isUnresolved : Node → Bool
  | .class_ c => c.origin = .unresolved
  | .member _ => false

/-- A root is kept in full, and a class that is a root is alive. Placeholders for unknown classes
are always kept. -/
def seedNode (g : Graph) (h : Hierarchy) (isRoot : Node → Bool) (m : Marking) (n : Node) :
    Marking :=
  let m := if isUnresolved n then m.keep g ⟨n.id, .shell⟩ else m
  if inProgram g n && isRoot n then
    let m := keep g { m with roots := m.roots.insert n.id } ⟨n.id, .full⟩
    match n with
    | .member _ => m
    | .class_ _ =>
      let (liveness, run) := m.liveness.enter g h n.id
      keepAll g { m with liveness := liveness } (run.map (⟨·, .full⟩))
  else m

def seed (g : Graph) (h : Hierarchy) (isRoot : Node → Bool) : Marking :=
  g.nodes.foldl (seedNode g h isRoot) {}

/-- What is kept, with every node the graph still has. -/
def table (m : Marking) (g : Graph) : CounterTable where
  roots := m.roots.filter g.contains
  retention := m.marks.filter fun id r => r.isKept && g.contains id

/-- The marking that a table describes; nodes that the graph does not have are left out. -/
def restore (g : Graph) (t : CounterTable) : Marking :=
  let m : Marking := {
    roots := t.roots.filter g.contains
    marks := t.retention.filter fun id _ => g.contains id }
  { m with liveness := .ofKept g m.roots.toList m.markedIds }

end Marking

/-- Everything that is reachable from the nodes that `isRoot` selects. -/
def Graph.mark (g : Graph) (h : Hierarchy) (isRoot : Node → Bool) : CounterTable :=
  (Marking.drain g h (Marking.seed g h isRoot)).table g

end Winnow
