import Winnow.Proofs.Graph.Hierarchy
import Winnow.Proofs.Program.Regular
import Winnow.Proofs.Program.Thinning

/-!
# Calls

A method has an edge to each method that the search for one of its calls finds,
and no other edge of this kind. The search starts at the class that is named, and
for a call of an overridden method at the superclass. A call of a default method
of an interface is taken for one of the latter kind, although the interface need
not stand above the superclass.
-/
namespace Winnow

/-- How a call uses the method that it finds: one that may run another method in its place
remembers on which type it is called. -/
def Dispatch.useOf (dispatch : Dispatch) (receiver : String) (n : MemberNode) : Use :=
  if (dispatch = .virtual ∨ dispatch = .interface) ∧ n.modifiers.isStatic = false ∧
    n.modifiers.isPrivate = false ∧ n.name ≠ constructorName then .virtualCall receiver
  else .call

/-- A call that passes over the methods of the own class. -/
def Instruction.IsSuperCall (u : CompiledUnit) (dispatch : Dispatch) (target : MemberRef) : Prop :=
  dispatch = .special ∧ target.name ≠ constructorName ∧ target.owner ≠ u.name

namespace Graph

variable {g : Graph} {u : CompiledUnit} {dispatch : Dispatch} {target : MemberRef} {id : NodeId}

/-- The search for the called method should start at `start`: the superclass for a call that passes
over the own class, except of a method of an interface, and the named class for any other. -/
def StartsAt (g : Graph) (u : CompiledUnit) (dispatch : Dispatch) (target : MemberRef)
    (start : String) : Prop :=
  Instruction.IsSuperCall u dispatch target ∧ ¬ g.IsInterface target.owner ∧
      u.superclass = some start ∨
    ¬ (Instruction.IsSuperCall u dispatch target ∧ ¬ g.IsInterface target.owner) ∧
      start = target.owner

/-- The method has a call that finds the method `id` and uses it so. -/
def Calls (g : Graph) (u : CompiledUnit) (m : Method) (use : Use) (id : NodeId) : Prop :=
  ∃ dispatch target n, .invoke dispatch target ∈ m.body ∧
    Text.startsWith target.owner "[" = false ∧
    g.resolve (Instruction.searchStart u dispatch target) .method target.key = .declared id ∧
    g.member? id = some n ∧ use = dispatch.useOf target.owner n

theorem searchStart_of_isSuperCall {superclass : String}
    (hcall : Instruction.IsSuperCall u dispatch target) (hs : u.superclass = some superclass) :
    Instruction.searchStart u dispatch target = superclass := by
  simp [Instruction.searchStart, hs, hcall.1, hcall.2.1, hcall.2.2]

theorem searchStart_of_not_isSuperCall (hcall : ¬ Instruction.IsSuperCall u dispatch target) :
    Instruction.searchStart u dispatch target = target.owner := by
  unfold Instruction.searchStart
  split
  next =>
    rw [if_neg]
    intro h
    simp only [Bool.and_eq_true, decide_eq_true_eq] at h
    exact hcall ⟨h.1.1, h.1.2, h.2⟩
  next => rfl

theorem StartsAt.searchStart {start : String} (h : g.StartsAt u dispatch target start)
    (hcall : ¬ (Instruction.IsSuperCall u dispatch target ∧ g.IsInterface target.owner)) :
    Instruction.searchStart u dispatch target = start := by
  rcases h with ⟨hsuper, _, hs⟩ | ⟨hother, rfl⟩
  · exact searchStart_of_isSuperCall hsuper hs
  · by_cases hsuper : Instruction.IsSuperCall u dispatch target
    · exact absurd ⟨hsuper, fun hi => hcall ⟨hsuper, hi⟩⟩ hother
    · exact searchStart_of_not_isSuperCall hsuper

theorem useOfCall_of_member? {n : MemberNode} {receiver : String} (hn : g.member? id = some n) :
    g.useOfCall dispatch receiver id = dispatch.useOf receiver n := by
  have hexact : n.isExact = false ↔ n.modifiers.isStatic = false ∧ n.modifiers.isPrivate = false ∧
      n.name ≠ constructorName := by
    simp [MemberNode.isExact, and_assoc]
  cases dispatch with
  | static | special => simp [useOfCall, Dispatch.useOf]
  | virtual | interface => cases h : n.isExact <;> simp [useOfCall, Dispatch.useOf, hn, h, ← hexact]

/-- What a search finds is a member of the graph. -/
theorem exists_member?_of_resolve {start : String} {kind : NodeKind} {key : MemberKey}
    (h : g.resolve start kind key = .declared id) : ∃ n, g.member? id = some n := by
  obtain ⟨_, _, _, _, _, hd⟩ := resolve_eq_declared h
  exact Option.isSome_iff_exists.mp (declared_eq_some_iff.mp hd).2.2.2

theorem isCall_useOf (dispatch : Dispatch) (receiver : String) (n : MemberNode) :
    (dispatch.useOf receiver n).IsCall := by
  unfold Dispatch.useOf
  split
  · exact .virtualCall receiver
  · exact .call

end Graph

namespace Program

open Graph

variable {p : Program} {g : Graph} {s : SourcedUnit} {m : Method}

/-- The call edges of a method are those that its calls give. -/
theorem Linked.call_iff (hp : p.Admissible) (hl : p.Linked g) (hs : s ∈ p.units)
    (hm : m ∈ s.unit.methods) (use : Use) (id : NodeId) (huse : use.IsCall) :
    (⟨m.id s.unit.name, id, .uses use⟩ : Edge) ∈ g.edges ↔ g.Calls s.unit m use id := by
  have hresolve := hl.core.resolve p.tame_skeleton hl.tame
  constructor
  · intro he
    obtain ⟨t, ht, k, hk, i, hi, l, hlink, he⟩ := hl.body_of_use he rfl
    obtain ⟨dispatch, target, found, rfl, harray, hr, heq⟩ := call_of_body hlink he rfl huse
    obtain ⟨rfl, rfl⟩ := eq_of_method_id hp hs ht hm hk (congrArg Edge.source heq)
    obtain rfl : id = found := congrArg Edge.target heq
    rw [hresolve] at hr
    obtain ⟨n, hn⟩ := exists_member?_of_resolve hr
    refine ⟨dispatch, target, n, hi, harray, hr, hn, ?_⟩
    rw [← useOfCall_of_member? hn, ← hl.core.useOfCall]
    exact EdgeKind.uses.inj (congrArg Edge.kind heq)
  · intro h
    obtain ⟨dispatch, target, n, hi, harray, hr, hn, rfl⟩ := h
    rw [hl.edges _ rfl fun h => by cases h]
    refine .body hs (hp.units s hs).2.2 hm hi
      (l := .call (m.id s.unit.name) dispatch (Instruction.searchStart s.unit dispatch target)
        target.owner target.key) ?_ ?_
    · simp [Instruction.links, harray]
    · rw [Link.edges, hresolve, hr, Link.resolvedEdges, hl.core.useOfCall, useOfCall_of_member? hn]
      exact List.mem_singleton_self _

/-- Every call has an edge to the method found for it, unless it is one of a default method that
passes over the own class. The call edges of a method are those to what its searches find. -/
theorem call_edges_of_build (hp : p.Gathered) (hb : p.build = .ok g) (hs : s ∈ p.units)
    (hm : m ∈ s.unit.methods) :
    (∀ dispatch target start id, .invoke dispatch target ∈ m.body →
      Text.startsWith target.owner "[" = false → g.StartsAt s.unit dispatch target start →
      ¬ (Instruction.IsSuperCall s.unit dispatch target ∧ g.IsInterface target.owner) →
      g.resolve start .method target.key = .declared id →
      ∃ n, g.member? id = some n ∧
        ⟨m.id s.unit.name, id, .uses (dispatch.useOf target.owner n)⟩ ∈ g.edges) ∧
    ∀ use id, use.IsCall →
      (⟨m.id s.unit.name, id, .uses use⟩ ∈ g.edges ↔ g.Calls s.unit m use id) := by
  have hedge := (linked_of_build hb).call_iff hp.admissible hs hm
  refine ⟨?_, hedge⟩
  intro dispatch target start id hi harray hstart hcall hr
  obtain ⟨n, hn⟩ := exists_member?_of_resolve hr
  refine ⟨n, hn, (hedge _ id (isCall_useOf dispatch target.owner n)).mpr ?_⟩
  exact ⟨dispatch, target, n, hi, harray, hstart.searchStart hcall ▸ hr, hn, rfl⟩

section Relay

def relayGo (owner : String) : MemberRef := ⟨owner, "go", "()V"⟩

def relayBase : CompiledUnit :=
  { CompiledUnit.blank "a/I" with
    modifiers := ⟨0x601⟩
    methods := [.blank "go" "()V"] }

/-- Overrides a default method and calls it. -/
def relayFirst : CompiledUnit :=
  { CompiledUnit.blank "a/X" with
    interfaces := ["a/I"]
    methods := [(Method.blank "go" "()V").calls .special (relayGo "a/I")] }

/-- Overrides the method again and calls the one above. -/
def relaySecond : CompiledUnit :=
  { CompiledUnit.blank "a/Y" with
    superclass := some "a/X"
    methods := [(Method.blank "go" "()V").calls .special (relayGo "a/X"),
      (Method.blank "run" "()V").calls .virtual (relayGo "a/Y")] }

def relay : Program where
  platform := {}
  units := [⟨relayBase, ⟨"in/I.json"⟩⟩, ⟨relayFirst, ⟨"in/X.json"⟩⟩, ⟨relaySecond, ⟨"in/Y.json"⟩⟩]

def relayGraph : Graph := relay.complete relay.skeleton

def relayRank (id : NodeId) : Nat :=
  if id = .class_ "a/Y" then 2 else if id = .class_ "a/X" then 1 else 0

theorem gathered_relay : relay.Gathered :=
  gathered_iff.mpr ⟨by decide +kernel, by decide +kernel, by decide⟩

/-- The graph of the relay, and what its searches find. -/
theorem facts_relay :
    (∀ e ∈ relay.skeleton.edges, e.kind.isHierarchy = true →
      relayRank e.target < relayRank e.source) ∧
    (∀ s ∈ ["a/I", "a/X", "a/Y"], (relayGraph.class? s).map (·.modifiers.isInterface) =
      some (decide (s = "a/I"))) ∧
    (∀ s ∈ ["a/I", "a/X", "a/Y"], relayGraph.resolve s .method ⟨"go", "()V"⟩ =
      .declared (.method (relayGo s))) ∧
    (relayGraph.member? (.method (relayGo "a/Y"))).map (·.modifiers) = some .publicOnly ∧
    ⟨.method (relayGo "a/X"), .method (relayGo "a/I"), .uses .call⟩ ∉ relayGraph.edges := by
  decide +kernel

theorem build_relay : relay.build = .ok relayGraph :=
  build_of_ranked (ranked_of_edges facts_relay.1)

theorem isInterface_relay {name : String} (hname : name ∈ ["a/I", "a/X", "a/Y"]) :
    relayGraph.IsInterface name ↔ name = "a/I" := by
  obtain ⟨c, hc, hkind⟩ := Option.map_eq_some_iff.mp (facts_relay.2.1 name hname)
  rw [IsInterface, hc]
  simp [hkind]

/-- A call of the method of a superclass, and one on an object. -/
theorem call_edges_relay :
    relay.Gathered ∧ relay.build = .ok relayGraph ∧
    ⟨.method (relayGo "a/Y"), .method (relayGo "a/X"), .uses .call⟩ ∈ relayGraph.edges ∧
    ⟨.method ⟨"a/Y", "run", "()V"⟩, .method (relayGo "a/Y"), .uses (.virtualCall "a/Y")⟩ ∈
      relayGraph.edges := by
  obtain ⟨_, _, hresolve, hpublic, _⟩ := facts_relay
  have hunit : ⟨relaySecond, ⟨"in/Y.json"⟩⟩ ∈ relay.units := by decide
  refine ⟨gathered_relay, build_relay, ?_, ?_⟩
  · have hX : ¬ relayGraph.IsInterface "a/X" := by
      rw [isInterface_relay (by decide)]
      decide
    obtain ⟨n, _, he⟩ :=
      (call_edges_of_build gathered_relay build_relay hunit List.mem_cons_self).1
        .special (relayGo "a/X") "a/X" _ (by decide) (by decide +kernel)
        (.inl ⟨⟨rfl, by decide, by decide⟩, hX, rfl⟩) (fun h => hX h.2)
        (hresolve "a/X" (by decide))
    have huse : Dispatch.useOf .special "a/X" n = .call := by simp [Dispatch.useOf]
    rw [← huse]
    exact he
  · have hcall : ¬ Instruction.IsSuperCall relaySecond .virtual (relayGo "a/Y") :=
      fun h => by cases h.1
    obtain ⟨n, hn, he⟩ :=
      (call_edges_of_build gathered_relay build_relay hunit
        (List.mem_cons_of_mem _ List.mem_cons_self)).1
        .virtual (relayGo "a/Y") "a/Y" _ (by decide) (by decide +kernel)
        (.inr ⟨fun h => hcall h.1, rfl⟩) (fun h => hcall h.1) (hresolve "a/Y" (by decide))
    rw [hn, Option.map_some, Option.some.injEq] at hpublic
    have hname : n.name = "go" := by rw [MemberNode.name, (member?_eq_some hn).2]; rfl
    have huse : Dispatch.useOf .virtual "a/Y" n = .virtualCall "a/Y" := by
      rw [Dispatch.useOf, hname, hpublic]
      decide
    rw [← huse]
    exact he

/-- The call of the default method should start at the interface, which declares the method. It
starts at the superclass and finds nothing. -/
theorem call_edges_relay_default :
    relay.Gathered ∧ relay.build = .ok relayGraph ∧
    (∃ s ∈ relay.units, s.unit = relayFirst) ∧
    (∃ m ∈ relayFirst.methods, m.id relayFirst.name = .method (relayGo "a/X") ∧
      .invoke .special (relayGo "a/I") ∈ m.body) ∧
    relayGraph.StartsAt relayFirst .special (relayGo "a/I") "a/I" ∧
    relayGraph.resolve "a/I" .method (relayGo "a/I").key = .declared (.method (relayGo "a/I")) ∧
    ⟨.method (relayGo "a/X"), .method (relayGo "a/I"), .uses .call⟩ ∉ relayGraph.edges := by
  obtain ⟨_, _, hresolve, _, hedge⟩ := facts_relay
  have hstart : relayGraph.StartsAt relayFirst .special (relayGo "a/I") "a/I" :=
    .inr ⟨fun h => h.2 ((isInterface_relay (by decide)).mpr rfl), rfl⟩
  exact ⟨gathered_relay, build_relay, ⟨_, List.mem_cons_of_mem _ List.mem_cons_self, rfl⟩,
    ⟨_, List.mem_cons_self, rfl, by decide⟩,
    hstart, hresolve "a/I" (by decide), hedge⟩

end Relay

end Program

end Winnow
