import Winnow.Proofs.Graph.Hierarchy
import Winnow.Proofs.Program.Linked
import Winnow.Proofs.Program.Outline

/-!
# Default methods

A class that has no instance method of some key, neither its own nor from a
superclass, runs a default method: that of the first supertype that supplies
one. So no interface that supplies one is nearer to the class.

The method is maximally specific only as far as what is more specific is nearer.
A class that names two interfaces, one of which extends the other, has both as
near, and an interface that takes a default method back, or is not part of the
program, is passed over.
-/
namespace Winnow

/-- The method of that key in a class. -/
def MemberKey.methodOf (key : MemberKey) (owner : String) : NodeId :=
  .method ⟨owner, key.name, key.descriptor⟩

namespace Graph

variable {g : Graph} {id above : NodeId} {name I J : String} {key : MemberKey}

/-- The class declares a method of that key which classes below it inherit. -/
def DeclaresInstance (g : Graph) (key : MemberKey) (name : String) : Prop :=
  ∃ c m, g.class? name = some c ∧ g.member? (key.methodOf name) = some m ∧
    m.modifiers.isStatic = false ∧ m.modifiers.isPrivate = false

/-- An interface of the program that has a body for the method. -/
def Supplies (g : Graph) (key : MemberKey) (name : String) : Prop :=
  ∃ c m, g.class? name = some c ∧ c.modifiers.isInterface = true ∧ c.isProgram = true ∧
    g.member? (key.methodOf name) = some m ∧ m.modifiers.isAbstract = false ∧
    m.modifiers.isStatic = false

/-- An interface between the class `name` and the interface `I` that declares the method anew. -/
def Redeclares (g : Graph) (name : String) (key : MemberKey) (I J : String) : Prop :=
  g.ProperlyBelow name J ∧ g.ProperlyBelow J I ∧ g.IsInterface J ∧ g.DeclaresInstance key J

/-- The method of `I` is one that the class `name` can run, and no interface between them has
another. -/
def IsMaximallySpecific (g : Graph) (name : String) (key : MemberKey) (I : String) : Prop :=
  (∃ m, g.member? (key.methodOf I) = some m ∧ m.modifiers.isAbstract = false ∧
    m.modifiers.isStatic = false ∧ m.modifiers.isPrivate = false) ∧
  ∀ J, ¬ g.Redeclares name key I J

/-- Wherever an interface declares anew what another one supplies, some interface that supplies it
is nearer than that one. -/
def OverridesNearer (g : Graph) (name : String) (key : MemberKey) : Prop :=
  ∀ I J, g.ProperlyBelow name I → g.Supplies key I → g.Redeclares name key I J →
    ∃ K, g.ProperlyBelow name K ∧ g.Supplies key K ∧ g.Nearer name K I

theorem declared_method_eq_some_iff :
    g.declared name .method key = some id ↔ id = key.methodOf name ∧ g.contains id = true := by
  simp only [declared, Option.filter_eq_some_iff, Option.some.injEq]
  exact and_congr_left' eq_comm

theorem chainDecision_eq_none (h : ¬ g.DeclaresInstance key name) :
    g.chainDecision key name = none := by
  rw [Option.eq_none_iff_forall_ne_some]
  intro decision hd
  obtain ⟨c, hc, hd⟩ := Option.bind_eq_some_iff.mp hd
  obtain ⟨id, hid, hd⟩ := Option.bind_eq_some_iff.mp hd
  obtain ⟨m, hm, hd⟩ := Option.bind_eq_some_iff.mp hd
  rw [(declared_method_eq_some_iff.mp hid).1] at hm
  split at hd
  · cases hd
  next hfree =>
    rw [Bool.not_eq_true, Bool.or_eq_false_iff] at hfree
    exact h ⟨c, m, hc, hm, hfree⟩

theorem defaultMethod?_eq_some_iff : g.defaultMethod? key above = some id ↔
    ∃ I, above = .class_ I ∧ g.Supplies key I ∧ id = key.methodOf I := by
  constructor
  · intro h
    obtain ⟨n, hn, hnode⟩ := Option.bind_eq_some_iff.mp h
    obtain ⟨c, hc, hclass⟩ := Option.bind_eq_some_iff.mp hnode
    obtain rfl : n = .class_ c := by
      cases n with
      | class_ d => rw [Option.some.inj hc]
      | member d => cases hc
    obtain rfl : above = .class_ c.name := (id_of_node? hn).symm
    split at hclass
    · cases hclass
    next hinterface =>
      obtain ⟨method, hmethod, hmember⟩ := Option.bind_eq_some_iff.mp hclass
      obtain ⟨m, hm, hbody⟩ := Option.bind_eq_some_iff.mp hmember
      split at hbody
      · cases hbody
      next hhas =>
        obtain rfl := Option.some.inj hbody
        obtain ⟨rfl, _⟩ := declared_method_eq_some_iff.mp hmethod
        rw [Bool.not_eq_true, Bool.or_eq_false_iff] at hinterface hhas
        rw [Bool.not_eq_false', Bool.not_eq_false'] at hinterface
        exact ⟨c.name, rfl, ⟨c, m, class?_of_node? hn, hinterface.1, hinterface.2, hm, hhas⟩, rfl⟩
  · intro h
    obtain ⟨I, rfl, ⟨c, m, hc, hinterface, hprogram, hm, habstract, hstatic⟩, rfl⟩ := h
    have hname := (class?_eq_some hc).2
    have hmethod : g.declared I .method key = some (key.methodOf I) :=
      declared_method_eq_some_iff.mpr
        ⟨rfl, contains_iff_node?.mpr ⟨_, (member?_eq_some hm).1⟩⟩
    simp [defaultMethod?, (class?_eq_some hc).1, Node.class?, hinterface, hprogram, hname, hmethod,
      hm, habstract, hstatic]

theorem implementation_of_chain {h : Hierarchy}
    (hchain : ∀ s ∈ g.superclassChain name, ¬ g.DeclaresInstance key s) :
    g.implementation h (.class_ name) key =
      (h.supertypes (.class_ name)).findSome? (g.defaultMethod? key) := by
  have hnone : (g.superclassChain name).findSome? (g.chainDecision key) = none := by
    rw [List.findSome?_eq_none_iff]
    exact fun s hs => chainDecision_eq_none (hchain s hs)
  simp only [implementation, NodeId.className, hnone]

section Choice

variable (hg : g.WellFormed) (hacyclic : ∀ id, ¬ g.OnCycle id)
  (hchain : ∀ s ∈ g.superclassChain name, ¬ g.DeclaresInstance key s)
include hg hacyclic hchain

/-- A class that has no method otherwise runs one as soon as an interface supplies it. -/
theorem exists_implementation_iff :
    (∃ id, g.implementation g.hierarchy (.class_ name) key = some id) ↔
      ∃ J, g.ProperlyBelow name J ∧ g.Supplies key J := by
  rw [implementation_of_chain hchain]
  constructor
  · intro h
    obtain ⟨id, hid⟩ := h
    obtain ⟨above, hmem, habove⟩ := List.exists_of_findSome?_eq_some hid
    obtain ⟨J, rfl, hsupplies, _⟩ := defaultMethod?_eq_some_iff.mp habove
    exact ⟨J, (hg.mem_supertypes_iff hacyclic).mp hmem, hsupplies⟩
  · intro h
    obtain ⟨J, hbelow, hsupplies⟩ := h
    rw [← Option.isSome_iff_exists, List.findSome?_isSome_iff]
    refine ⟨.class_ J, (hg.mem_supertypes_iff hacyclic).mpr hbelow, ?_⟩
    rw [defaultMethod?_eq_some_iff.mpr ⟨J, rfl, hsupplies, rfl⟩]
    rfl

/-- The method comes from an interface that no other one with such a method is nearer than. -/
theorem nearest_of_implementation
    (hi : g.implementation g.hierarchy (.class_ name) key = some id) :
    ∃ I, id = key.methodOf I ∧ g.ProperlyBelow name I ∧ g.Supplies key I ∧
      ∀ J, g.ProperlyBelow name J → g.Supplies key J → ¬ g.Nearer name J I := by
  rw [implementation_of_chain hchain, List.findSome?_eq_some_iff] at hi
  obtain ⟨pre, above, post, horder, habove, hpre⟩ := hi
  obtain ⟨I, rfl, hsupplies, rfl⟩ := defaultMethod?_eq_some_iff.mp habove
  have hmem : .class_ I ∈ g.hierarchy.supertypes (.class_ name) := by
    rw [horder]
    simp
  refine ⟨I, rfl, (hg.mem_supertypes_iff hacyclic).mp hmem, hsupplies, ?_⟩
  intro J hbelow hJ hnearer
  obtain ⟨n, hn, hfar⟩ := hnearer
  have hJmem := (hg.mem_supertypes_iff hacyclic).mpr hbelow
  rw [horder, List.mem_append, List.mem_cons] at hJmem
  rcases hJmem with hJmem | hJmem | hJmem
  · have hsome := defaultMethod?_eq_some_iff.mpr ⟨J, rfl, hJ, rfl⟩
    rw [hpre _ hJmem] at hsome
    cases hsome
  · exact hfar n (Nat.le_refl n) (hJmem ▸ hn)
  · have hnearest := hg.coherent.pairwise_ancestors (.class_ name)
    rw [← hg.supertypes_class, horder, List.pairwise_append, List.pairwise_cons] at hnearest
    obtain ⟨m, hm, hsteps⟩ := hnearest.2.1.1 (.class_ J) hJmem n hn
    exact hfar m hm hsteps

end Choice

/-- The nearest method is maximally specific if what is declared anew is never nearest. -/
theorem isMaximallySpecific_iff (hover : g.OverridesNearer name key)
    (hbelow : g.ProperlyBelow name I) (hI : g.Supplies key I)
    (hnearest : ∀ J, g.ProperlyBelow name J → g.Supplies key J → ¬ g.Nearer name J I) :
    g.IsMaximallySpecific name key I ↔
      ∀ m, g.member? (key.methodOf I) = some m → m.modifiers.isPrivate = false := by
  have hbody := hI
  obtain ⟨_, m, _, _, _, hm, habstract, hstatic⟩ := hbody
  constructor
  · intro h k hk
    obtain ⟨⟨n, hn, _, _, hprivate⟩, _⟩ := h
    rw [Option.some.inj (hk.symm.trans hn)]
    exact hprivate
  · intro hprivate
    refine ⟨⟨m, hm, habstract, hstatic, hprivate m hm⟩, fun J hJ => ?_⟩
    obtain ⟨K, hK, hsupplies, hnearer⟩ := hover I J hbelow hI hJ
    exact hnearest K hK hsupplies hnearer

end Graph

namespace Program

variable {p : Program} {g : Graph} {name : String} {key : MemberKey}

theorem not_onCycle_of_build (hb : p.build = .ok g) (id : NodeId) : ¬ g.OnCycle id := by
  obtain ⟨rank, hrank⟩ := exists_ranked_of_build hb
  exact hrank.not_onCycle id

/-- A class runs a default method where no superclass has an instance method and some interface
above supplies one. None that supplies one is nearer than that of the method. If what is declared
anew is never nearest, a method that is not private is maximally specific. -/
theorem implementation_default_nearest (hb : p.build = .ok g)
    (hchain : ∀ s ∈ g.superclassChain name, ¬ g.DeclaresInstance key s) :
    ((∃ id, g.implementation g.hierarchy (.class_ name) key = some id) ↔
      ∃ J, g.ProperlyBelow name J ∧ g.Supplies key J) ∧
    ∀ id, g.implementation g.hierarchy (.class_ name) key = some id →
      ∃ I, id = key.methodOf I ∧ g.ProperlyBelow name I ∧ g.Supplies key I ∧
        (∀ J, g.ProperlyBelow name J → g.Supplies key J → ¬ g.Nearer name J I) ∧
        (g.OverridesNearer name key → (g.IsMaximallySpecific name key I ↔
          ∀ m, g.member? id = some m → m.modifiers.isPrivate = false)) := by
  have hg := wellFormed_of_build hb
  have hacyclic := not_onCycle_of_build hb
  refine ⟨Graph.exists_implementation_iff hg hacyclic hchain, fun id hi => ?_⟩
  obtain ⟨I, rfl, hbelow, hsupplies, hnearest⟩ :=
    Graph.nearest_of_implementation hg hacyclic hchain hi
  exact ⟨I, rfl, hbelow, hsupplies, hnearest,
    fun hover => Graph.isMaximallySpecific_iff hover hbelow hsupplies hnearest⟩

section Diamond

/-- Two interfaces with a default method each, of which one extends the other, and a class that
names the more specific one, and the other one too or not. -/
def diamond (both : Bool) : Program where
  platform := {}
  units := [
    ⟨{ CompiledUnit.blank "a/I" with
        modifiers := ⟨0x601⟩
        methods := [.blank "go" "()V"] }, ⟨"in/I.json"⟩⟩,
    ⟨{ CompiledUnit.blank "a/J" with
        modifiers := ⟨0x601⟩
        interfaces := ["a/I"]
        methods := [.blank "go" "()V"] }, ⟨"in/J.json"⟩⟩,
    ⟨{ CompiledUnit.blank "a/X" with
        interfaces := if both then ["a/J", "a/I"] else ["a/J"] }, ⟨"in/X.json"⟩⟩]

def diamondGraph (both : Bool) : Graph := (diamond both).complete (diamond both).skeleton

def diamondKey : MemberKey := ⟨"go", "()V"⟩

def diamondRank (id : NodeId) : Nat :=
  if id = .class_ "a/X" then 2 else if id = .class_ "a/J" then 1 else 0

theorem gathered_diamond (both : Bool) : (diamond both).Gathered :=
  gathered_iff.mpr (by cases both <;> exact ⟨by decide +kernel, by decide +kernel, by decide⟩)

/-- The graph of the diamond, and what its class runs. -/
theorem facts_diamond : ∀ b,
    (∀ e ∈ (diamond b).skeleton.edges ++ (diamondGraph b).edges, e.kind.isHierarchy = true →
      diamondRank e.target < diamondRank e.source) ∧
    (diamondGraph b).superclassChain "a/X" = ["a/X", objectClass] ∧
    (∀ s ∈ ["a/X", objectClass], (diamondGraph b).member? (diamondKey.methodOf s) = none) ∧
    (diamondGraph b).implementation (diamondGraph b).hierarchy (.class_ "a/X") diamondKey =
      some (diamondKey.methodOf (if b then "a/I" else "a/J")) ∧
    (diamondGraph b).parents (.class_ "a/X") =
      (if b then [.class_ "a/I", .class_ "a/J"] else [.class_ "a/J"]) ∧
    (diamondGraph b).parents (.class_ "a/J") = [.class_ "a/I"] ∧
    ((diamondGraph b).class? "a/J").any (fun c => c.modifiers.isInterface && c.isProgram) = true ∧
    ((diamondGraph b).member? (diamondKey.methodOf "a/J")).map (·.modifiers) =
      some .publicOnly := by
  decide +kernel

theorem ranked_diamond (both : Bool) :
    (diamond both).skeleton.Ranked diamondRank ∧ (diamondGraph both).Ranked diamondRank := by
  obtain ⟨hedges, _⟩ := facts_diamond both
  exact ⟨Graph.ranked_of_edges fun e he => hedges e (List.mem_append_left _ he),
    Graph.ranked_of_edges fun e he => hedges e (List.mem_append_right _ he)⟩

theorem build_diamond (both : Bool) : (diamond both).build = .ok (diamondGraph both) :=
  build_of_ranked (ranked_diamond both).1

theorem chain_diamond (both : Bool) : ∀ s ∈ (diamondGraph both).superclassChain "a/X",
    ¬ (diamondGraph both).DeclaresInstance diamondKey s := by
  obtain ⟨_, hchain, hnone, _⟩ := facts_diamond both
  rw [hchain]
  rintro s hs ⟨_, m, _, hm, _⟩
  rw [hnone s hs] at hm
  cases hm

/-- What the more specific interface is and declares. -/
theorem specific_diamond (both : Bool) :
    (diamondGraph both).ProperlyBelow "a/X" "a/J" ∧ (diamondGraph both).IsInterface "a/J" ∧
      (diamondGraph both).Supplies diamondKey "a/J" ∧
      (diamondGraph both).DeclaresInstance diamondKey "a/J" := by
  obtain ⟨_, _, _, _, hX, _, hclass, hmember⟩ := facts_diamond both
  obtain ⟨c, hc, hkind⟩ := (Option.any_eq_true _ _).mp hclass
  obtain ⟨m, hm, hmods⟩ := Option.map_eq_some_iff.mp hmember
  rw [Bool.and_eq_true] at hkind
  have hfree : m.modifiers.isAbstract = false ∧ m.modifiers.isStatic = false ∧
      m.modifiers.isPrivate = false := by
    rw [hmods]
    decide
  have hup : .class_ "a/J" ∈ (diamondGraph both).parents (.class_ "a/X") := by
    rw [hX]
    cases both <;> decide
  exact ⟨.single hup, ⟨c, hc, hkind.1⟩, ⟨c, m, hc, hkind.1, hkind.2, hm, hfree.1, hfree.2.1⟩,
    c, m, hc, hm, hfree.2⟩

/-- Without the second name the more specific interface is nearer. -/
theorem overridesNearer_diamond : (diamondGraph false).OverridesNearer "a/X" diamondKey := by
  intro I J _ _ hredeclares
  obtain ⟨hJ, hI, _⟩ := hredeclares
  obtain ⟨_, _, _, _, hX, _⟩ := facts_diamond false
  obtain ⟨hbelow, _, hsupplies, _⟩ := specific_diamond false
  have hlow := (ranked_diamond false).2.lt_of_transGen hJ
  have hlower := (ranked_diamond false).2.lt_of_transGen hI
  have htop : diamondRank (.class_ "a/X") = 2 := by decide
  have hmid : diamondRank (.class_ "a/J") = 1 := by decide
  have hup : .class_ "a/J" ∈ (diamondGraph false).parents (.class_ "a/X") := by
    rw [hX]
    decide
  refine ⟨"a/J", hbelow, hsupplies, 1, .step .here hup, fun m hm hsteps => ?_⟩
  cases hsteps with
  | here => omega
  | @step n b c hfirst hlast =>
    obtain rfl : n = 0 := by omega
    cases hfirst
    rw [hX, if_neg (by decide), List.mem_singleton] at hlast
    rw [hlast] at hlower
    omega

/-- A class that names the more specific interface alone runs its method. -/
theorem implementation_diamond_specific :
    (diamond false).Gathered ∧ (diamond false).build = .ok (diamondGraph false) ∧
    (diamondGraph false).implementation (diamondGraph false).hierarchy (.class_ "a/X") diamondKey =
      some (diamondKey.methodOf "a/J") ∧
    (diamondGraph false).IsMaximallySpecific "a/X" diamondKey "a/J" := by
  obtain ⟨_, _, _, hi, _, _, _, hmember⟩ := facts_diamond false
  rw [if_neg (by decide)] at hi
  obtain ⟨I, hI, _, _, _, hspecific⟩ :=
    (implementation_default_nearest (build_diamond false) (chain_diamond false)).2 _ hi
  obtain rfl : I = "a/J" := by
    simpa [MemberKey.methodOf] using hI.symm
  refine ⟨gathered_diamond false, build_diamond false, hi,
    (hspecific overridesNearer_diamond).mpr fun m hm => ?_⟩
  rw [hm, Option.map_some, Option.some.injEq] at hmember
  rw [hmember]
  decide

/-- A class that names both runs the method of the other one, although the more specific one declares
it anew. -/
theorem implementation_diamond_overridden :
    (diamond true).Gathered ∧ (diamond true).build = .ok (diamondGraph true) ∧
    (∀ s ∈ (diamondGraph true).superclassChain "a/X",
      ¬ (diamondGraph true).DeclaresInstance diamondKey s) ∧
    (diamondGraph true).implementation (diamondGraph true).hierarchy (.class_ "a/X") diamondKey =
      some (diamondKey.methodOf "a/I") ∧
    (diamondGraph true).Redeclares "a/X" diamondKey "a/I" "a/J" := by
  obtain ⟨_, _, _, hi, _, hJ, _⟩ := facts_diamond true
  obtain ⟨hbelow, hinterface, _, hdeclares⟩ := specific_diamond true
  have habove : .class_ "a/I" ∈ (diamondGraph true).parents (.class_ "a/J") := by
    rw [hJ]
    exact List.mem_singleton_self _
  exact ⟨gathered_diamond true, build_diamond true, chain_diamond true, hi, hbelow,
    .single habove, hinterface, hdeclares⟩

end Diamond

end Program

end Winnow
