import Mathlib.Data.List.Basic
import Winnow.KeepRule
import Winnow.Marking.Basic
import Winnow.Proofs.Link.Apply

/-!
# What look-ups depend on

Looking up a member, and choosing the method that a receiver runs, depends on
the known classes and their members alone, and not on their generic signatures.
Stand-ins for unknown classes make no difference: a class that is not there at
all is treated like a class of which nothing is known.
-/
namespace Winnow

namespace Graph

variable {g g' : Graph} {name : String} {id : NodeId} {n : Node}

section SearchOrder

theorem mem_typeNames_of_superclass? {s : String} (h : g.superclass? name = some s) :
    s ∈ g.typeNames := by
  obtain ⟨c, hc, hs⟩ := Option.bind_eq_some_iff.mp h
  have hmem : c ∈ g.classes := mem_classes.mpr (mem_of_node? (class?_eq_some hc).1)
  exact List.mem_flatMap.mpr ⟨c, hmem, by simp [hs]⟩

theorem mem_typeNames_of_interfacesOf {s : String} (h : s ∈ g.interfacesOf name) :
    s ∈ g.typeNames := by
  unfold interfacesOf at h
  cases hc : g.class? name with
  | none => simp [hc] at h
  | some c =>
    have hmem : c ∈ g.classes := mem_classes.mpr (mem_of_node? (class?_eq_some hc).1)
    simp only [hc, Option.map_some, Option.getD_some] at h
    exact List.mem_flatMap.mpr ⟨c, hmem, by simp [h]⟩

/-- Two graphs say the same of the supertypes of all types of a region. -/
structure SameAbove (P : String → Prop) (g g' : Graph) : Prop where
  closed : ∀ n, P n → ∀ s, g.superclass? n = some s ∨ s ∈ g.interfacesOf n → P s
  superclass : ∀ n, P n → g.superclass? n = g'.superclass? n
  interfaces : ∀ n, P n → g.interfacesOf n = g'.interfacesOf n

variable {P : String → Prop}

/-- A search for superclasses goes from the start to superclasses only. -/
theorem SameAbove.superclassChain (h : SameAbove P g g') (hn : P name) :
    g.superclassChain name = g'.superclassChain name := by
  -- Beyond the start, every place is the superclass of some class of either graph.
  refine breadthFirst_congr (fun n => P n ∧
    (n = name ∨ ∃ k, P k ∧ g.superclass? k = some n)) ?_ ?_ ?_ ?_
  · rintro n ⟨hPn, _⟩ s hs
    have hs : g.superclass? n = some s := by simpa using hs
    exact ⟨h.closed n hPn s (.inl hs), .inr ⟨n, hPn, hs⟩⟩
  · rintro n ⟨hPn, _⟩
    rw [h.superclass n hPn]
  · rintro n ⟨_, rfl | ⟨k, hPk, hk⟩⟩
    · simp
    · have hk' := hk
      rw [h.superclass k hPk] at hk'
      simp [mem_typeNames_of_superclass? hk, mem_typeNames_of_superclass? hk']
  · intro n hmem
    obtain rfl : n = name := by simpa using hmem
    exact ⟨hn, .inl rfl⟩

theorem SameAbove.of_mem_superclassChain (h : SameAbove P g g') (hn : P name) {s : String}
    (hs : s ∈ g.superclassChain name) : P s := by
  obtain ⟨q, hq, hreach⟩ := reachable_of_mem_breadthFirst hs
  obtain rfl : q = name := by simpa using hq
  clear hs
  induction hreach with
  | refl => exact hn
  | tail _ hstep ih => exact h.closed _ ih _ (.inl (by simpa using hstep))

theorem SameAbove.searchOrder (h : SameAbove P g g') (hn : P name) :
    g.searchOrder name = g'.searchOrder name := by
  unfold Graph.searchOrder
  dsimp only
  rw [← h.superclassChain hn]
  have hchain : ∀ s ∈ g.superclassChain name, P s := fun s hs => h.of_mem_superclassChain hn hs
  have hqueue : (g.superclassChain name).flatMap g.interfacesOf =
      (g.superclassChain name).flatMap g'.interfacesOf := by
    exact List.flatMap_congr fun s hs => h.interfaces s (hchain s hs)
  congr 1
  rw [← hqueue]
  refine breadthFirst_congr (fun n => P n ∧ ∃ k, P k ∧ n ∈ g.interfacesOf k) ?_ ?_ ?_ ?_
  · rintro n ⟨hPn, _⟩ s hs
    exact ⟨h.closed n hPn s (.inr hs), n, hPn, hs⟩
  · rintro n ⟨hPn, _⟩
    exact h.interfaces n hPn
  · rintro n ⟨_, k, hPk, hk⟩
    have hk' := hk
    rw [h.interfaces k hPk] at hk'
    simp [mem_typeNames_of_interfacesOf hk, mem_typeNames_of_interfacesOf hk']
  · intro n hmem
    obtain ⟨k, hk, hn⟩ := List.mem_flatMap.mp hmem
    exact ⟨h.closed k (hchain k hk) n (.inr hn), k, hchain k hk, hn⟩

theorem SameAbove.of_mem_searchOrder (h : SameAbove P g g') (hn : P name) {s : String}
    (hs : s ∈ g.searchOrder name) : P s := by
  rcases List.mem_append.mp hs with hchain | hbeyond
  · exact h.of_mem_superclassChain hn hchain
  · obtain ⟨q, hq, hreach⟩ := reachable_of_mem_breadthFirst hbeyond
    obtain ⟨k, hk, hqk⟩ := List.mem_flatMap.mp hq
    have hPq : P q := h.closed k (h.of_mem_superclassChain hn hk) q (.inr hqk)
    clear hs hbeyond
    induction hreach with
    | refl => exact hPq
    | tail _ hstep ih => exact h.closed _ ih _ (.inr hstep)

/-- Two graphs resolve alike if all types in the search order say the same of the member. -/
theorem resolve_congr {start : String} {kind : NodeKind} {key : MemberKey}
    (horder : g.searchOrder start = g'.searchOrder start)
    (hin : ∀ s ∈ g.searchOrder start, g.resolveIn kind key s = g'.resolveIn kind key s)
    (hopen : ∀ s ∈ g.searchOrder start, g.isOpaque s = g'.isOpaque s) :
    g.resolve start kind key = g'.resolve start kind key := by
  unfold resolve
  dsimp only
  rw [← horder]
  have hfind : (g.searchOrder start).findSome? (g.resolveIn kind key) =
      (g.searchOrder start).findSome? (g'.resolveIn kind key) := by
    generalize g.searchOrder start = order at hin
    induction order with
    | nil => rfl
    | cons s order ih =>
      rw [List.findSome?_cons, List.findSome?_cons, hin s List.mem_cons_self,
        ih fun x hx => hin x (List.mem_cons_of_mem s hx)]
  have hany : (g.searchOrder start).any g.isOpaque = (g.searchOrder start).any g'.isOpaque := by
    rw [Bool.eq_iff_iff, List.any_eq_true, List.any_eq_true]
    exact exists_congr fun s => and_congr_right fun hs => by rw [hopen s hs]
  rw [hfind, hany]

end SearchOrder

end Graph

/-- The class without its generic signature. -/
def ClassNode.bare (c : ClassNode) : ClassNode := { c with signature := none }

/-- What places a class in the hierarchy, and where it comes from, is the same. -/
structure ClassNode.SameProfile (c c' : ClassNode) : Prop where
  name : c'.name = c.name
  modifiers : c'.modifiers = c.modifiers
  superclass : c'.superclass = c.superclass
  interfaces : c'.interfaces = c.interfaces
  origin : c'.origin = c.origin

theorem ClassNode.SameProfile.isProgram {c c' : ClassNode} (h : c.SameProfile c') :
    c'.isProgram = c.isProgram := by
  rw [ClassNode.isProgram, ClassNode.isProgram, h.origin]

theorem ClassNode.profile_of_bare_eq {c c' : ClassNode} (h : c'.bare = c.bare) : c.SameProfile c' := by
  simp only [ClassNode.bare, ClassNode.mk.injEq] at h
  obtain ⟨hname, hmodifiers, hsuperclass, hinterfaces, _, _, _, _, _, horigin⟩ := h
  exact ⟨hname, hmodifiers, hsuperclass, hinterfaces, horigin⟩

theorem ClassNode.members_of_bare_eq {c c' : ClassNode} (h : c'.bare = c.bare) :
    c'.members = c.members := by
  show c'.bare.members = c.bare.members
  rw [h]

/-- The member without its generic signature. -/
def MemberNode.bare (m : MemberNode) : MemberNode := { m with signature := none }

/-- The node without its generic signature. -/
def Node.bare : Node → Node
  | .class_ c => .class_ c.bare
  | .member m => .member m.bare

namespace Node

@[simp] theorem id_bare (n : Node) : n.bare.id = n.id := by cases n <;> rfl

@[simp] theorem isUnresolved_bare (n : Node) :
    Marking.isUnresolved n.bare = Marking.isUnresolved n := by cases n <;> rfl

@[simp] theorem profile_bare (n : Node) : n.bare.profile = n.profile := by cases n <;> rfl

@[simp] theorem class?_bare (n : Node) : n.bare.class? = n.class?.map ClassNode.bare := by
  cases n <;> rfl

@[simp] theorem member?_bare (n : Node) : n.bare.member? = n.member?.map MemberNode.bare := by
  cases n <;> rfl

end Node

namespace Graph

variable {g g' : Graph} {name : String} {id : NodeId} {n : Node} {platform : Platform}

/-- A node that does not stand in for an unknown class, without its signature. -/
def core (g : Graph) (id : NodeId) : Option Node :=
  ((g.node? id).filter fun n => !Marking.isUnresolved n).map Node.bare

theorem core_eq_some_iff {b : Node} : g.core id = some b ↔
    ∃ n, g.node? id = some n ∧ Marking.isUnresolved n = false ∧ n.bare = b := by
  simp only [core, Option.map_eq_some_iff, Option.filter_eq_some_iff, Bool.not_eq_true', and_assoc]

theorem core_eq_none_iff : g.core id = none ↔
    ∀ n, g.node? id = some n → Marking.isUnresolved n = true := by
  simp only [core, Option.map_eq_none_iff, Option.filter_eq_none_iff, Bool.not_eq_true',
    Bool.not_eq_false]

/-- The graphs have the same known classes and members, apart from signatures. -/
def SameCore (g g' : Graph) : Prop := ∀ id, g.core id = g'.core id

theorem SameCore.symm (h : SameCore g g') : SameCore g' g := fun id => (h id).symm

theorem SameCore.trans {g'' : Graph} (h : SameCore g g') (h' : SameCore g' g'') : SameCore g g'' :=
  fun id => (h id).trans (h' id)

/-- A known node has a counterpart in a graph with the same core. -/
theorem SameCore.exists_node? (h : SameCore g g') (hn : g.node? id = some n)
    (hu : Marking.isUnresolved n = false) :
    ∃ n', g'.node? id = some n' ∧ n'.bare = n.bare ∧ Marking.isUnresolved n' = false := by
  have hc : g'.core id = some n.bare := by
    rw [← h id]
    exact core_eq_some_iff.mpr ⟨n, hn, hu, rfl⟩
  obtain ⟨n', hn', hu', hb⟩ := core_eq_some_iff.mp hc
  exact ⟨n', hn', hb, hu'⟩

/-- Unknown classes are stand-ins without members, and none of them is of the platform. -/
structure Tame (platform : Platform) (g : Graph) : Prop where
  standIn : ∀ id n, g.node? id = some n → Marking.isUnresolved n = true →
    ∃ name, n = .class_ (.placeholder name .unresolved) ∧ platform.recognizes name = false
  owner : ∀ id m, g.member? id = some m →
    ∃ c, g.class? id.className = some c ∧ c.origin ≠ .unresolved

/-- What is known of a class. -/
def known? (g : Graph) (name : String) : Option ClassNode := (g.core (.class_ name)).bind Node.class?

theorem known?_eq_some_iff {b : ClassNode} : g.known? name = some b ↔
    ∃ c, g.class? name = some c ∧ c.origin ≠ .unresolved ∧ c.bare = b := by
  simp only [known?, Option.bind_eq_some_iff, core_eq_some_iff]
  constructor
  · rintro ⟨_, ⟨n, hn, hu, rfl⟩, hb⟩
    cases n with
    | member m => cases hb
    | class_ c =>
      refine ⟨c, class?_of_node? hn, ?_, Option.some.inj hb⟩
      simpa [Marking.isUnresolved] using hu
  · rintro ⟨c, hc, ho, rfl⟩
    refine ⟨_, ⟨.class_ c, (class?_eq_some hc).1, ?_, rfl⟩, rfl⟩
    simpa [Marking.isUnresolved] using ho

theorem SameCore.known? (h : SameCore g g') : g.known? name = g'.known? name := by
  rw [Graph.known?, Graph.known?, h]

/-- Nothing is known of the class. -/
def Blank (g : Graph) (name : String) : Prop :=
  g.class? name = none ∨ g.class? name = some (.placeholder name .unresolved)

/-- A class that is there and not known is a stand-in, and not of the platform. -/
theorem Tame.of_known?_eq_none (hg : g.Tame platform) (hk : g.known? name = none) {c : ClassNode}
    (hc : g.class? name = some c) :
    c = .placeholder name .unresolved ∧ platform.recognizes name = false := by
  have ho : c.origin = .unresolved := by
    refine Decidable.byContradiction fun ho => ?_
    rw [known?_eq_some_iff.mpr ⟨c, hc, ho, rfl⟩] at hk
    cases hk
  obtain ⟨hn, rfl⟩ := class?_eq_some hc
  obtain ⟨k, hk, hp⟩ := hg.standIn _ _ hn (by simp [Marking.isUnresolved, ho])
  obtain rfl : c = .placeholder k .unresolved := by simpa using hk
  exact ⟨rfl, hp⟩

theorem Tame.blank_of_known? (hg : g.Tame platform) (hk : g.known? name = none) : g.Blank name := by
  cases hc : g.class? name with
  | none => exact .inl hc
  | some c => exact .inr (by rw [hc, (hg.of_known?_eq_none hk hc).1])

/-- In graphs with the same core a class is known in both, with the same content, or in neither. -/
theorem SameCore.class?_cases (h : SameCore g g') (hg : g.Tame platform) (hg' : g'.Tame platform)
    (name : String) :
    (∃ c c', g.class? name = some c ∧ g'.class? name = some c' ∧ c'.bare = c.bare) ∨
    g.Blank name ∧ g'.Blank name := by
  have hk : g.known? name = g'.known? name := h.known?
  cases hkn : g.known? name with
  | none => exact .inr ⟨hg.blank_of_known? hkn, hg'.blank_of_known? (hk ▸ hkn)⟩
  | some b =>
    obtain ⟨c, hc, _, hb⟩ := known?_eq_some_iff.mp hkn
    obtain ⟨c', hc', _, hb'⟩ := known?_eq_some_iff.mp (hk ▸ hkn)
    exact .inl ⟨c, c', hc, hc', hb'.trans hb.symm⟩

/-- A class of the one graph is that of the other, its signature apart, or it stands in. -/
theorem SameCore.class?_of_eq_some (h : SameCore g g') (hg : g.Tame platform)
    (hg' : g'.Tame platform) {c : ClassNode} (hc : g.class? name = some c) :
    (∃ c', g'.class? name = some c' ∧ c'.bare = c.bare) ∨ c = .placeholder name .unresolved := by
  rcases h.class?_cases hg hg' name with ⟨d, d', hd, hd', hb⟩ | ⟨hb, _⟩
  · obtain rfl := Option.some.inj (hc.symm.trans hd)
    exact .inl ⟨d', hd', hb⟩
  · rcases hb with hb | hb
    · cases hc.symm.trans hb
    · exact .inr (Option.some.inj (hc.symm.trans hb))

/-- What both graphs have differs in its signature at most. -/
theorem SameCore.bare_eq (h : SameCore g g') (hg : g.Tame platform) (hg' : g'.Tame platform)
    {n' : Node} (hn : g.node? id = some n) (hn' : g'.node? id = some n') : n'.bare = n.bare := by
  cases hu : Marking.isUnresolved n with
  | false =>
    obtain ⟨k, hk, hbare, _⟩ := h.exists_node? hn hu
    rw [Option.some.inj (hn'.symm.trans hk), hbare]
  | true =>
    have hcore : g.core id = none := core_eq_none_iff.mpr fun k hk =>
      Option.some.inj (hn.symm.trans hk) ▸ hu
    have hu' := core_eq_none_iff.mp ((h id).symm.trans hcore) n' hn'
    obtain ⟨name, rfl, _⟩ := hg.standIn id n hn hu
    obtain ⟨name', rfl, _⟩ := hg'.standIn id n' hn' hu'
    have hid : name' = name := NodeId.class_.inj ((id_of_node? hn').trans (id_of_node? hn).symm)
    rw [hid]

theorem Blank.superclass? (h : g.Blank name) : g.superclass? name = none := by
  rcases h with h | h <;> simp [Graph.superclass?, h, ClassNode.placeholder]

theorem Blank.interfacesOf (h : g.Blank name) : g.interfacesOf name = [] := by
  rcases h with h | h <;> simp [Graph.interfacesOf, h, ClassNode.placeholder]

theorem Blank.isOpaque (h : g.Blank name) : g.isOpaque name = decide (name ≠ objectClass) := by
  have hp : (ClassNode.placeholder name .unresolved).isPlaceholder = true := rfl
  rcases h with h | h <;> simp [Graph.isOpaque, h, hp]

section Members

/-- Under the identity of a member there is a member. -/
theorem member?_of_contains (hid : id.isClass = false)
    (hc : g.contains id = true) : ∃ m, g.member? id = some m := by
  obtain ⟨n, hn⟩ := contains_iff_node?.mp hc
  cases n with
  | member m => exact ⟨m, member?_of_node? hn⟩
  | class_ c =>
    have : (Node.class_ c).id = id := id_of_node? hn
    rw [← this] at hid
    cases hid

theorem SameCore.member?_cases (h : SameCore g g') (id : NodeId) :
    (∃ m m', g.member? id = some m ∧ g'.member? id = some m' ∧ m'.bare = m.bare) ∨
    g.member? id = none ∧ g'.member? id = none := by
  have hone : ∀ {g g' : Graph}, SameCore g g' → ∀ m, g.member? id = some m →
      ∃ m', g'.member? id = some m' ∧ m'.bare = m.bare := by
    intro g g' h m hm
    obtain ⟨n', hn', hb, _⟩ := h.exists_node? (member?_eq_some hm).1 rfl
    cases n' with
    | class_ c => cases hb
    | member m' => exact ⟨m', member?_of_node? hn', Node.member.inj hb⟩
  cases hm : g.member? id with
  | some m =>
    obtain ⟨m', hm', hb⟩ := hone h m hm
    exact .inl ⟨m, m', rfl, hm', hb⟩
  | none =>
    cases hm' : g'.member? id with
    | none => exact .inr ⟨rfl, rfl⟩
    | some m' =>
      obtain ⟨m, hm₂, _⟩ := hone h.symm m' hm'
      simp [hm] at hm₂

theorem MemberNode.of_bare_eq {m m' : MemberNode} (h : m'.bare = m.bare) :
    m'.id = m.id ∧ m'.modifiers = m.modifiers := by
  simp only [MemberNode.bare, MemberNode.mk.injEq] at h
  exact ⟨h.1, h.2.1⟩

theorem SameCore.contains_eq (h : SameCore g g') (hid : id.isClass = false) :
    g.contains id = g'.contains id := by
  have hone : ∀ {g g' : Graph}, SameCore g g' → g.contains id = true → g'.contains id = true := by
    intro g g' h hc
    obtain ⟨m, hm⟩ := member?_of_contains hid hc
    rcases h.member?_cases id with ⟨_, m', _, hm', _⟩ | ⟨hnone, _⟩
    · exact contains_iff_node?.mpr ⟨_, (member?_eq_some hm').1⟩
    · simp [hm] at hnone
  exact Bool.eq_iff_iff.mpr ⟨hone h, hone h.symm⟩

theorem SameCore.declared (h : SameCore g g') (name : String) (kind : NodeKind) (key : MemberKey) :
    g.declared name kind key = g'.declared name kind key := by
  cases kind with
  | class_ => rfl
  | method => simp only [Graph.declared, Option.filter, h.contains_eq (show (NodeId.method _).isClass = false from rfl)]
  | field => simp only [Graph.declared, Option.filter, h.contains_eq (show (NodeId.field _).isClass = false from rfl)]

theorem declared_spec {kind : NodeKind} {key : MemberKey} (h : g.declared name kind key = some id) :
    id.isClass = false ∧ id.className = name := by
  cases kind with
  | class_ => simp [Graph.declared] at h
  | method | field =>
    simp only [Graph.declared, Option.filter_eq_some_iff, Option.some.injEq] at h
    obtain ⟨rfl, _⟩ := h
    exact ⟨rfl, rfl⟩

/-- A class of which nothing is known declares nothing. -/
theorem Blank.declared (hb : g.Blank name) (hg : g.Tame platform)
    (kind : NodeKind) (key : MemberKey) : g.declared name kind key = none := by
  cases hd : g.declared name kind key with
  | none => rfl
  | some id =>
    obtain ⟨hid, rfl⟩ := declared_spec hd
    obtain ⟨m, hm⟩ := member?_of_contains hid (contains_of_declared hd)
    obtain ⟨c, hc, ho⟩ := hg.owner id m hm
    rcases hb with hb | hb
    · simp [hb] at hc
    · obtain rfl : ClassNode.placeholder id.className .unresolved = c := by simpa [hb] using hc
      exact (ho rfl).elim

end Members

section Congruence

variable (h : SameCore g g') (hg : g.Tame platform) (hg' : g'.Tame platform)
include h hg hg'

theorem SameCore.sameAbove : SameAbove (fun _ => True) g g' where
  closed _ _ _ _ := trivial
  superclass n _ := by
    rcases h.class?_cases hg hg' n with ⟨c, c', hc, hc', hb⟩ | ⟨hn, hn'⟩
    · simp [superclass?, hc, hc', (ClassNode.profile_of_bare_eq hb).superclass]
    · rw [hn.superclass?, hn'.superclass?]
  interfaces n _ := by
    rcases h.class?_cases hg hg' n with ⟨c, c', hc, hc', hb⟩ | ⟨hn, hn'⟩
    · simp [interfacesOf, hc, hc', (ClassNode.profile_of_bare_eq hb).interfaces]
    · rw [hn.interfacesOf, hn'.interfacesOf]

theorem SameCore.resolveIn (kind : NodeKind) (key : MemberKey) (name : String) :
    g.resolveIn kind key name = g'.resolveIn kind key name := by
  unfold Graph.resolveIn
  split
  · rfl
  · rw [h.declared name kind key]
    rcases h.class?_cases hg hg' name with ⟨c, c', hc, hc', hb⟩ | ⟨_, hn'⟩
    · simp [hc, hc', (ClassNode.profile_of_bare_eq hb).isProgram]
    · simp [hn'.declared hg' kind key]

theorem SameCore.isOpaque (name : String) : g.isOpaque name = g'.isOpaque name := by
  rcases h.class?_cases hg hg' name with ⟨c, c', hc, hc', hb⟩ | ⟨hn, hn'⟩
  · have hprofile := ClassNode.profile_of_bare_eq hb
    simp [Graph.isOpaque, hc, hc', ClassNode.isPlaceholder, hprofile.isProgram, hprofile.superclass,
      ClassNode.members_of_bare_eq hb]
  · rw [hn.isOpaque, hn'.isOpaque]

theorem SameCore.resolve (start : String) (kind : NodeKind) (key : MemberKey) :
    g.resolve start kind key = g'.resolve start kind key :=
  resolve_congr ((h.sameAbove hg hg').searchOrder trivial)
    (fun s _ => h.resolveIn hg hg' kind key s) fun s _ => h.isOpaque hg hg' s

theorem SameCore.membersOf_map_id (name : String) (p : NodeId → Bool) :
    ((g.membersOf name).filter (p ·.id)).map MemberNode.id =
      ((g'.membersOf name).filter (p ·.id)).map MemberNode.id := by
  have hlist : ∀ ids : List NodeId,
      ((ids.filterMap g.member?).filter (p ·.id)).map MemberNode.id =
        ((ids.filterMap g'.member?).filter (p ·.id)).map MemberNode.id := by
    intro ids
    induction ids with
    | nil => rfl
    | cons id ids ih =>
      rcases h.member?_cases id with ⟨m, m', hm, hm', hb⟩ | ⟨hm, hm'⟩
      · have hid := (MemberNode.of_bare_eq hb).1
        simp only [List.filterMap_cons, hm, hm', List.filter_cons, hid]
        split
        · simp [hid, ih]
        · exact ih
      · simpa [List.filterMap_cons, hm, hm'] using ih
  unfold membersOf
  rcases h.class?_cases hg hg' name with ⟨c, c', hc, hc', hb⟩ | ⟨hn, hn'⟩
  · simp only [hc, hc', ClassNode.members_of_bare_eq hb]
    exact hlist _
  · have hempty : ∀ {g : Graph}, g.Blank name → g.membersOf name = [] := by
      intro g hn
      rcases hn with hn | hn
      · simp [membersOf, hn]
      · simp only [membersOf, hn]
        rfl
    rw [← membersOf, ← membersOf, hempty hn, hempty hn']

theorem SameCore.lookedUp (name member : String) (descriptor : Option String) :
    g.lookedUp name member descriptor = g'.lookedUp name member descriptor :=
  h.membersOf_map_id hg hg' name fun id => (id.member?.map (·.name)).getD "" = member &&
    descriptor.all fun d => (id.member?.map (·.descriptor)).getD "" = d

theorem SameCore.contains_class_or (name : String) :
    (g.contains (.class_ name) || !platform.recognizes name) =
      (g'.contains (.class_ name) || !platform.recognizes name) := by
  have hone : ∀ {g g' : Graph}, SameCore g g' → g.Tame platform →
      g.contains (.class_ name) = true → platform.recognizes name = true →
      g'.contains (.class_ name) = true := by
    intro g g' h hg hc hp
    obtain ⟨n, hn⟩ := contains_iff_node?.mp hc
    have hu : Marking.isUnresolved n = false := by
      refine Bool.eq_false_iff.mpr fun hu => ?_
      obtain ⟨k, rfl, hk⟩ := hg.standIn _ n hn hu
      obtain rfl : k = name := by simpa [Node.id, ClassNode.id, ClassNode.placeholder] using id_of_node? hn
      simp [hp] at hk
    obtain ⟨n', hn', _⟩ := h.exists_node? hn hu
    exact contains_iff_node?.mpr ⟨n', hn'⟩
  cases hp : platform.recognizes name with
  | false => simp
  | true =>
    simp only [Bool.not_true, Bool.or_false]
    exact Bool.eq_iff_iff.mpr ⟨fun hc => hone h hg hc hp, fun hc => hone h.symm hg' hc hp⟩

theorem SameCore.mentioned? (name : String) :
    g.mentioned? platform false name = g'.mentioned? platform false name := by
  unfold Graph.mentioned?
  congr 1
  funext k
  simp only [Bool.or_false, h.contains_class_or hg hg' k]

theorem SameCore.chainDecision (key : MemberKey) (name : String) :
    g.chainDecision key name = g'.chainDecision key name := by
  unfold Graph.chainDecision
  rw [h.declared name .method key]
  rcases h.class?_cases hg hg' name with ⟨c, c', hc, hc', hb⟩ | ⟨_, hn'⟩
  · simp only [hc, hc', Option.bind_eq_bind, Option.bind_some,
      (ClassNode.profile_of_bare_eq hb).isProgram]
    congr 1
    funext id
    rcases h.member?_cases id with ⟨m, m', hm, hm', hb⟩ | ⟨hm, hm'⟩
    · simp [hm, hm', (MemberNode.of_bare_eq hb).2]
    · simp [hm, hm']
  · simp [hn'.declared hg' .method key]

theorem SameCore.defaultMethod? (key : MemberKey) (id : NodeId) :
    g.defaultMethod? key id = g'.defaultMethod? key id := by
  cases id with
  | class_ name =>
    have hclass : ∀ g : Graph, g.defaultMethod? key (.class_ name) = (do
        let c ← g.class? name
        if !c.modifiers.isInterface || !c.isProgram then none
        else
          let id ← g.declared c.name .method key
          let m ← g.member? id
          if m.modifiers.isAbstract || m.modifiers.isStatic then none else some id) := by
      intro g
      unfold Graph.defaultMethod? Graph.class?
      cases g.node? (.class_ name) <;> rfl
    rw [hclass, hclass]
    rcases h.class?_cases hg hg' name with ⟨c, c', hc, hc', hb⟩ | ⟨hn, hn'⟩
    · have hprofile := ClassNode.profile_of_bare_eq hb
      simp only [hc, hc', Option.bind_eq_bind, Option.bind_some, hprofile.isProgram, hprofile.name,
        hprofile.modifiers, h.declared c.name .method key]
      split
      · rfl
      · congr 1
        funext id
        rcases h.member?_cases id with ⟨m, m', hm, hm', hb⟩ | ⟨hm, hm'⟩
        · simp [hm, hm', (MemberNode.of_bare_eq hb).2]
        · simp [hm, hm']
    · have hnone : ∀ {g : Graph}, g.Blank name → (do
          let c ← g.class? name
          if !c.modifiers.isInterface || !c.isProgram then none
          else
            let id ← g.declared c.name .method key
            let m ← g.member? id
            if m.modifiers.isAbstract || m.modifiers.isStatic then none else some id) = none := by
        intro g hn
        rcases hn with hn | hn <;> simp [hn, ClassNode.placeholder, ClassNode.isProgram,
          Origin.isProgram]
      rw [hnone hn, hnone hn']
  | method ref | field ref =>
    -- Under the identity of a member there is no class.
    have hnone : ∀ g : Graph, ∀ id : NodeId, id.isClass = false →
        g.defaultMethod? key id = none := by
      intro g id hid
      unfold Graph.defaultMethod?
      cases hn : g.node? id with
      | none => rfl
      | some n =>
        cases n with
        | member m => rfl
        | class_ c =>
          rw [← id_of_node? hn] at hid
          cases hid
    rw [hnone g _ rfl, hnone g' _ rfl]

/-- Receivers run the same methods if they have the same supertypes in both hierarchies. -/
theorem SameCore.implementation {k k' : Hierarchy} (hk : k.supertypes id = k'.supertypes id)
    (key : MemberKey) : g.implementation k id key = g'.implementation k' id key := by
  unfold Graph.implementation
  have hdecide : g.chainDecision key = g'.chainDecision key := by
    funext name
    exact h.chainDecision hg hg' key name
  have hdefault : g.defaultMethod? key = g'.defaultMethod? key := by
    funext id
    exact h.defaultMethod? hg hg' key id
  rw [(h.sameAbove hg hg').superclassChain trivial, hdecide, hdefault, hk]

theorem SameCore.implementationOf {k k' : Hierarchy} (hk : k.supertypes id = k'.supertypes id)
    (decl : NodeId) : g.implementationOf k id decl = g'.implementationOf k' id decl := by
  unfold Graph.implementationOf
  rcases h.member?_cases decl with ⟨m, m', hm, hm', hb⟩ | ⟨hm, hm'⟩
  · have hid := (MemberNode.of_bare_eq hb).1
    simp only [hm, hm', Option.bind_eq_bind, Option.bind_some, MemberNode.name,
      MemberNode.descriptor, hid]
    exact h.implementation hg hg' hk _
  · simp [hm, hm']

theorem SameCore.inProgram {n n' : Node} (hn : n'.bare = n.bare) :
    Marking.inProgram g n = Marking.inProgram g' n' := by
  cases n with
  | class_ c =>
    cases n' with
    | member m => cases hn
    | class_ c' =>
      have ho := (ClassNode.profile_of_bare_eq (Node.class_.inj hn)).origin
      simp [Marking.inProgram, ClassNode.isProgram, ho]
  | member m =>
    cases n' with
    | class_ c => cases hn
    | member m' =>
      have hid := (MemberNode.of_bare_eq (Node.member.inj hn)).1
      simp only [Marking.inProgram, hid]
      rcases h.class?_cases hg hg' m.id.className with ⟨c, c', hc, hc', hb⟩ | ⟨hb, hb'⟩
      · simp [hc, hc', (ClassNode.profile_of_bare_eq hb).isProgram]
      · have hnot : ∀ {g : Graph} {name : String}, g.Blank name →
            ((g.class? name).map (·.isProgram)).getD false = false := by
          intro g name hb
          rcases hb with hb | hb <;> simp [hb, ClassNode.placeholder, ClassNode.isProgram,
            Origin.isProgram]
        rw [hnot hb, hnot hb']

omit hg hg' in
theorem SameCore.useOfCall (dispatch : Dispatch) (receiver : String) :
    g.useOfCall dispatch receiver = g'.useOfCall dispatch receiver := by
  funext id
  unfold Graph.useOfCall
  rcases h.member?_cases id with ⟨m, m', hm, hm', hb⟩ | ⟨hm, hm'⟩
  · obtain ⟨hid, hmods⟩ := MemberNode.of_bare_eq hb
    have hexact : m'.isExact = m.isExact := by
      have hname : m'.name = m.name := by rw [MemberNode.name, MemberNode.name, hid]
      rw [MemberNode.isExact, MemberNode.isExact, hname, hmods]
    simp [hm, hm', hexact]
  · simp [hm, hm']

/-- Outside the hierarchy a link stands for the same edges, as long as it leads to no class that
has to be there already. -/
theorem SameCore.link_edges {l : Link} (hl : l.inHierarchy = false)
    (hk : ∀ e, l = .known e → e.target.isClass = false) :
    l.edges platform g = l.edges platform g' := by
  cases l with
  | supertype source kind name => cases hl
  | mention source kind name => rw [Link.edges, Link.edges, h.mentioned? hg hg' name]
  | known edge => rw [Link.edges, Link.edges, h.contains_eq (hk edge rfl)]
  | call source dispatch start receiver key =>
    rw [Link.edges, Link.edges, h.resolve hg hg' start .method key,
      h.useOfCall dispatch receiver]
  | access source owner key => rw [Link.edges, Link.edges, h.resolve hg hg' owner .field key]
  | lookup source name member descriptor =>
    rw [Link.edges, Link.edges, h.mentioned? hg hg' name]
    simp only [h.lookedUp hg hg']

end Congruence

end Graph

end Winnow
