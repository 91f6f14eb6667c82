import Winnow.Proofs.Graph.Ladder

/-!
# Graphs with members left out

One graph is a thinner copy of another when it has the same classes, as far as
they can be met from a region that is closed under supertypes, and lacks some of
their members. A look-up in the thinner graph passes over what is left out, so it
finds what it found before whenever that is kept.
-/
namespace Winnow

theorem findSome?_eq_some_of_thinner {α β : Type} {f f' : α → Option β} {l : List α} {r : β}
    (hf : ∀ a ∈ l, f' a = none ∨ f' a = f a) (hr : ∀ a ∈ l, f a = some r → f' a = some r)
    (h : l.findSome? f = some r) : l.findSome? f' = some r := by
  induction l with
  | nil => cases h
  | cons a l ih =>
    rw [List.findSome?_cons] at h ⊢
    cases hfa : f a with
    | some r' =>
      obtain rfl : r' = r := by simpa [hfa] using h
      rw [hr a List.mem_cons_self hfa]
    | none =>
      have hnone : f' a = none := by
        rcases hf a List.mem_cons_self with hn | hn
        · exact hn
        · rw [hn, hfa]
      rw [hnone]
      simp only [hfa] at h
      exact ih (fun b hb => hf b (List.mem_cons_of_mem _ hb))
        (fun b hb => hr b (List.mem_cons_of_mem _ hb)) h

theorem findSome?_eq_none_of_thinner {α β : Type} {f f' : α → Option β} {l : List α}
    (hf : ∀ a ∈ l, f' a = none ∨ f' a = f a) (h : l.findSome? f = none) :
    l.findSome? f' = none := by
  rw [List.findSome?_eq_none_iff] at h ⊢
  intro a ha
  rcases hf a ha with hn | hn
  · exact hn
  · rw [hn, h a ha]

/-- Look-ups see no difference between two classes, apart from their members. -/
structure ClassNode.SameHead (c c' : ClassNode) : Prop where
  modifiers : c'.modifiers = c.modifiers
  superclass : c'.superclass = c.superclass
  interfaces : c'.interfaces = c.interfaces
  isProgram : c'.isProgram = c.isProgram
  isPlaceholder : c'.isPlaceholder = c.isPlaceholder

namespace Graph

variable {g g' : Graph} {name : String} {id : NodeId} {kind : NodeKind} {key : MemberKey}

/-- Nothing is declared under that name. -/
structure Vacant (g : Graph) (name : String) : Prop where
  standIn : ∀ c, g.class? name = some c →
    ∃ origin, c = .placeholder name origin ∧ origin.isProgram = false
  members : ∀ id, id.className = name → g.member? id = none

theorem declared_eq_some_iff : g.declared name kind key = some id ↔
    id.isClass = false ∧ id.kind = kind ∧ id.member? = some ⟨name, key.name, key.descriptor⟩ ∧
      (g.member? id).isSome = true := by
  have hcontains : ∀ id : NodeId, id.isClass = false →
      (g.contains id = true ↔ (g.member? id).isSome = true) := by
    intro id hid
    rw [Option.isSome_iff_exists]
    refine ⟨member?_of_contains hid, fun ⟨m, hm⟩ => ?_⟩
    exact contains_iff_node?.mpr ⟨_, (member?_eq_some hm).1⟩
  unfold declared
  cases kind with
  | class_ =>
    constructor
    · nofun
    · rintro ⟨hid, hk, _⟩
      cases id <;> simp_all [NodeId.kind, NodeId.isClass]
  | method | field =>
    simp only [Option.filter_eq_some_iff, Option.some.injEq]
    constructor
    · rintro ⟨rfl, hc⟩
      exact ⟨rfl, rfl, rfl, (hcontains _ rfl).mp hc⟩
    · rintro ⟨hid, hk, hm, hc⟩
      cases id <;> simp_all [NodeId.kind, NodeId.member?]

theorem Vacant.declared (h : g.Vacant name) : g.declared name kind key = none := by
  rw [Option.eq_none_iff_forall_ne_some]
  intro id hid
  have hname := (declared_spec hid).2
  have hsome := (declared_eq_some_iff.mp hid).2.2.2
  rw [h.members id hname] at hsome
  cases hsome

theorem Vacant.superclass? (h : g.Vacant name) : g.superclass? name = none := by
  unfold Graph.superclass?
  cases hc : g.class? name with
  | none => rfl
  | some c =>
    obtain ⟨origin, rfl, _⟩ := h.standIn c hc
    rfl

theorem Vacant.interfacesOf (h : g.Vacant name) : g.interfacesOf name = [] := by
  unfold Graph.interfacesOf
  cases hc : g.class? name with
  | none => rfl
  | some c =>
    obtain ⟨origin, rfl, _⟩ := h.standIn c hc
    rfl

theorem Vacant.isOpaque (h : g.Vacant name) : g.isOpaque name = decide (name ≠ objectClass) := by
  unfold Graph.isOpaque
  cases hc : g.class? name with
  | none => simp
  | some c =>
    obtain ⟨origin, rfl, ho⟩ := h.standIn c hc
    have hp : (ClassNode.placeholder name origin).isPlaceholder = true := by
      unfold ClassNode.isPlaceholder
      rw [show (ClassNode.placeholder name origin).isProgram = false from ho]
      rfl
    simp [hp]

/-- What look-ups ask about a member that they find in a class. -/
structure Found where
  classModifiers : Modifiers
  inProgram : Bool
  modifiers : Modifiers
  id : NodeId

/-- The member of that kind and key that a class declares. -/
def found? (g : Graph) (kind : NodeKind) (key : MemberKey) (name : String) : Option Found := do
  let c ← g.class? name
  let id ← g.declared name kind key
  let m ← g.member? id
  return ⟨c.modifiers, c.isProgram, m.modifiers, id⟩

theorem found?_eq_some_iff {x : Found} : g.found? kind key name = some x ↔
    ∃ c m, g.class? name = some c ∧ g.declared name kind key = some x.id ∧
      g.member? x.id = some m ∧ x = ⟨c.modifiers, c.isProgram, m.modifiers, x.id⟩ := by
  constructor
  · intro hf
    obtain ⟨c, hc, hf⟩ := Option.bind_eq_some_iff.mp hf
    obtain ⟨id, hd, hf⟩ := Option.bind_eq_some_iff.mp hf
    obtain ⟨m, hm, hf⟩ := Option.bind_eq_some_iff.mp hf
    obtain rfl := Option.some.inj hf
    exact ⟨c, m, hc, hd, hm, rfl⟩
  · rintro ⟨c, m, hc, hd, hm, hx⟩
    rw [found?, hc, Option.bind_eq_bind, Option.bind_some, hd, Option.bind_eq_bind, Option.bind_some,
      hm, hx]
    rfl

/-- What a member that is found means to a reference. -/
def Found.resolution (x : Found) : Resolution := if x.inProgram then .declared x.id else .external

/-- What a method that is found on the superclass chain means to a receiver. -/
def Found.decision (x : Found) : Option (Option NodeId) :=
  if x.modifiers.isStatic || x.modifiers.isPrivate then none
  else if x.modifiers.isAbstract || !x.inProgram then some none
  else some (some x.id)

/-- The default method that a found one is. -/
def Found.default? (x : Found) : Option NodeId :=
  if !x.classModifiers.isInterface || !x.inProgram then none
  else if x.modifiers.isAbstract || x.modifiers.isStatic then none
  else some x.id

theorem Found.id_of_decision {x : Found} (hx : x.decision = some (some id)) : x.id = id := by
  unfold Found.decision at hx
  split at hx
  · cases hx
  · split at hx
    · cases hx
    · exact Option.some.inj (Option.some.inj hx)

theorem Found.id_of_default? {x : Found} (hx : x.default? = some id) : x.id = id := by
  unfold Found.default? at hx
  split at hx
  · cases hx
  · split at hx
    · cases hx
    · exact Option.some.inj hx

theorem resolveIn_eq : g.resolveIn kind key name =
    if name = objectClass then
      if kind = .method && isObjectMethod key then some .external else none
    else (g.found? kind key name).map Found.resolution := by
  unfold resolveIn
  split
  · rfl
  · cases hc : g.class? name with
    | none => simp [found?, hc]
    | some c =>
      cases hd : g.declared name kind key with
      | none => simp [found?, hc, hd]
      | some id =>
        obtain ⟨m, hm⟩ := Option.isSome_iff_exists.mp (declared_eq_some_iff.mp hd).2.2.2
        simp [found?, hc, hd, hm, Found.resolution]

theorem chainDecision_eq :
    g.chainDecision key name = (g.found? .method key name).bind Found.decision := by
  unfold chainDecision found?
  cases g.class? name with
  | none => rfl
  | some c =>
    cases hd : g.declared name .method key with
    | none => rfl
    | some id =>
      obtain ⟨m, hm⟩ := Option.isSome_iff_exists.mp (declared_eq_some_iff.mp hd).2.2.2
      simp only [Option.bind_eq_bind, Option.bind_some, hm, Option.pure_def]
      rfl

theorem defaultMethod?_class :
    g.defaultMethod? key (.class_ name) = (g.found? .method key name).bind Found.default? := by
  have hclass : (g.node? (.class_ name)).bind Node.class? = g.class? name := rfl
  unfold defaultMethod? found?
  cases hc : g.class? name with
  | none =>
    cases hn : g.node? (.class_ name) with
    | none => rfl
    | some n =>
      rw [hn, hc, Option.bind_some] at hclass
      simp [hclass]
  | some c =>
    obtain ⟨hn, hname⟩ := class?_eq_some hc
    simp only [Option.bind_eq_bind, hn, Option.bind_some, Node.class?, hname]
    cases hd : g.declared name .method key with
    | none => simp
    | some id =>
      obtain ⟨m, hm⟩ := Option.isSome_iff_exists.mp (declared_eq_some_iff.mp hd).2.2.2
      simp only [Option.bind_some, hm, Option.pure_def]
      rfl

/-- The second graph has the classes of a region as the first one has them, and of their members
those that are kept and perhaps others. Of classes outside the program it has all members. -/
structure Thins (region : String → Prop) (kept : NodeId → Prop) (g g' : Graph) : Prop where
  classes : ∀ name, region name →
    (∃ c c', g.class? name = some c ∧ g'.class? name = some c' ∧ c.SameHead c') ∨
      g.Vacant name ∧ g'.Vacant name
  closed : ∀ name, region name → ∀ s, g.superclass? name = some s ∨ s ∈ g.interfacesOf name →
    region s
  members : ∀ id m', g'.member? id = some m' →
    ∃ m, g.member? id = some m ∧ m'.modifiers = m.modifiers
  keeps : ∀ id m, g.member? id = some m →
    (kept id ∨ ∃ c, g.class? id.className = some c ∧ c.isProgram = false) →
    ∃ m', g'.member? id = some m'

namespace Thins

variable {region : String → Prop} {kept : NodeId → Prop} (h : Thins region kept g g')
include h

theorem sameAbove : SameAbove region g g' where
  closed := h.closed
  superclass n hn := by
    rcases h.classes n hn with ⟨c, c', hc, hc', heq⟩ | ⟨hv, hv'⟩
    · rw [superclass?, superclass?, hc, hc', Option.bind_some, Option.bind_some, heq.superclass]
    · rw [hv.superclass?, hv'.superclass?]
  interfaces n hn := by
    rcases h.classes n hn with ⟨c, c', hc, hc', heq⟩ | ⟨hv, hv'⟩
    · rw [interfacesOf, interfacesOf, hc, hc', Option.map_some, Option.map_some, heq.interfaces]
    · rw [hv.interfacesOf, hv'.interfacesOf]

theorem isOpaque (hn : region name) : g'.isOpaque name = g.isOpaque name := by
  rcases h.classes name hn with ⟨c, c', hc, hc', heq⟩ | ⟨hv, hv'⟩
  · simp only [Graph.isOpaque, hc, hc', heq.isPlaceholder]
  · rw [hv.isOpaque, hv'.isOpaque]

theorem modifiers_eq {m m' : MemberNode} (hm : g.member? id = some m)
    (hm' : g'.member? id = some m') : m'.modifiers = m.modifiers := by
  obtain ⟨k, hk, heq⟩ := h.members id m' hm'
  obtain rfl := Option.some.inj (hm.symm.trans hk)
  exact heq

/-- What is found in a class of the thinner graph was found there before. -/
theorem found?_cases (kind : NodeKind) (key : MemberKey) (hn : region name) :
    g'.found? kind key name = none ∨ g'.found? kind key name = g.found? kind key name := by
  cases hf : g'.found? kind key name with
  | none => exact .inl rfl
  | some x =>
    obtain ⟨c', m', hc', hd', hm', hx⟩ := found?_eq_some_iff.mp hf
    obtain ⟨m, hm, hmod⟩ := h.members x.id m' hm'
    have hd : g.declared name kind key = some x.id := by
      obtain ⟨hid, hk, href, _⟩ := declared_eq_some_iff.mp hd'
      exact declared_eq_some_iff.mpr ⟨hid, hk, href, by rw [hm]; rfl⟩
    rcases h.classes name hn with ⟨c, d', hc, hd', heq⟩ | ⟨hv, _⟩
    · obtain rfl := Option.some.inj (hc'.symm.trans hd')
      refine .inr (found?_eq_some_iff.mpr ⟨c, m, hc, hd, hm, ?_⟩).symm
      rw [hx, heq.modifiers, heq.isProgram, hmod]
    · rw [hv.declared] at hd
      cases hd

/-- What is kept, or stands outside the program, is found in its class as before. -/
theorem found?_of_kept (hn : region name) {x : Found} (hf : g.found? kind key name = some x)
    (hkept : x.inProgram = true → kept x.id) : g'.found? kind key name = some x := by
  obtain ⟨c, m, hc, hd, hm, hx⟩ := found?_eq_some_iff.mp hf
  rcases h.classes name hn with ⟨d, c', hd', hc', heq⟩ | ⟨hv, _⟩
  · obtain rfl := Option.some.inj (hc.symm.trans hd')
    have hkept' : kept x.id ∨ ∃ c, g.class? x.id.className = some c ∧ c.isProgram = false := by
      cases hp : c.isProgram with
      | true => exact .inl (hkept (by rw [hx]; exact hp))
      | false => exact .inr ⟨c, (declared_spec hd).2 ▸ hc, hp⟩
    obtain ⟨m', hm'⟩ := h.keeps x.id m hm hkept'
    obtain ⟨hid, hk, href, _⟩ := declared_eq_some_iff.mp hd
    refine found?_eq_some_iff.mpr ⟨c', m', hc', ?_, hm', ?_⟩
    · exact declared_eq_some_iff.mpr ⟨hid, hk, href, by rw [hm']; rfl⟩
    · rw [heq.modifiers, heq.isProgram, h.modifiers_eq hm hm', ← hx]
  · rw [hv.declared] at hd
    cases hd

/-- A look-up by any rule passes over what is left out. -/
theorem bind_found?_cases {β : Type} (f : Found → Option β) (hn : region name) :
    (g'.found? kind key name).bind f = none ∨
      (g'.found? kind key name).bind f = (g.found? kind key name).bind f := by
  rcases h.found?_cases kind key hn with hf | hf
  · exact .inl (by rw [hf]; rfl)
  · exact .inr (by rw [hf])

/-- It finds what is kept. -/
theorem bind_found?_of_kept {β : Type} {f : Found → Option β} {r : β} (hn : region name)
    (hkept : ∀ x, f x = some r → kept x.id) (hr : (g.found? kind key name).bind f = some r) :
    (g'.found? kind key name).bind f = some r := by
  obtain ⟨x, hx, hfx⟩ := Option.bind_eq_some_iff.mp hr
  rw [h.found?_of_kept hn hx fun _ => hkept x hfx]
  exact hfx

/-- A reference leads where it led before, if what it led to is kept. -/
theorem resolve {start : String} (hs : region start)
    (hkept : ∀ id, g.resolve start kind key = .declared id → kept id) :
    g'.resolve start kind key = g.resolve start kind key := by
  have hregion : ∀ s ∈ g.searchOrder start, region s := fun s hmem =>
    h.sameAbove.of_mem_searchOrder hs hmem
  have hcases : ∀ s ∈ g.searchOrder start,
      g'.resolveIn kind key s = none ∨ g'.resolveIn kind key s = g.resolveIn kind key s := by
    intro s hmem
    rw [resolveIn_eq, resolveIn_eq]
    split
    · exact .inr rfl
    · rcases h.found?_cases kind key (hregion s hmem) with hf | hf
      · exact .inl (by rw [hf]; rfl)
      · exact .inr (by rw [hf])
  unfold Graph.resolve at hkept ⊢
  rw [← h.sameAbove.searchOrder hs]
  cases hf : (g.searchOrder start).findSome? (g.resolveIn kind key) with
  | none =>
    have hopaque : (g.searchOrder start).any g'.isOpaque = (g.searchOrder start).any g.isOpaque := by
      rw [Bool.eq_iff_iff, List.any_eq_true, List.any_eq_true]
      exact exists_congr fun s => and_congr_right fun hmem => by rw [h.isOpaque (hregion s hmem)]
    simp only [findSome?_eq_none_of_thinner hcases hf, hf, hopaque]
  | some r =>
    simp only [hf] at hkept
    suffices hr : ∀ s ∈ g.searchOrder start, g.resolveIn kind key s = some r →
        g'.resolveIn kind key s = some r by
      simp only [findSome?_eq_some_of_thinner hcases hr hf, hf]
    intro s hmem hr
    rw [resolveIn_eq] at hr ⊢
    split at hr
    next hobject => rw [if_pos hobject, hr]
    next hobject =>
      rw [if_neg hobject]
      obtain ⟨x, hx, hres⟩ := Option.map_eq_some_iff.mp hr
      have hin : x.inProgram = true → kept x.id := by
        intro hp
        refine hkept x.id ?_
        rw [← hres, Found.resolution, if_pos hp]
      rw [h.found?_of_kept (hregion s hmem) hx hin, ← hres]
      rfl

/-- A receiver runs what it ran before, if that is kept and its supertypes are the same. -/
theorem implementation {k k' : Hierarchy} {class_ : NodeId} (hs : region class_.className)
    (hk : k'.supertypes class_ = k.supertypes class_)
    (habove : ∀ a ∈ k.supertypes class_, ∃ name, a = .class_ name ∧ region name)
    (hi : g.implementation k class_ key = some id) (hkept : kept id) :
    g'.implementation k' class_ key = some id := by
  have hregion : ∀ s ∈ g.superclassChain class_.className, region s := fun s hmem =>
    h.sameAbove.of_mem_superclassChain hs hmem
  have hchain : ∀ s ∈ g.superclassChain class_.className,
      g'.chainDecision key s = none ∨ g'.chainDecision key s = g.chainDecision key s := by
    intro s hmem
    rw [chainDecision_eq, chainDecision_eq]
    exact h.bind_found?_cases Found.decision (hregion s hmem)
  unfold Graph.implementation at hi ⊢
  rw [← h.sameAbove.superclassChain hs, hk]
  cases hf : (g.superclassChain class_.className).findSome? (g.chainDecision key) with
  | some decision =>
    simp only [hf] at hi
    subst hi
    suffices hr : ∀ s ∈ g.superclassChain class_.className,
        g.chainDecision key s = some (some id) → g'.chainDecision key s = some (some id) by
      simp only [findSome?_eq_some_of_thinner hchain hr hf]
    intro s hmem hr
    rw [chainDecision_eq] at hr ⊢
    exact h.bind_found?_of_kept (hregion s hmem) (fun x hx => Found.id_of_decision hx ▸ hkept) hr
  | none =>
    simp only [hf] at hi
    simp only [findSome?_eq_none_of_thinner hchain hf]
    refine findSome?_eq_some_of_thinner (fun a ha => ?_) (fun a ha hr => ?_) hi
    · obtain ⟨name, rfl, hn⟩ := habove a ha
      rw [defaultMethod?_class, defaultMethod?_class]
      exact h.bind_found?_cases Found.default? hn
    · obtain ⟨name, rfl, hn⟩ := habove a ha
      rw [defaultMethod?_class] at hr ⊢
      exact h.bind_found?_of_kept hn (fun x hx => Found.id_of_default? hx ▸ hkept) hr

end Thins

end Graph

end Winnow
