import Mathlib.Data.List.Chain
import Winnow.Proofs.Graph.Core
import Winnow.Proofs.SearchOrder

/-!
# What member resolution finds

The classes in which a member is looked up, and what each has to say, are
described here without the search. The description fits every graph, whatever
its classes name as superclass and interfaces: chains may run in circles and
names may lead nowhere.

The root of the hierarchy has its listed methods and no other member, even in a
graph that has a node for it.
-/
namespace Winnow

namespace Graph

variable {g : Graph} {start name : String} {kind : NodeKind} {key : MemberKey}

/-- A class with its superclasses from the nearest on. It ends before a class would recur, or after
one that is not there or has no superclass. -/
structure IsSuperclassChain (g : Graph) (start : String) (chain : List String) : Prop where
  starts : chain.head? = some start
  linked : chain.IsChain fun name above => g.superclass? name = some above
  nodup : chain.Nodup
  ends : ∀ last ∈ chain.getLast?, ∀ above, g.superclass? last = some above → above ∈ chain

/-- The superclass chain, and then the interfaces of its classes breadth first, without any class
twice. -/
def IsSearchOrder (g : Graph) (start : String) (order : List String) : Prop :=
  ∃ chain above, order = chain ++ above ∧ g.IsSuperclassChain start chain ∧
    IsBreadthFirst g.interfacesOf (· ∉ chain) (chain.flatMap g.interfacesOf) above

/-- What a class that has the member makes of a reference to it. -/
inductive Settles (g : Graph) (kind : NodeKind) (key : MemberKey) : String → Resolution → Prop
  | own {name : String} {c : ClassNode} {id : NodeId} : name ≠ objectClass →
      g.class? name = some c → g.declared name kind key = some id → c.isProgram = true →
      Settles g kind key name (.declared id)
  | outside {name : String} {c : ClassNode} {id : NodeId} : name ≠ objectClass →
      g.class? name = some c → g.declared name kind key = some id → c.isProgram = false →
      Settles g kind key name .external
  | root : kind = .method → isObjectMethod key = true → Settles g kind key objectClass .external

/-- All members of the class are known, as those of the root are. -/
def IsFullyKnown (g : Graph) (name : String) : Prop :=
  name = objectClass ∨ ∃ c, g.class? name = some c ∧ c.isPlaceholder = false

section Chain

/-- A search in which every place has at most one neighbour climbs from each to the next. -/
theorem climb_breadthFirst (g : Graph) (fresh queue : List String) (hq : queue.length ≤ 1) :
    let climb := breadthFirst (fun name => (g.superclass? name).toList) fresh queue
    (∀ name ∈ climb.head?, name ∈ queue) ∧
    (climb.IsChain fun name above => g.superclass? name = some above) ∧
    ∀ last ∈ climb.getLast?, ∀ above, g.superclass? last = some above →
      above ∈ climb ∨ above ∉ fresh := by
  fun_induction breadthFirst (fun name => (g.superclass? name).toList) fresh queue with
  | case1 => simp
  | case2 fresh a queue ha ih =>
    have hqueue : queue = [] := by simpa using hq
    subst hqueue
    obtain ⟨hhead, hchain, hends⟩ := ih (by cases g.superclass? a <;> simp)
    refine ⟨by simp, List.isChain_cons.mpr ⟨?_, hchain⟩, ?_⟩
    · intro above habove
      simpa using hhead above habove
    · intro last hlast above habove
      -- Above the last class comes none, or one that was met before.
      have hmet : above ∈ breadthFirst (fun name => (g.superclass? name).toList) (without a fresh)
          ([] ++ (g.superclass? a).toList) ∨ above ∉ without a fresh := by
        cases hlast' : (breadthFirst (fun name => (g.superclass? name).toList) (without a fresh)
            ([] ++ (g.superclass? a).toList)).getLast? with
        | some b =>
          rw [List.getLast?_cons, hlast', Option.getD_some, Option.mem_some_iff] at hlast
          exact hends b hlast' above (hlast ▸ habove)
        | none =>
          rw [List.getLast?_cons, hlast', Option.getD_none, Option.mem_some_iff] at hlast
          by_cases hfresh : above ∈ without a fresh
          · exact .inl (mem_breadthFirst_of_mem_queue hfresh (by simp [hlast, habove]))
          · exact .inr hfresh
      rcases hmet with hmet | hmet
      · exact .inl (List.mem_cons_of_mem a hmet)
      · by_cases haa : above = a
        · exact .inl (haa ▸ List.mem_cons_self)
        · exact .inr fun hfresh => hmet (mem_without.mpr ⟨hfresh, haa⟩)
  | case3 fresh a queue ha ih =>
    obtain ⟨hhead, hrest⟩ := ih (Nat.le_of_succ_le hq)
    exact ⟨fun name hname => List.mem_cons_of_mem a (hhead name hname), hrest⟩

theorem isSuperclassChain_superclassChain (g : Graph) (start : String) :
    g.IsSuperclassChain start (g.superclassChain start) := by
  obtain ⟨_, hchain, hends⟩ := g.climb_breadthFirst (start :: g.typeNames) [start] (Nat.le_refl 1)
  refine ⟨?_, hchain, (isBreadthFirst_breadthFirst _ _ _).nodup, fun last hlast above habove => ?_⟩
  · rw [superclassChain, breadthFirst, if_pos List.mem_cons_self, List.head?_cons]
  · apply (hends last hlast above habove).resolve_right
    simp [mem_typeNames_of_superclass? habove]

/-- The superclasses of a chain are its classes but the first, and what is above the last. -/
theorem exists_flatMap_superclass {a : String} {chain : List String}
    (hchain : (a :: chain).IsChain fun name above => g.superclass? name = some above) :
    ∃ rest, a :: (a :: chain).flatMap (fun name => (g.superclass? name).toList) =
        a :: chain ++ rest ∧
      ∀ above ∈ rest, ∃ last ∈ (a :: chain).getLast?, g.superclass? last = some above := by
  induction chain generalizing a with
  | nil => exact ⟨(g.superclass? a).toList, by simp, by simp⟩
  | cons b chain ih =>
    obtain ⟨hab, hchain⟩ := List.isChain_cons_cons.mp hchain
    obtain ⟨rest, heq, hrest⟩ := ih hchain
    refine ⟨rest, ?_, ?_⟩
    · rw [List.flatMap_cons, hab, Option.toList_some, List.singleton_append, heq]
      rfl
    · rw [List.getLast?_cons_cons]
      exact hrest

/-- Each class of a chain leads to the next, and the last to none that is new. -/
theorem IsSuperclassChain.isBreadthFirst {chain : List String} (h : g.IsSuperclassChain start chain) :
    IsBreadthFirst (fun name => (g.superclass? name).toList) (fun _ => true) [start] chain where
  listed := by
    cases chain with
    | nil => cases h.starts
    | cons a chain =>
      obtain rfl : a = start := Option.some.inj h.starts
      obtain ⟨rest, heq, hrest⟩ := exists_flatMap_superclass h.linked
      have hin : rest.removeAll (a :: chain) = [] := by
        rw [List.removeAll, List.filter_eq_nil_iff]
        intro above habove
        obtain ⟨last, hlast, hsuper⟩ := hrest above habove
        rw [List.elem_eq_mem, decide_eq_true (h.ends last hlast above hsuper)]
        exact Bool.false_ne_true
      rw [List.filter_true, List.singleton_append, heq, List.eraseDups_append, hin,
        eraseDups_of_nodup h.nodup, List.eraseDups_nil, List.append_nil]
  met pre x post hsplit := by
    obtain ⟨_, _, hnext⟩ := List.isChain_append.mp (hsplit ▸ h.linked)
    cases hlast : pre.getLast? with
    | none =>
      have hstart := h.starts
      rw [hsplit, List.getLast?_eq_none_iff.mp hlast] at hstart
      exact .inl (by simpa using hstart)
    | some y =>
      have hxy := hnext y hlast x (by simp)
      exact .inr ⟨y, List.mem_of_getLast? hlast, by simp [hxy]⟩

theorem IsSuperclassChain.unique {chain chain' : List String} (h : g.IsSuperclassChain start chain)
    (h' : g.IsSuperclassChain start chain') : chain = chain' :=
  h.isBreadthFirst.unique h'.isBreadthFirst

end Chain

section SearchOrder

theorem isSearchOrder_searchOrder (g : Graph) (start : String) :
    g.IsSearchOrder start (g.searchOrder start) := by
  refine ⟨g.superclassChain start, _, rfl, g.isSuperclassChain_superclassChain start, ?_⟩
  refine (isBreadthFirst_breadthFirst _ _ _).congr ?_
  intro name hname
  have htype : name ∈ g.typeNames := by
    rcases List.mem_append.mp hname with hname | hname
    all_goals
      obtain ⟨lister, _, hlisted⟩ := List.mem_flatMap.mp hname
      exact mem_typeNames_of_interfacesOf hlisted
  simp [htype]

theorem isSearchOrder_iff {order : List String} :
    g.IsSearchOrder start order ↔ order = g.searchOrder start := by
  constructor
  · intro horder
    obtain ⟨chain, above, rfl, hchain, habove⟩ := horder
    obtain ⟨chain', above', heq, hchain', habove'⟩ := g.isSearchOrder_searchOrder start
    obtain rfl := hchain.unique hchain'
    rw [heq, habove.unique habove']
  · intro horder
    rw [horder]
    exact g.isSearchOrder_searchOrder start

end SearchOrder

section Answer

theorem resolveIn_eq_some_iff {r : Resolution} :
    g.resolveIn kind key name = some r ↔ g.Settles kind key name r := by
  constructor
  · intro h
    unfold resolveIn at h
    split_ifs at h with hroot hobject
    · rw [Bool.and_eq_true, decide_eq_true_eq] at hobject
      rw [← Option.some.inj h, hroot]
      exact .root hobject.1 hobject.2
    · obtain ⟨c, hc, h⟩ := Option.bind_eq_some_iff.mp h
      obtain ⟨id, hid, h⟩ := Option.bind_eq_some_iff.mp h
      rw [← Option.some.inj h]
      split_ifs with hprogram
      · exact .own hroot hc hid hprogram
      · exact .outside hroot hc hid (by simpa using hprogram)
  · intro h
    cases h with
    | own hroot hc hid hprogram => simp [resolveIn, hroot, hc, hid, hprogram]
    | outside hroot hc hid hprogram => simp [resolveIn, hroot, hc, hid, hprogram]
    | root hkind hobject => simp [resolveIn, hkind, hobject]

theorem isOpaque_eq_true_iff : g.isOpaque name = true ↔
    name ≠ objectClass ∧ ∀ c, g.class? name = some c → c.isPlaceholder = true := by
  unfold isOpaque
  cases g.class? name <;> simp

theorem isOpaque_eq_false_iff : g.isOpaque name = false ↔ g.IsFullyKnown name := by
  rw [← Bool.not_eq_true, isOpaque_eq_true_iff, IsFullyKnown]
  cases g.class? name <;> simp [Classical.or_iff_not_imp_left]

theorem resolve_of_settles {pre post : List String} {r : Resolution}
    (horder : g.searchOrder start = pre ++ name :: post)
    (hpre : ∀ earlier ∈ pre, ∀ r', ¬ g.Settles kind key earlier r')
    (hname : g.Settles kind key name r) : g.resolve start kind key = r := by
  have hfirst : (g.searchOrder start).findSome? (g.resolveIn kind key) = some r := by
    rw [List.findSome?_eq_some_iff]
    refine ⟨pre, name, post, horder, resolveIn_eq_some_iff.mpr hname, ?_⟩
    intro earlier hearlier
    rw [Option.eq_none_iff_forall_ne_some]
    exact fun r' h => hpre earlier hearlier r' (resolveIn_eq_some_iff.mp h)
  simp only [resolve, hfirst]

theorem resolve_of_not_settles
    (hnone : ∀ name ∈ g.searchOrder start, ∀ r, ¬ g.Settles kind key name r) :
    g.resolve start kind key =
      if (g.searchOrder start).any g.isOpaque then .external else .missing := by
  have hfirst : (g.searchOrder start).findSome? (g.resolveIn kind key) = none := by
    rw [List.findSome?_eq_none_iff]
    intro name hname
    rw [Option.eq_none_iff_forall_ne_some]
    exact fun r h => hnone name hname r (resolveIn_eq_some_iff.mp h)
  simp only [resolve, hfirst]

/-- The first class that has the member decides. When none has it, the member may still be in a
class of which not everything is known. -/
theorem resolve_eq_of_searchOrder (g : Graph) (start : String) (kind : NodeKind) (key : MemberKey) :
    ∃ order, (∀ l, g.IsSearchOrder start l ↔ l = order) ∧
      (∀ pre name post r, order = pre ++ name :: post →
        (∀ earlier ∈ pre, ∀ r', ¬ g.Settles kind key earlier r') → g.Settles kind key name r →
        g.resolve start kind key = r) ∧
      ((∀ name ∈ order, ∀ r, ¬ g.Settles kind key name r) →
        (g.resolve start kind key = .external ↔ ∃ name ∈ order, name ≠ objectClass ∧
          ∀ c, g.class? name = some c → c.isPlaceholder = true) ∧
        (g.resolve start kind key = .missing ↔ ∀ name ∈ order, g.IsFullyKnown name)) := by
  refine ⟨g.searchOrder start, fun l => isSearchOrder_iff,
    fun pre name post r => resolve_of_settles, fun hnone => ?_⟩
  rw [resolve_of_not_settles hnone]
  simp only [← isOpaque_eq_true_iff, ← isOpaque_eq_false_iff]
  cases hopaque : (g.searchOrder start).any g.isOpaque with
  | true => simpa using hopaque
  | false => simpa using hopaque

/-- A graph with a node for the root of the hierarchy, as a class of the program. -/
def rooted : Graph :=
  (empty.addClass { name := objectClass, origin := .program ⟨"in/Object.json"⟩ }).addMember
    { id := .method ⟨objectClass, "foo", "()V"⟩ }

/-- The method is declared by the only class in the order, and not found. -/
theorem resolve_rooted_eq_missing :
    (∀ l, rooted.IsSearchOrder objectClass l ↔ l = [objectClass]) ∧
    (∃ c, rooted.class? objectClass = some c ∧ c.isProgram = true) ∧
    rooted.declared objectClass .method ⟨"foo", "()V"⟩ =
      some (.method ⟨objectClass, "foo", "()V"⟩) ∧
    rooted.resolve objectClass .method ⟨"foo", "()V"⟩ = .missing := by
  have horder : rooted.searchOrder objectClass = [objectClass] := by decide +kernel
  refine ⟨fun l => ?_, by decide +kernel, by decide +kernel, by decide +kernel⟩
  rw [← horder]
  exact isSearchOrder_iff

end Answer

end Graph

end Winnow
