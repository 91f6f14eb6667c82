import Winnow.Proofs.Marking.Run
import Winnow.Proofs.Program.Regular

/-!
# The least assignment on known nodes

Two graphs of one program may differ in their stand-ins for unknown classes and
in edges for signatures. Neither matters to the nodes that are known: the least
assignments of the two graphs agree on these. The live classes and the calls of
the least assignment can be read off the members that it keeps.
-/
namespace Winnow

open Marking

/-- The choice of roots does not look at signatures. -/
def Blind (isRoot : Node → Bool) : Prop := ∀ n, isRoot n.bare = isRoot n

namespace Graph

variable {g g' : Graph} {platform : Platform} {id : NodeId} {n : Node} {isRoot : Node → Bool}

/-- A node that the rules select. -/
def IsRoot (g : Graph) (isRoot : Node → Bool) (n : Node) : Prop :=
  n ∈ g.nodes ∧ inProgram g n = true ∧ isRoot n = true

theorem isUnresolved_of_inProgram (h : inProgram g n = true) : isUnresolved n = false := by
  cases n with
  | member m => rfl
  | class_ c =>
    have ho : c.origin.isProgram = true := h
    refine decide_eq_false fun heq => ?_
    rw [heq] at ho
    cases ho

theorem WellFormed.core_of_mem (hg : g.WellFormed) (hn : n ∈ g.nodes)
    (hu : isUnresolved n = false) : g.core n.id = some n.bare :=
  core_eq_some_iff.mpr ⟨n, hg.node?_of_mem hn, hu, rfl⟩

theorem WellFormed.core_eq_none (hg : g.WellFormed) (hn : n ∈ g.nodes)
    (hu : isUnresolved n = true) : g.core n.id = none := by
  rw [core_eq_none_iff]
  intro k hk
  rwa [← Option.some.inj ((hg.node?_of_mem hn).symm.trans hk)]

theorem WellFormed.core_member (hg : g.WellFormed) {m : MemberNode} (hm : Node.member m ∈ g.nodes) :
    g.core m.id ≠ none := by
  have := hg.core_of_mem hm rfl
  rw [Node.id] at this
  rw [this]
  exact Option.some_ne_none _

theorem contains_of_core (h : g.core id ≠ none) : g.contains id = true := by
  obtain ⟨b, hb⟩ := Option.ne_none_iff_exists'.mp h
  obtain ⟨n, hn, _⟩ := core_eq_some_iff.mp hb
  exact contains_iff_node?.mpr ⟨n, hn⟩

/-- The node of a graph with the same core. -/
theorem SameCore.exists_mem (h : SameCore g g') (hg : g.WellFormed) (hn : n ∈ g.nodes)
    (hu : isUnresolved n = false) : ∃ k ∈ g'.nodes, k.id = n.id ∧ k.bare = n.bare := by
  obtain ⟨k, hk, hb, _⟩ := h.exists_node? (hg.node?_of_mem hn) hu
  exact ⟨k, mem_of_node? hk, id_of_node? hk, hb⟩

theorem SameCore.exists_member (h : SameCore g g') (hg : g.WellFormed) {m : MemberNode}
    (hm : Node.member m ∈ g.nodes) : ∃ k, Node.member k ∈ g'.nodes ∧ k.id = m.id := by
  obtain ⟨k, hk, hid, hb⟩ := h.exists_mem hg hm rfl
  cases k with
  | class_ c => cases hb
  | member k => exact ⟨k, hk, hid⟩

/-- Roots are known, so they are the same in graphs with the same core. -/
theorem SameCore.exists_root (h : SameCore g g') (hg : g.Regular platform)
    (hg' : g'.Regular platform) (hblind : Blind isRoot) (hn : g.IsRoot isRoot n) :
    ∃ k, g'.IsRoot isRoot k ∧ k.id = n.id ∧ k.bare = n.bare := by
  obtain ⟨hmem, hprog, hroot⟩ := hn
  obtain ⟨k, hk, hid, hb⟩ := h.exists_mem hg.wellFormed hmem (isUnresolved_of_inProgram hprog)
  refine ⟨k, ⟨hk, ?_, ?_⟩, hid, hb⟩
  · rw [← h.inProgram hg.tame hg'.tame hb]
    exact hprog
  · rw [← hblind, hb, hblind]
    exact hroot

end Graph

theorem Hierarchy.isSubtype_congr {h h' : Hierarchy} (hs : ∀ id, h.supertypes id = h'.supertypes id)
    (sub sup : NodeId) : h.isSubtype sub sup = h'.isSubtype sub sup := by
  rw [isSubtype, isSubtype, hs]

namespace Assignment

open Graph

variable {g g' : Graph} {h h' : Hierarchy} {platform : Platform} {isRoot : Node → Bool}
  {A A' : Assignment} {id : NodeId} {s : KeepState}

/-- The assignment that also keeps whatever is not known. -/
def relaxed (g : Graph) (A : Assignment) : Assignment where
  keeps id s := A.keeps id s ∨ g.core id = none
  live := A.live
  called := A.called

/-- What is closed in a graph is closed, up to unknown nodes, in every graph with the same core and
no more edges that matter. -/
theorem Closed.relaxed (hA : A.Closed g h isRoot) (hg : g.Regular platform)
    (hg' : g'.Regular platform) (hcore : SameCore g g') (hblind : Blind isRoot)
    (hsuper : ∀ id, h.supertypes id = h'.supertypes id)
    (hedges : ∀ e ∈ g'.edges, e.kind ≠ .signature → e ∈ g.edges) :
    (A.relaxed g).Closed g' h' isRoot := by
  have hknown : ∀ {id s}, g'.core id ≠ none → (A.relaxed g).keeps id s → A.keeps id s := by
    intro id s hid hk
    exact hk.resolve_right (hcore id ▸ hid)
  have hroot : ∀ n, g'.IsRoot isRoot n → ∃ k, g.IsRoot isRoot k ∧ k.id = n.id ∧ k.bare = n.bare :=
    fun n => hcore.symm.exists_root hg' hg hblind
  refine ⟨fun id hk => hk.imp (hA.shell_of_full id) fun h => h, fun m hm hk => ?_, fun n hn hu => ?_,
    fun n hn hp hr => ?_, fun c hc hp hr => ?_, fun m hm hk => ?_, fun e he hk d hd => ?_,
    fun e he hk hkind => ?_, fun e he hk receiver hkind _ => ?_,
    fun class_ hl receiver decl hcall hsub id hi => ?_⟩
  · obtain ⟨k, hmem, hid⟩ := hcore.symm.exists_member hg'.wellFormed hm
    have := hA.member k hmem
    rw [hid] at this
    exact .inl (this (hknown (hg'.wellFormed.core_member hm) hk))
  · exact .inr (hcore _ ▸ hg'.wellFormed.core_eq_none hn hu)
  · obtain ⟨k, ⟨hmem, hkp, hkr⟩, hid, _⟩ := hroot n ⟨hn, hp, hr⟩
    exact .inl (hid ▸ hA.root k hmem hkp hkr)
  · obtain ⟨k, ⟨hmem, hkp, hkr⟩, hid, hb⟩ := hroot _ ⟨hc, hp, hr⟩
    cases k with
    | member _ => cases hb
    | class_ k =>
      have hid : k.id = c.id := hid
      exact hid ▸ hA.root_live k hmem hkp hkr
  · obtain ⟨k, hmem, hid⟩ := hcore.symm.exists_member hg'.wellFormed hm
    have := hA.owner k hmem
    rw [hid] at this
    exact .inl (this (hknown (hg'.wellFormed.core_member hm) hk))
  · have hsig : e.kind ≠ .signature := by
      intro hsig
      rw [Edge.demand?, hsig] at hd
      cases hd
    exact .inl (hA.edge e (hedges e he hsig) (hknown (hg'.sources e he) hk) d hd)
  · exact hA.instantiate e (hedges e he (by simp [hkind])) (hknown (hg'.sources e he) hk) hkind
  · have hin : g.contains (.class_ receiver) = true := by
      refine contains_of_core ?_
      rw [hcore]
      exact hg'.receivers e he receiver hkind
    exact hA.call e (hedges e he (by simp [hkind])) (hknown (hg'.sources e he) hk) receiver hkind hin
  · rw [← Hierarchy.isSubtype_congr hsuper] at hsub
    rw [← hcore.implementationOf hg.tame hg'.tame (hsuper class_)] at hi
    exact .inl (hA.dispatch class_ hl receiver decl hcall hsub id hi)

/-- Least assignments agree on known nodes. -/
theorem keeps_of_isLeast (hA : IsLeast {A : Assignment | A.Closed g h isRoot} A)
    (hA' : IsLeast {A : Assignment | A.Closed g' h' isRoot} A') (hg : g.Regular platform)
    (hg' : g'.Regular platform) (hcore : SameCore g g') (hblind : Blind isRoot)
    (hsuper : ∀ id, h.supertypes id = h'.supertypes id)
    (hedges : ∀ e ∈ g'.edges, e.kind ≠ .signature → e ∈ g.edges) (hid : g.core id ≠ none)
    (hk : A'.keeps id s) : A.keeps id s := by
  have hle := hA'.2 (hA.1.relaxed hg hg' hcore hblind hsuper hedges)
  exact (hle.1 id s hk).resolve_right hid

/-- The assignment as far as it keeps nodes that are classes or listed by their class. -/
def listed (g : Graph) (A : Assignment) : Assignment where
  keeps id s := A.keeps id s ∧ g.Lists id
  live := A.live
  called := A.called

/-- Whatever is kept is a class or stands in the list of its class. -/
theorem lists_of_isLeast (hA : IsLeast {A : Assignment | A.Closed g h isRoot} A)
    (hg : g.Regular platform) (hk : A.keeps id s) : g.Lists id := by
  have hX : (A.listed g).Closed g h isRoot := by
    have hA := hA.1
    refine ⟨fun id hk => ⟨hA.shell_of_full id hk.1, hk.2⟩,
      fun m hm hk => ⟨hA.member m hm hk.1, hk.2⟩, fun n hn hu => ⟨hA.unresolved n hn hu, ?_⟩,
      fun n hn hp hr => ⟨hA.root n hn hp hr, ?_⟩, hA.root_live,
      fun m hm hk => ⟨hA.owner m hm hk.1, .inl rfl⟩, fun e he hk d hd => ?_,
      fun e he hk hkind => hA.instantiate e he hk.1 hkind, fun e he hk => hA.call e he hk.1,
      fun class_ hl receiver decl hcall hsub id hi => ?_⟩
    · cases n with
      | class_ c => exact .inl rfl
      | member m => cases hu
    · cases n with
      | class_ c => exact .inl rfl
      | member m =>
        have hprog : ((g.class? m.id.className).map (·.isProgram)).getD false = true := hp
        cases hc : g.class? m.id.className with
        | none => simp [hc] at hprog
        | some c =>
          refine hg.complete m.id c (contains_of_mem hn) hc ?_
          simpa [hc] using hprog
    · refine ⟨hA.edge e he hk.1 d hd, ?_⟩
      obtain ⟨_, _, rfl⟩ := Option.map_eq_some_iff.mp hd
      exact hg.targets e he _ hd
    · refine ⟨hA.dispatch class_ hl receiver decl hcall hsub id hi, ?_⟩
      obtain ⟨m, _, hi⟩ := Option.bind_eq_some_iff.mp hi
      obtain ⟨name, c, hc, hprog, hd⟩ := implementation_eq_some hi
      exact hg.complete id c (contains_of_declared hd) ((declared_spec hd).2 ▸ hc) hprog
  exact ((hA.2 hX).1 id s hk).2

end Assignment

namespace Liveness

open Graph

variable {g : Graph} {h : Hierarchy} {platform : Platform} {isRoot : Node → Bool} {A : Assignment}
  {l : Liveness} {e : Edge} {id : NodeId} {call : NodeId × NodeId} {roots kept : List NodeId}

theorem mem_live_note : id ∈ (note g l e).live ↔
    id ∈ l.live ∨ e.kind = .uses .instantiate ∧ e.target = id := by
  unfold note
  split
  next hk =>
    split
    next hin =>
      refine ⟨.inl, ?_⟩
      rintro (h | ⟨_, rfl⟩)
      · exact h
      · exact hin
    next => simp [hk, eq_comm]
  next receiver hk =>
    split <;> simp [hk]
  next hk _ =>
    refine ⟨.inl, ?_⟩
    rintro (h | ⟨hk', _⟩)
    · exact h
    · exact absurd hk' hk

theorem mem_callSites_note : call ∈ (note g l e).callSites ↔
    call ∈ l.callSites ∨ ∃ receiver, e.kind = .uses (.virtualCall receiver) ∧
      g.contains (.class_ receiver) = true ∧ (NodeId.class_ receiver, e.target) = call := by
  unfold note
  split
  next hk =>
    split <;> simp [hk]
  next receiver hk =>
    simp only [hk, EdgeKind.uses.injEq, Use.virtualCall.injEq, exists_eq_left']
    split
    next hnew =>
      rw [Bool.and_eq_true] at hnew
      simp [hnew.1, eq_comm]
    next hold =>
      refine ⟨.inl, ?_⟩
      rintro (h | ⟨hin, rfl⟩)
      · exact h
      · simpa [hin] using hold
  next _ hk =>
    refine ⟨.inl, ?_⟩
    rintro (h | ⟨receiver, hk', _⟩)
    · exact h
    · exact absurd hk' (hk receiver)

theorem mem_live_foldl_note {edges : List Edge} : id ∈ (edges.foldl (note g) l).live ↔
    id ∈ l.live ∨ ∃ e ∈ edges, e.kind = .uses .instantiate ∧ e.target = id := by
  induction edges generalizing l with
  | nil => simp
  | cons e edges ih =>
    rw [List.foldl_cons, ih, mem_live_note]
    simp only [List.mem_cons, exists_eq_or_imp]
    rw [or_assoc]

theorem mem_callSites_foldl_note {edges : List Edge} :
    call ∈ (edges.foldl (note g) l).callSites ↔
      call ∈ l.callSites ∨ ∃ e ∈ edges, ∃ receiver, e.kind = .uses (.virtualCall receiver) ∧
        g.contains (.class_ receiver) = true ∧ (NodeId.class_ receiver, e.target) = call := by
  induction edges generalizing l with
  | nil => simp
  | cons e edges ih =>
    rw [List.foldl_cons, ih, mem_callSites_note]
    simp only [List.mem_cons, exists_eq_or_imp]
    rw [or_assoc]

/-- The edges that are read are those of kept members. -/
theorem mem_keptEdges :
    e ∈ (kept.filter fun id => (g.member? id).isSome).flatMap g.outgoing ↔
      e ∈ g.edges ∧ e.source ∈ kept ∧ (g.member? e.source).isSome = true := by
  simp only [List.mem_flatMap, List.mem_filter, mem_outgoing]
  constructor
  · rintro ⟨id, ⟨hid, hm⟩, he, rfl⟩
    exact ⟨he, hid, hm⟩
  · rintro ⟨he, hid, hm⟩
    exact ⟨_, ⟨hid, hm⟩, he, rfl⟩

/-- Uses start at members, so all of those that are kept are read. -/
theorem knows_ofKept (hg : g.Regular platform) (he : e ∈ g.edges) (hs : e.source ∈ kept) :
    (ofKept g roots kept).Knows g e := by
  have hmem : ∀ use, e.kind = .uses use →
      e ∈ (kept.filter fun id => (g.member? id).isSome).flatMap g.outgoing := by
    intro use hk
    obtain ⟨m, hm⟩ := member?_of_contains (hg.uses e he use hk) (hg.wellFormed.ends e he).1
    exact mem_keptEdges.mpr ⟨he, hs, by rw [hm]; rfl⟩
  refine ⟨fun hk => ?_, fun receiver hk hin => ?_⟩
  · exact mem_live_foldl_note.mpr (.inr ⟨e, hmem _ hk, hk, rfl⟩)
  · exact mem_callSites_foldl_note.mpr (.inr ⟨e, hmem _ hk, receiver, hk, hin, rfl⟩)

theorem mem_live_ofKept_of_root {c : ClassNode} (hc : g.node? c.id = some (.class_ c))
    (hr : c.id ∈ roots) : c.id ∈ (ofKept g roots kept).live := by
  refine mem_live_foldl_note.mpr (.inl (List.mem_filter.mpr ⟨hr, ?_⟩))
  rw [hc]
  rfl

/-- Nothing is alive or called but what any closed assignment has, if it keeps the given nodes. -/
theorem ofKept_within (hA : A.Closed g h isRoot) (hg : g.WellFormed)
    (hroots : ∀ id ∈ roots, ∃ n, g.IsRoot isRoot n ∧ n.id = id)
    (hkept : ∀ e ∈ g.edges, e.source ∈ kept → A.keeps e.source .shell) :
    (ofKept g roots kept).Within A where
  live id hid := by
    rcases mem_live_foldl_note.mp hid with hid | ⟨e, he, hk, rfl⟩
    · obtain ⟨hr, hclass⟩ := List.mem_filter.mp hid
      obtain ⟨n, ⟨hn, hp, hsel⟩, rfl⟩ := hroots id hr
      cases n with
      | class_ c => exact hA.root_live c hn hp hsel
      | member m =>
        rw [hg.node?_of_mem hn] at hclass
        cases hclass
    · obtain ⟨he, hs, _⟩ := mem_keptEdges.mp he
      exact hA.instantiate e he (hkept e he hs) hk
  callSites call hcall := by
    rcases mem_callSites_foldl_note.mp hcall with hcall | ⟨e, he, receiver, hk, hin, rfl⟩
    · cases hcall
    · obtain ⟨he, hs, _⟩ := mem_keptEdges.mp he
      exact hA.call e he (hkept e he hs) receiver hk hin

/-- The assignment with other live classes and calls. -/
def replaceIn (l : Liveness) (A : Assignment) : Assignment :=
  { A with live := {id | id ∈ l.live}, called := {call | call ∈ l.callSites} }

/-- The live classes and the calls are those of the assignment. -/
structure Matches (l : Liveness) (A : Assignment) : Prop where
  live : ∀ id, id ∈ l.live ↔ id ∈ A.live
  callSites : ∀ call, call ∈ l.callSites ↔ call ∈ A.called

/-- In the least assignment nothing is alive or called for any other reason. -/
theorem ofKept_matches (hA : IsLeast {A : Assignment | A.Closed g h isRoot} A)
    (hg : g.Regular platform) (hroots : ∀ id, id ∈ roots ↔ ∃ n, g.IsRoot isRoot n ∧ n.id = id)
    (hkept : ∀ id, g.core id ≠ none → (id ∈ kept ↔ A.keeps id .shell)) :
    (ofKept g roots kept).Matches A := by
  have hwithin := ofKept_within hA.1 hg.wellFormed (fun id hid => (hroots id).mp hid)
    fun e he hs => (hkept _ (hg.sources e he)).mp hs
  have hknows : ∀ e ∈ g.edges, A.keeps e.source .shell → (ofKept g roots kept).Knows g e :=
    fun e he hs => knows_ofKept hg he ((hkept _ (hg.sources e he)).mpr hs)
  have hX : ((ofKept g roots kept).replaceIn A).Closed g h isRoot := by
    refine ⟨hA.1.shell_of_full, hA.1.member, hA.1.unresolved, hA.1.root, fun c hc hp hr => ?_,
      hA.1.owner, hA.1.edge, fun e he hs => (hknows e he hs).1, fun e he hs => (hknows e he hs).2,
      fun class_ hl receiver decl hcall => ?_⟩
    · exact mem_live_ofKept_of_root (hg.wellFormed.node?_of_mem hc)
        ((hroots _).mpr ⟨_, ⟨hc, hp, hr⟩, rfl⟩)
    · exact hA.1.dispatch class_ (hwithin.live _ hl) receiver decl (hwithin.callSites _ hcall)
  have hle := hA.2 hX
  exact ⟨fun id => ⟨hwithin.live id, fun h => hle.2.1 h⟩,
    fun call => ⟨hwithin.callSites call, fun h => hle.2.2 h⟩⟩

end Liveness

end Winnow
