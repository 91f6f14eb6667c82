import Winnow.Proofs.Marking.Known
import Winnow.Proofs.Program.Batch

/-!
# What over-deletion spares

When body edges go, every marked node that might have hung on one of them is
unmarked. What stays marked is still kept under the new edges: the old least
assignment, as far as it is deleted, unknown, or kept under the new edges as
well, is closed under the old edges.
-/
namespace Winnow

namespace Marking

open Graph

variable {g g' : Graph} {h : Hierarchy} {m : Marking} {id : NodeId} {s : KeepState}
  {ids : List NodeId} {removed : List Edge}

theorem mem_markedIds : id ∈ m.markedIds ↔ m.isMarked id = true := by
  unfold markedIds isMarked
  simp only [List.mem_map, List.mem_filter, Prod.exists, SortedMap.mem_toList_iff]
  constructor
  · rintro ⟨id, r, ⟨hr, hk⟩, rfl⟩
    rw [hr]
    exact hk
  · intro hk
    cases hr : m.marks.get? id with
    | none => simp [hr] at hk
    | some r =>
      rw [hr] at hk
      exact ⟨id, r, ⟨hr, hk⟩, rfl⟩

theorem Proper.isMarked_iff (hm : m.Proper g) : m.isMarked id = true ↔ m.has id .shell := by
  unfold isMarked has
  cases hr : m.marks.get? id with
  | none => simp
  | some r => simp [(hm id r hr).1]

theorem has_unmark : (m.unmark ids).has id s ↔ m.has id s ∧ id ∉ ids := by
  unfold has unmark
  simp only [SortedMap.get?_filter, Option.filter_eq_some_iff, decide_eq_true_eq]
  constructor
  · rintro ⟨r, ⟨hr, hid⟩, hs⟩
    exact ⟨⟨r, hr, hs⟩, hid⟩
  · rintro ⟨⟨r, hr, hs⟩, hid⟩
    exact ⟨r, ⟨hr, hid⟩, hs⟩

theorem Proper.unmark (hm : m.Proper g) : (m.unmark ids).Proper g := by
  intro id r hr
  simp only [Marking.unmark, SortedMap.get?_filter, Option.filter_eq_some_iff] at hr
  exact hm id r hr.1

theorem isDeletable_iff : isDeletable g m id = true ↔ id ∉ m.roots ∧ g.core id ≠ none := by
  rw [isDeletable, Bool.and_eq_true, decide_eq_true_eq]
  refine and_congr Iff.rfl ?_
  rw [Ne, core_eq_none_iff]
  cases g.node? id with
  | none => simp
  | some n => simp

section Reach

theorem mem_overDeleted (hd : id ∈ overDeleted g h m removed) :
    m.isMarked id = true ∧ isDeletable g m id = true := by
  obtain ⟨hm, hd⟩ := List.mem_filter.mp (mem_fresh_of_mem_breadthFirst hd)
  exact ⟨mem_markedIds.mp hm, hd⟩

/-- The node might hang on a removed edge out of a marked node, or on a deleted node. -/
def Hangs (g : Graph) (h : Hierarchy) (m : Marking) (removed : List Edge) (id : NodeId) : Prop :=
  (∃ e ∈ removed, m.isMarked e.source = true ∧ id ∈ dependents g h m.liveness e) ∨
    ∃ a ∈ overDeleted g h m removed, id ∈ consequences g h m.liveness a

theorem mem_overDeleted_of_hangs (hh : Hangs g h m removed id) (hm : m.isMarked id = true)
    (hd : isDeletable g m id = true) : id ∈ overDeleted g h m removed := by
  have hfresh : id ∈ m.markedIds.filter (isDeletable g m) :=
    List.mem_filter.mpr ⟨mem_markedIds.mpr hm, hd⟩
  rcases hh with ⟨e, he, hs, hid⟩ | ⟨a, ha, hid⟩
  · refine mem_breadthFirst_of_mem_queue hfresh (List.mem_flatMap.mpr ⟨e, ?_, hid⟩)
    exact List.mem_filter.mpr ⟨he, hs⟩
  · exact mem_breadthFirst_of_next ha hid hfresh

/-- What hangs on an edge that is still there hangs on its source. -/
theorem mem_consequences_of_edge {e : Edge} {a : NodeId} {n : Node} {l : Liveness}
    (hn : g.node? a = some n) (he : e ∈ g.edges) (hs : e.source = a)
    (hid : id ∈ dependents g h l e) : id ∈ consequences g h l a := by
  unfold consequences
  rw [hn]
  exact List.mem_append_right _ (List.mem_flatMap.mpr ⟨e, mem_outgoing.mpr ⟨he, hs⟩, hid⟩)

/-- Either way, what depends on an edge hangs: the edge went, or its source is deleted. -/
theorem hangs_of_dependent {e : Edge} (hs : m.isMarked e.source = true)
    (hsource : g.contains e.source = true)
    (he : e ∉ g.edges → e ∈ removed) (hd : e ∈ g.edges → e.source ∈ overDeleted g h m removed)
    (hid : id ∈ dependents g h m.liveness e) : Hangs g h m removed id := by
  by_cases hin : e ∈ g.edges
  · obtain ⟨n, hn⟩ := contains_iff_node?.mp hsource
    exact .inr ⟨e.source, hd hin, mem_consequences_of_edge hn hin rfl hid⟩
  · exact .inl ⟨e, he hin, hs, hid⟩

end Reach

end Marking

namespace Assignment

open Graph Marking

/-- The node is unknown, deleted, or kept under the new edges. -/
def Spared (g : Graph) (deleted : List NodeId) (A : Assignment) (id : NodeId) (s : KeepState) :
    Prop := g.core id = none ∨ id ∈ deleted ∨ A.keeps id s

/-- The old assignment as far as nodes are spared, where a class or a call that is no longer there
runs nothing but what is spared. -/
def sparedIn (g : Graph) (h : Hierarchy) (l : Liveness) (deleted : List NodeId)
    (old new : Assignment) : Assignment where
  keeps id s := old.keeps id s ∧ new.Spared g deleted id s
  live := {class_ | class_ ∈ old.live ∧
    (class_ ∈ new.live ∨ ∀ id ∈ l.runBy g h class_, new.Spared g deleted id .full)}
  called := {call | call ∈ old.called ∧
    (call ∈ new.called ∨ ∀ id ∈ l.runOn g h call.1 call.2, new.Spared g deleted id .full)}

end Assignment

namespace Marking

open Graph Assignment

/-- A marking from before a change, with everything that is gone after it left out. Of stand-ins it
may keep more than it has to. -/
structure Stale (g g' : Graph) (isRoot : Node → Bool) (A : Assignment) (m : Marking) : Prop where
  proper : m.Proper g'
  queue : m.queue = []
  roots : ∀ id, id ∈ m.roots ↔ ∃ n, g.IsRoot isRoot n ∧ n.id = id
  liveness : m.liveness.Matches A
  complete : ∀ id s, g'.contains id = true → A.keeps id s → m.has id s
  sound : ∀ id s, g'.core id ≠ none → m.has id s → A.keeps id s

variable {g g' : Graph} {h : Hierarchy} {platform : Platform} {isRoot : Node → Bool}
  {A A' : Assignment} {m : Marking} {delta : EdgeDelta} {id : NodeId} {s : KeepState}

theorem target_mem_dependents {e : Edge} {d : Demand} {l : Liveness} (hd : e.demand? = some d) :
    d.id ∈ dependents g h l e := by
  obtain ⟨state, hs, rfl⟩ := Option.map_eq_some_iff.mp hd
  have hne : e.kind.propagation ≠ .none := by
    intro hnone
    rw [hnone] at hs
    cases hs
  refine List.mem_append_left _ ?_
  rw [if_neg hne]
  exact List.mem_singleton.mpr rfl

section Spared

variable (hm : Stale g g' isRoot A m) (hA : IsLeast {A : Assignment | A.Closed g h isRoot} A)
  (hA' : A'.Closed g' h isRoot) (hg : g.Regular platform) (hg' : g'.Regular platform)
  (hcore : SameCore g g') (hblind : Blind isRoot) (hc : Changes g g' delta)

include hm hA' hg hg' hcore hblind in
/-- What hangs is spared: it is unknown, or a root, or deleted. -/
theorem Stale.spared_of_hangs (hk : A.keeps id .shell) (hh : Hangs g' h m delta.removed id) :
    A'.Spared g' (overDeleted g' h m delta.removed) id s := by
  by_cases hid : g'.core id = none
  · exact .inl hid
  · by_cases hr : id ∈ m.roots
    · obtain ⟨n, hn, rfl⟩ := (hm.roots id).mp hr
      obtain ⟨k, ⟨hmem, hp, hsel⟩, hkid, _⟩ := hcore.exists_root hg hg' hblind hn
      exact .inr (.inr (hkid ▸ hA'.keeps_of_le (KeepState.le_full s) (hA'.root k hmem hp hsel)))
    · have hmark := hm.proper.isMarked_iff.mpr (hm.complete id .shell (contains_of_core hid) hk)
      exact .inr (.inl (mem_overDeleted_of_hangs hh hmark (isDeletable_iff.mpr ⟨hr, hid⟩)))

include hm hg hcore hc in
/-- An edge out of a node that is spared is still followed, or all that depends on it hangs. -/
theorem Stale.followed_or_hangs {e : Edge} (he : e ∈ g.edges)
    (hs : (sparedIn g' h m.liveness (overDeleted g' h m delta.removed) A A').keeps e.source .shell) :
    e ∈ g'.edges ∧ A'.keeps e.source .shell ∨
      ∀ x ∈ dependents g' h m.liveness e, Hangs g' h m delta.removed x := by
  have hsource : g'.core e.source ≠ none := hcore _ ▸ hg.sources e he
  have hin := contains_of_core hsource
  have hmark := hm.proper.isMarked_iff.mpr (hm.complete _ _ hin hs.1)
  by_cases hboth : e ∈ g'.edges ∧ A'.keeps e.source .shell
  · exact .inl hboth
  · refine .inr fun x hx => hangs_of_dependent hmark hin (hc.lost e he) (fun hin' => ?_) hx
    rcases hs.2 with hnone | hdel | hkeep
    · exact absurd hnone hsource
    · exact hdel
    · exact absurd ⟨hin', hkeep⟩ hboth

include hm hA' hg hg' hcore hblind hc in
/-- An edge out of a node that is spared is still followed, or all that it kept is spared. -/
theorem Stale.followed_or_spared {e : Edge} (he : e ∈ g.edges)
    (hs : (sparedIn g' h m.liveness (overDeleted g' h m delta.removed) A A').keeps e.source .shell) :
    e ∈ g'.edges ∧ A'.keeps e.source .shell ∨
      ∀ x ∈ dependents g' h m.liveness e, A.keeps x .shell →
        ∀ s, A'.Spared g' (overDeleted g' h m delta.removed) x s :=
  (hm.followed_or_hangs hg hcore hc he hs).imp_right fun hhangs x hx hk _ =>
    hm.spared_of_hangs hA' hg hg' hcore hblind hk (hhangs x hx)

include hm hA hg hg' hcore in
/-- What an object of a live class runs was kept. -/
theorem Stale.keeps_of_mem_runBy {class_ : NodeId} (hl : class_ ∈ A.live)
    (hid : id ∈ m.liveness.runBy g' h class_) : A.keeps id .shell := by
  obtain ⟨receiver, decl, hcall, hsub, hi⟩ := Liveness.mem_runBy.mp hid
  rw [← hcore.implementationOf hg.tame hg'.tame rfl decl] at hi
  exact hA.1.shell_of_full _ (hA.1.dispatch class_ hl receiver decl
    ((hm.liveness.callSites _).mp hcall) hsub id hi)

include hm hA hg hg' hcore in
/-- What a call runs was kept. -/
theorem Stale.keeps_of_mem_runOn (hf : h.Functional) {call : NodeId × NodeId}
    (hcall : call ∈ A.called) (hid : id ∈ m.liveness.runOn g' h call.1 call.2) :
    A.keeps id .shell := by
  obtain ⟨class_, hl, hsub, hi⟩ := (Liveness.mem_runOn hf).mp hid
  rw [← hcore.implementationOf hg.tame hg'.tame rfl call.2] at hi
  exact hA.1.shell_of_full _ (hA.1.dispatch class_ ((hm.liveness.live _).mp hl) call.1 call.2
    hcall hsub id hi)

include hm hA hA' hg hg' hcore hblind hc in
theorem Stale.closed_sparedIn (hf : h.Functional) :
    (sparedIn g' h m.liveness (overDeleted g' h m delta.removed) A A').Closed g h isRoot where
  shell_of_full id hk :=
    ⟨hA.1.shell_of_full id hk.1, hk.2.imp_right fun h => h.imp_right (hA'.shell_of_full id)⟩
  member k hk hkeep := by
    refine ⟨hA.1.member k hk hkeep.1, hkeep.2.imp_right fun h => h.imp_right fun hkeep => ?_⟩
    obtain ⟨k', hk', hid⟩ := hcore.exists_member hg.wellFormed hk
    exact hid ▸ hA'.member k' hk' (hid ▸ hkeep)
  unresolved n hn hu :=
    ⟨hA.1.unresolved n hn hu, .inl (hcore n.id ▸ hg.wellFormed.core_eq_none hn hu)⟩
  root n hn hp hr := by
    obtain ⟨k, ⟨hmem, hkp, hkr⟩, hid, _⟩ := hcore.exists_root hg hg' hblind ⟨hn, hp, hr⟩
    exact ⟨hA.1.root n hn hp hr, .inr (.inr (hid ▸ hA'.root k hmem hkp hkr))⟩
  root_live c hcl hp hr := by
    obtain ⟨k, ⟨hmem, hkp, hkr⟩, hid, hb⟩ := hcore.exists_root hg hg' hblind ⟨hcl, hp, hr⟩
    cases k with
    | member _ => cases hb
    | class_ k =>
      have hid : k.id = c.id := hid
      exact ⟨hA.1.root_live c hcl hp hr, .inl (hid ▸ hA'.root_live k hmem hkp hkr)⟩
  owner k hk hkeep := by
    have howner := hA.1.owner k hk hkeep.1
    obtain ⟨k', hk', hid⟩ := hcore.exists_member hg.wellFormed hk
    refine ⟨howner, ?_⟩
    rcases hkeep.2 with hnone | hdel | hkept
    · exact absurd hnone (hid ▸ hg'.wellFormed.core_member hk')
    · refine hm.spared_of_hangs hA' hg hg' hcore hblind howner (.inr ⟨k.id, hdel, ?_⟩)
      unfold consequences
      rw [← hid, show g'.node? k'.id = _ from hg'.wellFormed.node?_of_mem hk']
      exact List.mem_append_left _ (List.mem_singleton.mpr rfl)
    · exact .inr (.inr (hid ▸ hA'.owner k' hk' (hid ▸ hkept)))
  edge e he hk d hd := by
    have hkept := hA.1.edge e he hk.1 d hd
    refine ⟨hkept, ?_⟩
    rcases hm.followed_or_spared hA' hg hg' hcore hblind hc he hk with ⟨hin, hkeep⟩ | hspare
    · exact .inr (.inr (hA'.edge e hin hkeep d hd))
    · exact hspare _ (target_mem_dependents hd) (hA.1.shell_of_keeps hkept) _
  instantiate e he hk hkind := by
    have hlive := hA.1.instantiate e he hk.1 hkind
    refine ⟨hlive, ?_⟩
    rcases hm.followed_or_spared hA' hg hg' hcore hblind hc he hk with ⟨hin, hkeep⟩ | hspare
    · exact .inl (hA'.instantiate e hin hkeep hkind)
    · refine .inr fun x hx => hspare x (List.mem_append_right _ ?_)
        (hm.keeps_of_mem_runBy hA hg hg' hcore hlive hx) _
      rw [dispatchedBy, hkind]
      exact hx
  call e he hk receiver hkind hin := by
    have hcalled := hA.1.call e he hk.1 receiver hkind hin
    have hin' : g'.contains (.class_ receiver) = true :=
      contains_of_core (hcore _ ▸ hg.receivers e he receiver hkind)
    refine ⟨hcalled, ?_⟩
    rcases hm.followed_or_spared hA' hg hg' hcore hblind hc he hk with ⟨hedge, hkeep⟩ | hspare
    · exact .inl (hA'.call e hedge hkeep receiver hkind hin')
    · refine .inr fun x hx => hspare x (List.mem_append_right _ ?_)
        (hm.keeps_of_mem_runOn hA hg hg' hcore hf hcalled hx) _
      rw [dispatchedBy, hkind]
      simp only [hin', if_true]
      exact hx
  dispatch class_ hl receiver decl hcall hsub id hi := by
    have hkept := hA.1.dispatch class_ hl.1 receiver decl hcall.1 hsub id hi
    refine ⟨hkept, ?_⟩
    rw [hcore.implementationOf hg.tame hg'.tame rfl decl] at hi
    -- If the class or the call is gone, all that it ran is spared.
    rcases hl.2 with hlive | hrun
    · rcases hcall.2 with hcalled | hrun
      · exact .inr (.inr (hA'.dispatch class_ hlive receiver decl hcalled hsub id hi))
      · exact hrun id ((Liveness.mem_runOn hf).mpr
          ⟨class_, (hm.liveness.live _).mpr hl.1, hsub, hi⟩)
    · exact hrun id (Liveness.mem_runBy.mpr
        ⟨receiver, decl, (hm.liveness.callSites _).mpr hcall.1, hsub, hi⟩)

include hm hA hA' hg hg' hcore hblind hc in
/-- What was kept and is known is deleted or still kept. -/
theorem Stale.keeps_of_not_deleted (hf : h.Functional) (hk : A.keeps id s)
    (hid : g'.core id ≠ none) (hdel : id ∉ overDeleted g' h m delta.removed) : A'.keeps id s := by
  have hle := hA.2 (hm.closed_sparedIn hA hA' hg hg' hcore hblind hc hf)
  exact ((hle.1 id s hk).2.resolve_left hid).resolve_left hdel

end Spared

end Marking

end Winnow
