import Winnow.Proofs.Marking.Deletion

/-!
# Marking again finds the least assignment

What over-deletion leaves is marked up from, with the support of what was
deleted, the new edges, new stand-ins and dispatch. On the nodes that are known,
the outcome is the least assignment of the new graph.
-/
namespace Winnow

namespace Marking

open Graph

variable {g : Graph} {h : Hierarchy} {platform : Platform} {isRoot : Node → Bool}
  {B : Assignment} {m m' m'' : Marking} {α : Type}

/-- Demands were made, and nothing else happened. -/
structure Demands (g : Graph) (m m' : Marking) : Prop where
  grows : m.Grows m'
  roots : m'.roots = m.roots
  liveness : m'.liveness = m.liveness
  proper : m.Proper g → m'.Proper g

theorem Demands.refl (m : Marking) : Demands g m m := ⟨.refl m, rfl, rfl, fun hm => hm⟩

theorem Demands.trans (hm : Demands g m m') (hm' : Demands g m' m'') : Demands g m m'' :=
  ⟨hm.grows.trans hm'.grows, hm'.roots.trans hm.roots, hm'.liveness.trans hm.liveness,
    fun hp => hm'.proper (hm.proper hp)⟩

theorem demands_keepAll (demands : List Demand) : Demands g m (m.keepAll g demands) :=
  ⟨keepAll_grows demands, roots_keepAll, liveness_keepAll, fun hm => hm.keepAll demands⟩

theorem Meets.mono {d : Demand} (hm : m.Meets g d) (hgrows : m.Grows m') : m'.Meets g d :=
  fun n hn => hgrows.has _ _ (hm n hn)

/-- Makes the demands of one thing after the other, each in view of what is marked by then. -/
def demandEach (g : Graph) (f : Marking → α → List Demand) (m : Marking) (l : List α) : Marking :=
  l.foldl (fun m a => m.keepAll g (f m a)) m

section DemandEach

variable {f : Marking → α → List Demand} {l : List α}

theorem demands_demandEach (m : Marking) (l : List α) : Demands g m (demandEach g f m l) := by
  induction l generalizing m with
  | nil => exact .refl m
  | cons a l ih => exact (demands_keepAll _).trans (ih _)

/-- A demand that stays in force is met. -/
theorem meets_demandEach {a : α} (ha : a ∈ l) {d : Demand}
    (hd : ∀ m', Demands g m m' → m'.Meets g d ∨ d ∈ f m' a) : (demandEach g f m l).Meets g d := by
  induction l generalizing m with
  | nil => cases ha
  | cons b l ih =>
    have hfirst : Demands g m (m.keepAll g (f m b)) := demands_keepAll _
    rcases List.mem_cons.mp ha with rfl | ha
    · refine Meets.mono ?_ (demands_demandEach (f := f) _ l).grows
      rcases hd m (.refl m) with hmet | hdem
      · exact hmet.mono hfirst.grows
      · exact keepAll_meets hdem
    · exact ih ha fun m' hm' => hd m' (hfirst.trans hm')

theorem demandEach_below (hB : B.Closed g h isRoot) (hm : ∀ id s, m.has id s → B.keeps id s)
    (hf : ∀ m', m'.Proper g → (∀ id s, m'.has id s → B.keeps id s) → ∀ a ∈ l, ∀ d ∈ f m' a,
      B.keeps d.id d.state) (hp : m.Proper g) :
    ∀ id s, (demandEach g f m l).has id s → B.keeps id s := by
  induction l generalizing m with
  | nil => exact hm
  | cons a l ih =>
    refine ih (Below.keepAll hB hm _ (hf m hp hm a List.mem_cons_self)) (fun m' hp' hm' b hb => ?_)
      (hp.keepAll _)
    exact hf m' hp' hm' b (List.mem_cons_of_mem _ hb)

end DemandEach

/-- What a new edge asks for, if its source is marked. -/
def addedDemand (m : Marking) (e : Edge) : List Demand :=
  if m.isMarked e.source then e.demand?.toList else []

/-- What dispatch asks for, unless it is marked already. -/
def dispatchDemand (m : Marking) (id : NodeId) : List Demand :=
  if m.isMarked id then [] else [⟨id, .full⟩]

/-- The marking of which only the live classes and calls are renewed. -/
def refreshed (g : Graph) (m : Marking) : Marking :=
  { m with liveness := .ofKept g m.roots.toList m.markedIds }

/-- What is marked before dispatch, given the nodes that were deleted and the new edges. -/
def supported (g : Graph) (m : Marking) (deleted : List NodeId) (added : List Edge) : Marking :=
  let m := demandEach g addedDemand (demandEach g (support g) (refreshed g m) deleted) added
  m.keepAll g ((m.newPlaceholders g).map (⟨·, .shell⟩))

/-- The marking from which the work list starts. -/
def restarted (g : Graph) (h : Hierarchy) (m : Marking) (deleted : List NodeId)
    (added : List Edge) : Marking :=
  demandEach g dispatchDemand (supported g m deleted added)
    (dispatched g h (supported g m deleted added).liveness)

variable {deleted : List NodeId} {added : List Edge}

theorem rederive_eq :
    rederive g h m deleted added = (restarted g h m deleted added).drain g h := by
  have hadded : (fun (m : Marking) (e : Edge) =>
      if m.isMarked e.source then m.keepAll g e.demand?.toList else m) =
      fun m e => m.keepAll g (addedDemand m e) := by
    funext m e
    unfold addedDemand
    split <;> rfl
  have hdispatch : keepUnmarked g = fun m id => m.keepAll g (dispatchDemand m id) := by
    funext m id
    unfold keepUnmarked dispatchDemand
    split <;> rfl
  unfold rederive
  rw [hadded, hdispatch]
  rfl

/-- Of a member that is marked at all, everything is. -/
theorem Proper.has_full (hm : m.Proper g) {id : NodeId} (hid : id.isClass = false)
    (hk : m.has id .shell) : m.has id .full := by
  obtain ⟨r, hr, _⟩ := hk
  obtain ⟨_, n, hn, heff⟩ := hm id r hr
  refine ⟨r, hr, ?_⟩
  cases n with
  | class_ c =>
    rw [← id_of_node? hn] at hid
    cases hid
  | member k =>
    rw [← heff]
    exact KeepState.le_refl _

theorem isClass_of_implementationOf {class_ decl id : NodeId}
    (hi : g.implementationOf h class_ decl = some id) : id.isClass = false := by
  obtain ⟨_, _, hi⟩ := Option.bind_eq_some_iff.mp hi
  obtain ⟨_, _, _, _, hd⟩ := implementation_eq_some hi
  exact (declared_spec hd).1

theorem demands_supported (m : Marking) (deleted : List NodeId) (added : List Edge) :
    Demands g (refreshed g m) (supported g m deleted added) :=
  ((demands_demandEach _ _).trans (demands_demandEach _ _)).trans (demands_keepAll _)

theorem demands_restarted (m : Marking) (deleted : List NodeId) (added : List Edge) :
    Demands g (refreshed g m) (restarted g h m deleted added) :=
  (demands_supported m deleted added).trans (demands_demandEach _ _)

/-- What is left of a marking after nodes were deleted: whatever it asks for is there, or deleted,
or asked for by a new edge. -/
structure Remnant (g : Graph) (isRoot : Node → Bool) (deleted : List NodeId) (added : List Edge)
    (m : Marking) : Prop where
  proper : m.Proper g
  queue : m.queue = []
  roots : ∀ id, id ∈ m.roots ↔ ∃ n, g.IsRoot isRoot n ∧ n.id = id
  root : ∀ n, g.IsRoot isRoot n → m.has n.id .full
  listed : ∀ id, m.has id .shell → g.Lists id
  owner : ∀ k, Node.member k ∈ g.nodes → m.has k.id .shell →
    m.has (.class_ k.id.className) .shell ∨ .class_ k.id.className ∈ deleted
  edge : ∀ e ∈ g.edges, m.has e.source .shell → ∀ d, e.demand? = some d →
    m.Meets g d ∨ d.id ∈ deleted ∨ e ∈ added

section Remnant

variable (hm : Remnant g isRoot deleted added m)

include hm in
theorem Remnant.proper_of_demands (hd : Demands g (refreshed g m) m') : m'.Proper g :=
  hd.proper hm.proper

include hm in
theorem Remnant.isMarked_of_demands (hd : Demands g (refreshed g m) m') {id : NodeId}
    (hid : m.has id .shell) : m'.isMarked id = true :=
  (hm.proper_of_demands hd).isMarked_iff.mpr (hd.grows.has _ _ hid)

include hm in
/-- The owner of a marked member is marked, if need be in support of a deleted class. -/
theorem Remnant.meets_owner (hg : g.Regular platform) {k : MemberNode}
    (hk : Node.member k ∈ g.nodes) (hkeep : m.has k.id .shell) :
    (supported g m deleted added).Meets g ⟨.class_ k.id.className, .shell⟩ := by
  have hlate : Demands g (demandEach g (support g) (refreshed g m) deleted)
      (supported g m deleted added) := (demands_demandEach _ _).trans (demands_keepAll _)
  refine Meets.mono ?_ hlate.grows
  rcases hm.owner k hk hkeep with hthere | hdel
  · refine Meets.mono (m := refreshed g m) ?_ (demands_demandEach _ _).grows
    intro n hn
    obtain ⟨c, hc⟩ := hg.wellFormed.class?_of_contains (hg.wellFormed.owned k hk).2
    obtain rfl := Option.some.inj ((class?_eq_some hc).1.symm.trans hn)
    exact hthere
  · refine meets_demandEach hdel fun m' hm' => .inr (List.mem_append_right _ ?_)
    obtain ⟨c, hc, hmem⟩ := (hm.listed _ hkeep).resolve_left (by
      rw [(hg.wellFormed.owned k hk).1]
      exact Bool.false_ne_true)
    have hany : c.members.toList.any (fun id => g.contains id && m'.isMarked id) = true := by
      refine List.any_eq_true.mpr ⟨k.id, hmem, ?_⟩
      rw [Bool.and_eq_true]
      exact ⟨contains_of_mem hk, hm.isMarked_of_demands hm' hkeep⟩
    rw [(class?_eq_some hc).1]
    simp only [Option.bind_some, Node.class?, hany, if_true]
    exact List.mem_singleton.mpr rfl

include hm in
/-- What an edge out of a marked node asks for is there, or in support of its target, or asked for
as a new edge. -/
theorem Remnant.meets_edge {e : Edge} (he : e ∈ g.edges) (hs : m.has e.source .shell) {d : Demand}
    (hd : e.demand? = some d) : (supported g m deleted added).Meets g d := by
  refine Meets.mono ?_ (demands_keepAll _).grows
  have hsecond := demands_demandEach (g := g) (f := addedDemand)
    (demandEach g (support g) (refreshed g m) deleted) added
  have hfirst := demands_demandEach (g := g) (f := support g) (refreshed g m) deleted
  rcases hm.edge e he hs d hd with hthere | hdel | hadd
  · exact Meets.mono (m := refreshed g m) hthere (hfirst.trans hsecond).grows
  · refine Meets.mono (meets_demandEach hdel fun m' hm' => .inr (List.mem_append_left _ ?_))
      hsecond.grows
    refine List.mem_filterMap.mpr ⟨e, List.mem_filter.mpr ⟨mem_incoming.mpr ⟨he, ?_⟩, ?_⟩, hd⟩
    · obtain ⟨_, _, rfl⟩ := Option.map_eq_some_iff.mp hd
      rfl
    · exact hm.isMarked_of_demands hm' hs
  · refine meets_demandEach hadd fun m' hm' => .inr ?_
    rw [addedDemand, if_pos (hm.isMarked_of_demands (hfirst.trans hm') hs), hd]
    exact List.mem_singleton.mpr rfl

include hm in
/-- The work list starts with everything that is not settled. -/
theorem Remnant.progress (hg : g.Regular platform) (hf : h.Functional) :
    Progress g h (restarted g h m deleted added) := by
  have hdemands := demands_restarted (g := g) (h := h) m deleted added
  have hlast : Demands g (supported g m deleted added) (restarted g h m deleted added) :=
    demands_demandEach _ _
  have hlive : (restarted g h m deleted added).liveness = (supported g m deleted added).liveness :=
    hlast.liveness
  refine ⟨hm.proper_of_demands hdemands, fun id hid => ?_, fun id hid => ?_, ?_⟩
  · refine (hdemands.grows.queued id hid).resolve_left ?_
    rw [refreshed, hm.queue]
    exact List.not_mem_nil
  · rcases hdemands.grows.fresh id .shell hid with hold | hqueued
    · right
      refine ⟨fun n hn d hd => ?_, fun e he hs d hd => ?_, fun e he hs => ?_⟩
      · cases n with
        | class_ c => cases hd
        | member k =>
          have hk : k.id = id := id_of_node? hn
          rw [List.mem_singleton.mp hd]
          exact (hm.meets_owner hg (mem_of_node? hn) (hk ▸ hold)).mono hlast.grows
      · exact (hm.meets_edge he (hs ▸ hold) hd).mono hlast.grows
      · rw [hdemands.liveness]
        refine Liveness.knows_ofKept hg he (mem_markedIds.mpr (hm.proper.isMarked_iff.mpr ?_))
        exact hs ▸ hold
    · exact .inl hqueued
  · intro class_ hl receiver decl hcall hsub id hi
    rw [hlive] at hl hcall
    have hin : id ∈ dispatched g h (supported g m deleted added).liveness :=
      List.mem_flatMap.mpr ⟨_, hcall, (Liveness.mem_runOn hf).mpr ⟨class_, hl, hsub, hi⟩⟩
    have hmeets : (restarted g h m deleted added).Meets g ⟨id, .full⟩ := by
      refine meets_demandEach hin fun m' hm' => ?_
      have hproper := hm.proper_of_demands ((demands_supported m deleted added).trans hm')
      unfold dispatchDemand
      split
      next hmark =>
        refine .inl fun n hn => ?_
        have := hproper.has_full (isClass_of_implementationOf hi) (hproper.isMarked_iff.mp hmark)
        cases n <;> exact this
      next => exact .inr (List.mem_singleton.mpr rfl)
    obtain ⟨_, _, hi⟩ := Option.bind_eq_some_iff.mp hi
    exact hmeets.has_of_contains (contains_of_implementation hi)

include hm in
theorem Remnant.rooted (hg : g.WellFormed) : (restarted g h m deleted added).Rooted g isRoot := by
  have hdemands := demands_restarted (g := g) (h := h) m deleted added
  refine ⟨fun n hn hu => ?_, fun n hn hp hr => ?_, fun c hc hp hr => ?_⟩
  · refine (demands_demandEach _ _).grows.has _ _ ?_
    have hfirst : Demands g (refreshed g m)
        (demandEach g addedDemand (demandEach g (support g) (refreshed g m) deleted) added) :=
      (demands_demandEach _ _).trans (demands_demandEach _ _)
    by_cases hmark : (demandEach g addedDemand
        (demandEach g (support g) (refreshed g m) deleted) added).isMarked n.id = true
    · exact (keepAll_grows _).has _ _ ((hm.proper_of_demands hfirst).isMarked_iff.mp hmark)
    · have hmem : n.id ∈ newPlaceholders g (demandEach g addedDemand
          (demandEach g (support g) (refreshed g m) deleted) added) :=
        List.mem_filter.mpr ⟨List.mem_map_of_mem (List.mem_filter.mpr ⟨hn, hu⟩), by simpa using hmark⟩
      exact (keepAll_meets (List.mem_map_of_mem hmem)).has_of_contains (contains_of_mem hn)
  · exact hdemands.grows.has _ _ (hm.root n ⟨hn, hp, hr⟩)
  · rw [hdemands.liveness]
    exact Liveness.mem_live_ofKept_of_root (hg.node?_of_mem hc)
      ((hm.roots _).mpr ⟨_, ⟨hc, hp, hr⟩, rfl⟩)

/-- A closed assignment that keeps all that is marked keeps what supports a node. -/
theorem keeps_of_mem_support {id : NodeId} {d : Demand} (hg : g.Regular platform)
    (hB : B.Closed g h isRoot) (hp : m.Proper g) (hkeep : ∀ id s, m.has id s → B.keeps id s)
    (hd : d ∈ support g m id) : B.keeps d.id d.state := by
  have hmarked : ∀ {x}, m.isMarked x = true → B.keeps x .shell :=
    fun hx => hkeep _ _ (hp.isMarked_iff.mp hx)
  rcases List.mem_append.mp hd with hd | hd
  · obtain ⟨e, he, hdem⟩ := List.mem_filterMap.mp hd
    obtain ⟨hin, hmark⟩ := List.mem_filter.mp he
    exact hB.edge e (mem_incoming.mp hin).1 (hmarked hmark) d hdem
  · -- A class that has a marked member is supported as a shell.
    cases hn : g.node? id with
    | none => simp [hn] at hd
    | some n =>
      cases n with
      | member k => simp [hn, Node.class?] at hd
      | class_ c =>
        simp only [hn, Option.bind_some, Node.class?] at hd
        split at hd
        next hany =>
          obtain ⟨x, hx, hmark⟩ := List.any_eq_true.mp hany
          rw [Bool.and_eq_true] at hmark
          have hname : id = .class_ c.name := (id_of_node? hn).symm
          have hc : g.class? c.name = some c := class?_of_node? (hname ▸ hn)
          obtain ⟨hclass, howner⟩ := hg.own c.name c hc x hx
          obtain ⟨k, hk⟩ := member?_of_contains hclass hmark.1
          obtain ⟨hk, rfl⟩ := member?_eq_some hk
          rw [List.mem_singleton.mp hd, hname, ← howner]
          exact hB.owner k (mem_of_node? hk) (hmarked hmark.2)
        next => cases hd

include hm in
/-- Nothing is marked that a closed assignment above the remnant does not keep. -/
theorem Remnant.below (hg : g.Regular platform) (hf : h.Functional) (hB : B.Closed g h isRoot)
    (hkeep : ∀ id s, m.has id s → B.keeps id s) (hadded : ∀ e ∈ added, e ∈ g.edges) :
    (restarted g h m deleted added).Below B := by
  have hlive : (refreshed g m).liveness.Within B := by
    refine Liveness.ofKept_within hB hg.wellFormed (fun id hid => (hm.roots id).mp hid)
      fun e _ hs => hkeep _ _ (hm.proper.isMarked_iff.mp (mem_markedIds.mp hs))
  refine ⟨?_, (demands_restarted m deleted added).liveness ▸ hlive⟩
  have hfirst := demandEach_below (f := support g) (l := deleted) hB (m := refreshed g m) hkeep
    (fun _ hp hm' _ _ _ => keeps_of_mem_support hg hB hp hm') hm.proper
  have hproper : (demandEach g (support g) (refreshed g m) deleted).Proper g :=
    hm.proper_of_demands (demands_demandEach _ _)
  have hsecond := demandEach_below (f := addedDemand) (l := added) hB hfirst (fun m' hp hm' e he d hd => by
    unfold addedDemand at hd
    split at hd
    next hmark =>
      exact hB.edge e (hadded e he) (hm' _ _ (hp.isMarked_iff.mp hmark)) d (Option.mem_toList.mp hd)
    next => cases hd) hproper
  have hthird : ∀ id s, (supported g m deleted added).has id s → B.keeps id s := by
    refine Below.keepAll hB hsecond _ fun d hd => ?_
    obtain ⟨id, hid, rfl⟩ := List.mem_map.mp hd
    obtain ⟨n, hn, rfl⟩ := List.mem_map.mp (List.mem_of_mem_filter hid)
    obtain ⟨hn, hu⟩ := List.mem_filter.mp hn
    exact hB.unresolved n hn hu
  refine demandEach_below hB hthird (fun m' _ _ id hid d hd => ?_)
    (hm.proper_of_demands (demands_supported m deleted added))
  unfold dispatchDemand at hd
  split at hd
  next => cases hd
  next =>
    rw [(demands_supported m deleted added).liveness] at hid
    obtain ⟨call, hcall, hrun⟩ := List.mem_flatMap.mp hid
    obtain ⟨class_, hl, hsub, hi⟩ := (Liveness.mem_runOn hf).mp hrun
    rw [List.mem_singleton.mp hd]
    exact hB.dispatch class_ (hlive.live _ hl) call.1 call.2 (hlive.callSites _ hcall) hsub id hi

include hm in
/-- Marking what is left again ends with a closed assignment, below all that are above the
remnant. -/
theorem Remnant.rederive (hg : g.Regular platform) (hf : h.Functional)
    (hadded : ∀ e ∈ added, e ∈ g.edges) :
    (rederive g h m deleted added).Proper g ∧
      (rederive g h m deleted added).roots = m.roots ∧
      (rederive g h m deleted added).assignment.Closed g h isRoot ∧
      ∀ B : Assignment, B.Closed g h isRoot → (∀ id s, m.has id s → B.keeps id s) →
        (rederive g h m deleted added).Below B := by
  rw [rederive_eq]
  have hrun := drain_run (g := g) (h := h) (restarted g h m deleted added)
  have hprogress : Progress g h ((restarted g h m deleted added).drain g h) :=
    run_induction (fun _ _ hp hs => hp.step hf hs) hrun (hm.progress hg hf)
  refine ⟨hprogress.proper, ?_, ?_, fun B hB hkeep => ?_⟩
  · exact (roots_of_run hrun).trans (demands_restarted m deleted added).roots
  · refine hprogress.closed hg.wellFormed ?_ (queue_drain _)
    exact run_induction (P := fun m => m.Rooted g isRoot)
      (fun _ _ hr hs => hr.mono (step_leadsTo hf hs)) hrun (hm.rooted hg.wellFormed)
  · have hboth := run_induction (P := fun m => Progress g h m ∧ m.Below B)
      (fun _ _ hp hs => ⟨hp.1.step hf hs, hp.2.step hf hB hp.1 hs⟩) hrun
      ⟨hm.progress hg hf, hm.below hg hf hB hkeep hadded⟩
    exact hboth.2

end Remnant

section Remark

variable {g' : Graph} {A A' : Assignment} {delta : EdgeDelta} {t : CounterTable}

/-- A table that agrees with an assignment on the nodes that are known. Of stand-ins it may keep
more than the assignment does. -/
structure Tracks (g : Graph) (isRoot : Node → Bool) (A : Assignment) (t : CounterTable) : Prop where
  proper : ∀ id r, t.retention.get? id = some r →
    r.isKept = true ∧ ∃ n, g.node? id = some n ∧ effectiveState n r.state = r.state
  roots : ∀ id, id ∈ t.roots ↔ ∃ n, g.IsRoot isRoot n ∧ n.id = id
  complete : ∀ id s, A.keeps id s → t.keeps id s
  sound : ∀ id s, g.core id ≠ none → t.keeps id s → A.keeps id s

theorem Proper.tracks_table (hm : m.Proper g)
    (hroots : ∀ id, id ∈ m.roots ↔ ∃ n, g.IsRoot isRoot n ∧ n.id = id)
    (hcomplete : ∀ id s, A.keeps id s → m.has id s)
    (hsound : ∀ id s, g.core id ≠ none → m.has id s → A.keeps id s) :
    Tracks g isRoot A (m.table g) where
  proper id r hr := by
    simp only [table, SortedMap.get?_filter, Option.filter_eq_some_iff] at hr
    exact hm id r hr.1
  roots id := by
    rw [show id ∈ (m.table g).roots ↔ _ from SortedSet.mem_filter, hroots]
    constructor
    · exact fun h => h.1
    · rintro ⟨n, hn, rfl⟩
      exact ⟨⟨n, hn, rfl⟩, contains_of_mem hn.1⟩
  complete id s hk := hm.keeps_table.mpr (hcomplete id s hk)
  sound id s hid hk := hsound id s hid (hm.keeps_table.mp hk)

theorem has_restore (ht : Tracks g isRoot A t) {id : NodeId} {s : KeepState} :
    (restore g t).has id s ↔ t.keeps id s := by
  unfold has CounterTable.keeps CounterTable.state? restore
  simp only [SortedMap.get?_filter, Option.filter_eq_some_iff, Option.map_eq_some_iff]
  constructor
  · rintro ⟨r, ⟨hr, _⟩, hs⟩
    exact ⟨r.state, ⟨r, ⟨hr, (ht.proper id r hr).1⟩, rfl⟩, hs⟩
  · rintro ⟨_, ⟨r, ⟨hr, _⟩, rfl⟩, hs⟩
    obtain ⟨_, n, hn, _⟩ := ht.proper id r hr
    exact ⟨r, ⟨hr, contains_iff_node?.mpr ⟨n, hn⟩⟩, hs⟩

theorem proper_restore (ht : Tracks g isRoot A t) : (restore g t).Proper g := by
  intro id r hr
  simp only [restore, SortedMap.get?_filter, Option.filter_eq_some_iff] at hr
  exact ht.proper id r hr.1

theorem mem_roots_restore (ht : Tracks g isRoot A t) {id : NodeId} :
    id ∈ (restore g t).roots ↔ ∃ n, g.IsRoot isRoot n ∧ n.id = id := by
  rw [show id ∈ (restore g t).roots ↔ _ from SortedSet.mem_filter, ht.roots]
  constructor
  · exact fun h => h.1
  · rintro ⟨n, hn, rfl⟩
    exact ⟨⟨n, hn, rfl⟩, contains_of_mem hn.1⟩

/-- Whether a node is a class or a member shows in its identity. -/
theorem effectiveState_congr (hg : g.WellFormed) (hg' : g'.WellFormed) {id : NodeId} {n n' : Node}
    (hn : g.node? id = some n) (hn' : g'.node? id = some n') (s : KeepState) :
    effectiveState n s = effectiveState n' s := by
  cases n with
  | class_ c =>
    cases n' with
    | class_ c' => rfl
    | member k' =>
      have hid := (hg'.owned k' (mem_of_node? hn')).1
      rw [show k'.id = id from id_of_node? hn', ← id_of_node? hn] at hid
      cases hid
  | member k =>
    cases n' with
    | member k' => rfl
    | class_ c' =>
      have hid := (hg.owned k (mem_of_node? hn)).1
      rw [show k.id = id from id_of_node? hn, ← id_of_node? hn'] at hid
      cases hid

/-- The marking that a table describes, without the nodes that were dropped. -/
def surviving (delta : EdgeDelta) (m : Marking) : Marking :=
  { m.unmark delta.dropped with roots := m.roots.filter (· ∉ delta.dropped) }

theorem has_surviving {id : NodeId} {s : KeepState} :
    (surviving delta m).has id s ↔ m.has id s ∧ id ∉ delta.dropped := has_unmark

theorem remark_fst : (remark g h m delta).1 =
    rederive g h ((surviving delta m).unmark (overDeleted g h (surviving delta m) delta.removed))
      (overDeleted g h (surviving delta m) delta.removed) delta.added := rfl

variable (hg : g.Regular platform) (hg' : g'.Regular platform) (hcore : SameCore g g')
  (hblind : Blind isRoot) (hc : Changes g g' delta)
  (hA : IsLeast {A : Assignment | A.Closed g h isRoot} A)

include hg hcore hc hA in
theorem Tracks.stale (hg' : g'.Regular platform) (ht : Tracks g isRoot A t) :
    Stale g g' isRoot A (surviving delta (restore g t)) where
  proper id r hr := by
    simp only [surviving, Marking.unmark, SortedMap.get?_filter, Option.filter_eq_some_iff,
      decide_eq_true_eq] at hr
    obtain ⟨hkept, n, hn, heff⟩ := proper_restore ht id r hr.1
    obtain ⟨n', hn'⟩ := contains_iff_node?.mp
      (hc.retained id (contains_iff_node?.mpr ⟨n, hn⟩) hr.2)
    refine ⟨hkept, n', hn', ?_⟩
    rw [← effectiveState_congr hg.wellFormed hg'.wellFormed hn hn', heff]
  queue := rfl
  roots id := by
    rw [show id ∈ (surviving delta (restore g t)).roots ↔ _ from SortedSet.mem_filter,
      mem_roots_restore ht]
    refine ⟨fun h => h.1, ?_⟩
    rintro ⟨n, hn, rfl⟩
    refine ⟨⟨n, hn, rfl⟩, ?_⟩
    obtain ⟨k, hk, hid, _⟩ := hcore.exists_mem hg.wellFormed hn.1 (isUnresolved_of_inProgram hn.2.1)
    simpa using hc.not_dropped (hid ▸ contains_of_mem hk)
  liveness := by
    refine Liveness.ofKept_matches hA hg (fun id => mem_roots_restore ht) fun id hid => ?_
    rw [mem_markedIds]
    show (restore g t).isMarked id = true ↔ _
    rw [(proper_restore ht).isMarked_iff, has_restore ht]
    exact ⟨ht.sound id _ hid, ht.complete id _⟩
  complete id s hin hk :=
    has_surviving.mpr ⟨(has_restore ht).mpr (ht.complete id s hk), hc.not_dropped hin⟩
  sound id s hid hk :=
    ht.sound id s (hcore id ▸ hid) ((has_restore ht).mp (has_surviving.mp hk).1)

include hg hg' hcore hblind hc hA in
/-- Over-deletion leaves a remnant. -/
theorem Stale.remnant (hm : Stale g g' isRoot A m) :
    Remnant g' isRoot (overDeleted g' h m delta.removed) delta.added
      (m.unmark (overDeleted g' h m delta.removed)) where
  proper := hm.proper.unmark
  queue := hm.queue
  roots id := by
    rw [show id ∈ (m.unmark _).roots ↔ id ∈ m.roots from Iff.rfl, hm.roots]
    constructor
    · rintro ⟨n, hn, rfl⟩
      obtain ⟨k, hk, hid, _⟩ := hcore.exists_root hg hg' hblind hn
      exact ⟨k, hk, hid⟩
    · rintro ⟨n, hn, rfl⟩
      obtain ⟨k, hk, hid, _⟩ := hcore.symm.exists_root hg' hg hblind hn
      exact ⟨k, hk, hid⟩
  root n hn := by
    obtain ⟨k, hk, hid, _⟩ := hcore.symm.exists_root hg' hg hblind hn
    refine has_unmark.mpr ⟨hm.complete _ _ (contains_of_mem hn.1) ?_, fun hdel => ?_⟩
    · exact hid ▸ hA.1.root k hk.1 hk.2.1 hk.2.2
    · exact (isDeletable_iff.mp (mem_overDeleted hdel).2).1 ((hm.roots _).mpr ⟨k, hk, hid⟩)
  listed id hid := by
    have hhas := (has_unmark.mp hid).1
    by_cases hknown : g'.core id = none
    · -- What is not known is a stand-in, and these are classes.
      obtain ⟨r, hr, _⟩ := hhas
      obtain ⟨_, n, hn, _⟩ := hm.proper id r hr
      have hu := core_eq_none_iff.mp hknown n hn
      cases n with
      | class_ c => exact .inl (by rw [← id_of_node? hn]; rfl)
      | member k => cases hu
    · exact hcore.lists hg.tame hg'.tame
        (Assignment.lists_of_isLeast hA hg (hm.sound id .shell hknown hhas))
  owner k hk hkeep := by
    obtain ⟨k₀, hk₀, hid⟩ := hcore.symm.exists_member hg'.wellFormed hk
    have hkept := hm.sound _ _ (hg'.wellFormed.core_member hk) (has_unmark.mp hkeep).1
    have howner := hA.1.owner k₀ hk₀
    rw [hid] at howner
    have hhas := hm.complete _ _ (hg'.wellFormed.owned k hk).2 (howner hkept)
    by_cases hdel : NodeId.class_ k.id.className ∈ overDeleted g' h m delta.removed
    · exact .inr hdel
    · exact .inl (has_unmark.mpr ⟨hhas, hdel⟩)
  edge e he hs d hd := by
    by_cases hold : e ∈ g.edges
    · have hkept := hm.sound _ _ (hg'.sources e he) (has_unmark.mp hs).1
      have htarget : d.id = e.target := by
        obtain ⟨_, _, rfl⟩ := Option.map_eq_some_iff.mp hd
        rfl
      have hhas := hm.complete d.id d.state (htarget ▸ (hg'.wellFormed.ends e he).2)
        (hA.1.edge e hold hkept d hd)
      by_cases hdel : d.id ∈ overDeleted g' h m delta.removed
      · exact .inr (.inl hdel)
      · refine .inl fun n hn => has_unmark.mpr ⟨?_, hdel⟩
        cases n with
        | class_ c => exact hhas
        | member k =>
          have hid : k.id = d.id := id_of_node? hn
          exact hm.proper.has_full (hid ▸ (hg'.wellFormed.owned k (mem_of_node? hn)).1)
            (has_of_le (KeepState.shell_le _) hhas)
    · exact .inr (.inr (hc.gained e he hold))

include hg hg' hcore hblind hc hA in
/-- Marking again brings a table of the old least assignment to the new one. -/
theorem Tracks.remark (hf : h.Functional) (hA' : IsLeast {A : Assignment | A.Closed g' h isRoot} A')
    (ht : Tracks g isRoot A t) :
    Tracks g' isRoot A' ((remark g' h (restore g t) delta).1.table g') := by
  have hstale := ht.stale hg hcore hc hA hg'
  have hremnant := hstale.remnant (h := h) hg hg' hcore hblind hc hA
  obtain ⟨hproper, hroots, hclosed, hbelow⟩ := hremnant.rederive hg' hf hc.present
  rw [remark_fst]
  refine Proper.tracks_table hproper (fun id => ?_) (hA'.2 hclosed).1 fun id s hid hk => ?_
  · rw [hroots, hremnant.roots]
  · have hrelaxed := hA'.1.relaxed hg' hg' (fun _ => rfl) hblind (fun _ => rfl) fun e he _ => he
    refine ((hbelow _ hrelaxed fun x s hx => ?_).1 id s hk).resolve_right hid
    by_cases hx' : g'.core x = none
    · exact .inr hx'
    · obtain ⟨hhas, hdel⟩ := has_unmark.mp hx
      exact .inl (hstale.keeps_of_not_deleted hA hA'.1 hg hg' hcore hblind hc hf
        (hstale.sound x s hx' hhas) hx' hdel)

end Remark

end Marking

end Winnow
