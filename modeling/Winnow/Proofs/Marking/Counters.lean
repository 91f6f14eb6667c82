import Mathlib.Algebra.GroupWithZero.Nat
import Mathlib.Data.List.Perm.Subperm
import Winnow.Proofs.Graph.Hierarchy
import Winnow.Proofs.Marking.Remark

/-!
# How high counters get

A counter goes up with every demand, and a snapshot has room for counters of 32
bits only. So the demands are counted. A node passes on what it has at most
twice, and each time it makes one demand for its owner and one for each of its
edges; what dispatch asks for is asked once for each pair of a live class and a
call. The bound that comes of this depends on the size of the graph alone, and
below it there is no difference between counting and counting in words.
-/
namespace Winnow

/-- What has a key is listed under one key at most. -/
theorem length_flatMap_filter_le {α κ : Type} [DecidableEq κ] (key : α → κ) {keys : List κ}
    (hkeys : keys.Nodup) (l : List α) :
    (keys.flatMap fun k => l.filter (key · = k)).length ≤ l.length := by
  induction keys generalizing l with
  | nil => exact Nat.zero_le _
  | cons k keys ih =>
    obtain ⟨hk, hkeys⟩ := List.nodup_cons.mp hkeys
    have hrest : (keys.flatMap fun k' => l.filter (key · = k')) =
        keys.flatMap fun k' => (l.filter (key · ≠ k)).filter (key · = k') := by
      refine List.flatMap_congr fun k' hk' => ?_
      rw [List.filter_filter]
      refine List.filter_congr fun a _ => ?_
      have hne : k' ≠ k := ne_of_mem_of_not_mem hk' hk
      by_cases ha : key a = k' <;> simp [ha, hne]
    have hsplit := List.length_eq_length_filter_add (l := l) (key · = k)
    have := ih hkeys (l.filter (key · ≠ k))
    rw [List.flatMap_cons, List.length_append, hrest]
    simp only [ne_eq, decide_not] at this ⊢
    omega

namespace Hierarchy

variable {h : Hierarchy}

/-- Every class has one row, in which no class is listed twice, nor the class itself. -/
structure Simple (h : Hierarchy) : Prop where
  functional : h.Functional
  nodup : ∀ row ∈ h.rows, (row.1 :: row.2).Nodup

theorem Simple.nodup_supertypes (hh : h.Simple) (id : NodeId) : (id :: h.supertypes id).Nodup := by
  cases hl : h.rows.lookup id with
  | none => simp [supertypes, hl]
  | some above =>
    rw [supertypes, hl]
    exact hh.nodup (id, above) ((lookup_eq_some_iff_mem hh.functional).mp hl)

theorem Simple.nodup_subtypes (hh : h.Simple) (id : NodeId) : (id :: h.subtypes id).Nodup := by
  refine List.nodup_cons.mpr ⟨fun hmem => ?_, ?_⟩
  · exact (List.nodup_cons.mp (hh.nodup_supertypes id)).1 (hh.functional.mem_subtypes.mp hmem)
  · exact hh.functional.sublist (List.filter_sublist.map _)

end Hierarchy

theorem Graph.Coherent.simple {g : Graph} (hg : g.Coherent) : g.hierarchy.Simple where
  functional := hg.functional
  nodup row hrow := by
    obtain ⟨c, _, rfl⟩ := List.mem_map.mp hrow
    have hsearch := isBreadthFirst_breadthFirst g.parents (g.nodes.map Node.id) [c.id]
    exact List.nodup_cons.mpr ⟨by simp [Graph.ancestors], hsearch.nodup.filter _⟩

namespace Liveness

variable {g : Graph} {h : Hierarchy} {l : Liveness} {e : Edge} {id : NodeId}

/-- The pairs of a live class and a call. -/
def pairs (l : Liveness) : Nat := l.live.length * l.callSites.length

theorem length_runBy_le (hh : h.Simple) (g : Graph) (l : Liveness) (id : NodeId) :
    (l.runBy g h id).length ≤ l.callSites.length := by
  have hcalls := length_flatMap_filter_le Prod.fst (hh.nodup_supertypes id) l.callSites
  calc (l.runBy g h id).length
      ≤ ((id :: h.supertypes id).flatMap l.declarationsOn).length := List.length_filterMap_le _ _
    _ = ((id :: h.supertypes id).flatMap fun r => l.callSites.filter (·.1 = r)).length := by
        simp only [List.length_flatMap, declarationsOn, List.length_map]
    _ ≤ l.callSites.length := hcalls

theorem length_runOn_le (hh : h.Simple) (g : Graph) (l : Liveness) (receiver decl : NodeId) :
    (l.runOn g h receiver decl).length ≤ l.live.length := by
  refine (List.length_filterMap_le _ _).trans ?_
  refine (((hh.nodup_subtypes receiver).filter _).subperm fun class_ hc => ?_).length_le
  simpa using (List.mem_filter.mp hc).2

theorem length_enter_le (hh : h.Simple) (id : NodeId) :
    (l.enter g h id).2.length + l.pairs ≤ (l.enter g h id).1.pairs := by
  unfold enter
  split
  next => simp
  next =>
    have := length_runBy_le hh g l id
    simp only [pairs, List.length_append, List.length_singleton, Nat.succ_mul]
    omega

theorem length_call_le (hh : h.Simple) {receiver decl : NodeId} :
    (l.call g h receiver decl).2.length + l.pairs ≤ (l.call g h receiver decl).1.pairs := by
  unfold call
  split
  next => simp
  next =>
    have := length_runOn_le hh g l receiver decl
    simp only [pairs, List.length_append, List.length_singleton, Nat.mul_add]
    omega

/-- What an edge makes run is paid by the pairs that it makes. -/
theorem length_follow_le (hh : h.Simple) :
    (l.follow g h e).2.length + l.pairs ≤ (l.follow g h e).1.pairs := by
  unfold follow
  split
  · exact length_enter_le hh _
  · split
    · exact length_call_le hh
    · simp
  · simp

/-- Live classes and calls are recorded in the same way whether anything is run for them or not. -/
theorem follow_fst : (l.follow g h e).1 = note g l e := by
  unfold follow note
  split
  · unfold enter
    split <;> rfl
  · split
    next hc =>
      unfold call
      simp only [hc, Bool.true_and, decide_eq_true_eq, ite_not]
      split <;> rfl
    next hc => simp [hc]
  · rfl

/-- The live classes and the calls are those of the graph, each listed once. -/
structure Drawn (g : Graph) (l : Liveness) : Prop where
  nodup_live : l.live.Nodup
  nodup_callSites : l.callSites.Nodup
  live : ∀ id ∈ l.live, id ∈ g.nodes.map Node.id
  callSites : ∀ call ∈ l.callSites, ∃ e ∈ g.edges, ∃ receiver,
    e.kind = .uses (.virtualCall receiver) ∧ (NodeId.class_ receiver, e.target) = call

theorem Drawn.enter (hl : l.Drawn g) (hid : id ∈ g.nodes.map Node.id) :
    (l.enter g h id).1.Drawn g := by
  unfold Liveness.enter
  split
  next => exact hl
  next hnew =>
    refine ⟨hl.nodup_live.append (List.nodup_singleton id) (List.disjoint_singleton.mpr hnew),
      hl.nodup_callSites, fun x hx => ?_, hl.callSites⟩
    rcases List.mem_append.mp hx with hx | hx
    · exact hl.live x hx
    · rwa [List.mem_singleton.mp hx]

theorem Drawn.call (hl : l.Drawn g) (he : e ∈ g.edges) {receiver : String}
    (hk : e.kind = .uses (.virtualCall receiver)) :
    (l.call g h (.class_ receiver) e.target).1.Drawn g := by
  unfold Liveness.call
  split
  next => exact hl
  next hnew =>
    refine ⟨hl.nodup_live, hl.nodup_callSites.append (List.nodup_singleton _)
      (List.disjoint_singleton.mpr hnew), hl.live, fun call hcall => ?_⟩
    rcases List.mem_append.mp hcall with hcall | hcall
    · exact hl.callSites call hcall
    · exact ⟨e, he, receiver, hk, (List.mem_singleton.mp hcall).symm⟩

theorem Drawn.follow (hl : l.Drawn g) (hg : g.Coherent) (he : e ∈ g.edges) :
    (l.follow g h e).1.Drawn g := by
  unfold Liveness.follow
  split
  next => exact hl.enter (Graph.contains_iff_mem.mp (hg.ends e he).2)
  next hk =>
    split
    · exact hl.call he hk
    · exact hl
  next => exact hl

theorem Drawn.foldl_note (hl : l.Drawn g) (hg : g.Coherent) {edges : List Edge}
    (he : ∀ e ∈ edges, e ∈ g.edges) : (edges.foldl (Liveness.note g) l).Drawn g := by
  induction edges generalizing l with
  | nil => exact hl
  | cons e edges ih =>
    obtain ⟨he, hedges⟩ := List.forall_mem_cons.mp he
    have hfirst : (Liveness.note g l e).Drawn g := follow_fst (h := {}) ▸ hl.follow hg he
    exact ih hfirst hedges

/-- The call that an edge is. -/
def callSite? (e : Edge) : Option (NodeId × NodeId) :=
  match e.kind with
  | .uses (.virtualCall receiver) => some (.class_ receiver, e.target)
  | _ => none

theorem Drawn.pairs_le (hl : l.Drawn g) : l.pairs ≤ g.nodes.length * g.edges.length := by
  have hlive : l.live.length ≤ g.nodes.length := by
    simpa using (hl.nodup_live.subperm hl.live).length_le
  have hcalls : l.callSites.length ≤ g.edges.length := by
    refine (hl.nodup_callSites.subperm fun call hcall => ?_).length_le.trans
      (List.length_filterMap_le callSite? g.edges)
    obtain ⟨e, he, receiver, hk, rfl⟩ := hl.callSites call hcall
    exact List.mem_filterMap.mpr ⟨e, he, by simp [callSite?, hk]⟩
  exact Nat.mul_le_mul hlive hcalls

end Liveness

namespace Marking

variable {g : Graph} {h : Hierarchy} {isRoot : Node → Bool} {m m' m'' : Marking} {id : NodeId}
  {j k : Nat}

def counter (m : Marking) (id : NodeId) : Nat := ((m.marks.get? id).map (·.counter)).getD 0

theorem counter_filter_le (p : Retention → Bool) (r : Option Retention) :
    ((r.filter p).map (·.counter)).getD 0 ≤ (r.map (·.counter)).getD 0 := by
  cases r with
  | none => exact Nat.le_refl _
  | some r =>
    by_cases hr : p r = true <;> simp [Option.filter, hr]

theorem counter_unmark_le (ids : List NodeId) : (m.unmark ids).counter id ≤ m.counter id := by
  rw [counter, unmark, SortedMap.get?_filter]
  exact counter_filter_le _ _

theorem counter_raised (state : KeepState) (old : Option Retention) :
    (raised state old).counter = (old.map (·.counter)).getD 0 + 1 := by
  cases old <;> rfl

theorem counter_keep (d : Demand) (id : NodeId) :
    m.counter id ≤ (keep g m d).counter id ∧ (keep g m d).counter id ≤ m.counter id + 1 := by
  unfold keep
  split
  next => omega
  next =>
    simp only [counter, SortedMap.get?_insert]
    split
    next hid => simp [hid, counter_raised]
    next => omega

/-- How many demands a node makes when it passes on what it has, dispatch aside. -/
def due (g : Graph) (id : NodeId) : Nat := 1 + (g.outgoing id).length

/-- How many demands are still to come, dispatch aside. -/
def dues (g : Graph) (m : Marking) : Nat :=
  total (fun n => room (m.marks.get? n.id) * due g n.id) g.nodes + (m.queue.map (due g)).sum

theorem dues_keep_le (d : Demand) : (keep g m d).dues g ≤ m.dues g := by
  have hroom : ∀ n ∈ g.nodes, room ((keep g m d).marks.get? n.id) * due g n.id ≤
      room (m.marks.get? n.id) * due g n.id :=
    fun n _ => Nat.mul_le_mul_right _ (room_keep_le g m d n.id)
  rcases queue_keep g m d with hq | ⟨hq, ⟨n, hn, hid⟩, hlt⟩
  · have := total_le hroom
    simp only [dues, hq]
    omega
  · have hstep : room ((keep g m d).marks.get? n.id) * due g n.id + due g n.id ≤
        room (m.marks.get? n.id) * due g n.id := by
      rw [← Nat.succ_mul, hid]
      exact Nat.mul_le_mul_right _ hlt
    have := total_add_le hroom hn hstep
    simp only [dues, hq, List.map_append, List.map_cons, List.map_nil, List.sum_append,
      List.sum_singleton, ← hid]
    omega

/-- From one marking to the other no counter has gone up by more than `k` demands beside those that
were due, and those of the pairs that were made in the meantime. -/
def Spends (g : Graph) (k : Nat) (m m' : Marking) : Prop :=
  ∀ id, m'.counter id + m'.dues g + m.liveness.pairs ≤
    m.counter id + m.dues g + m'.liveness.pairs + k

theorem Spends.refl (m : Marking) : Spends g 0 m m := fun _ => Nat.le_refl _

theorem Spends.trans (hm : Spends g j m m') (hm' : Spends g k m' m'') : Spends g (j + k) m m'' := by
  intro id
  have := hm id
  have := hm' id
  omega

theorem Spends.mono (hm : Spends g j m m') (hjk : j ≤ k) : Spends g k m m' :=
  fun id => (hm id).trans (by omega)

theorem keepAll_le (demands : List Demand) (id : NodeId) :
    (keepAll g m demands).counter id + (keepAll g m demands).dues g ≤
      m.counter id + m.dues g + demands.length := by
  induction demands generalizing m with
  | nil => exact Nat.le_refl _
  | cons d demands ih =>
    have hrest : (keepAll g m (d :: demands)).counter id + (keepAll g m (d :: demands)).dues g ≤
      (keep g m d).counter id + (keep g m d).dues g + demands.length := ih
    have := (counter_keep (g := g) (m := m) d id).2
    have := dues_keep_le (g := g) (m := m) d
    rw [List.length_cons]
    omega

theorem keepAll_spends (demands : List Demand) :
    Spends g demands.length m (keepAll g m demands) := by
  intro id
  have := keepAll_le (g := g) (m := m) demands id
  rw [liveness_keepAll]
  omega

theorem length_foldl_followEdge_le (hh : h.Simple) (edges : List Edge)
    (s : Liveness × List Demand) :
    (edges.foldl (followEdge g h) s).2.length + s.1.pairs ≤
      s.2.length + edges.length + (edges.foldl (followEdge g h) s).1.pairs := by
  induction edges generalizing s with
  | nil => simp
  | cons e edges ih =>
    have hrest := ih (followEdge g h s e)
    have hrun := Liveness.length_follow_le (g := g) (l := s.1) (e := e) hh
    have hdemand : e.demand?.toList.length ≤ 1 := by cases e.demand? <;> simp
    have hfirst : (followEdge g h s e).2.length =
        s.2.length + e.demand?.toList.length + (s.1.follow g h e).2.length := by
      simp [followEdge, Nat.add_assoc]
    have hpairs : (followEdge g h s e).1 = (s.1.follow g h e).1 := rfl
    rw [List.foldl_cons, List.length_cons]
    rw [hpairs] at hrest
    omega

theorem dues_of_perm {rest : List NodeId} (hq : m.queue.Perm (id :: rest)) (l : Liveness) :
    dues g { m with queue := rest, liveness := l } + due g id = m.dues g := by
  have := (hq.map (due g)).sum_nat
  rw [List.map_cons, List.sum_cons] at this
  simp only [dues]
  omega

/-- A turn spends nothing beside what was due. -/
theorem Step.spends (hh : h.Simple) (hs : Step g h m m') : Spends g 0 m m' := by
  intro x
  cases hs with
  | @absent id rest hq _ =>
    have := dues_of_perm (g := g) hq m.liveness
    show m.counter x + dues g { m with queue := rest } + m.liveness.pairs ≤
      m.counter x + m.dues g + m.liveness.pairs
    omega
  | @pass id rest n edges liveness demands demands' hq _ hedges hfold hdemands =>
    have hmade : demands.length + m.liveness.pairs ≤
        (ownerDemand n).length + (g.outgoing id).length + liveness.pairs := by
      have := length_foldl_followEdge_le (g := g) hh edges (m.liveness, ownerDemand n)
      rwa [hfold, hedges.length_eq] at this
    have howner : (ownerDemand n).length ≤ 1 := by cases n <;> simp [ownerDemand]
    have hdue : due g id = 1 + (g.outgoing id).length := rfl
    have hpaid := dues_of_perm (g := g) hq liveness
    have hmet := keepAll_le (g := g) (m := { m with queue := rest, liveness := liveness })
      demands' x
    rw [hdemands.length_eq] at hmet
    change _ ≤ m.counter x + _ + _ at hmet
    rw [liveness_keepAll]
    show _ + _ + _ ≤ m.counter x + m.dues g + liveness.pairs
    omega

theorem spends_of_run (hh : h.Simple) (hrun : Relation.ReflTransGen (Step g h) m m') :
    Spends g 0 m m' :=
  run_induction (P := Spends g 0 m) (fun _ _ hm hs => hm.trans (hs.spends hh)) hrun (.refl m)

theorem fst_foldl_followEdge (edges : List Edge) (s : Liveness × List Demand) :
    (edges.foldl (followEdge g h) s).1 = edges.foldl (Liveness.note g) s.1 := by
  induction edges generalizing s with
  | nil => rfl
  | cons e edges ih =>
    rw [List.foldl_cons, ih, List.foldl_cons, ← Liveness.follow_fst]
    rfl

theorem Step.drawn (hg : g.Coherent) (hm : m.liveness.Drawn g) (hs : Step g h m m') :
    m'.liveness.Drawn g := by
  cases hs with
  | absent => exact hm
  | @pass id rest n edges liveness demands demands' _ _ hedges hfold _ =>
    have hlive := fst_foldl_followEdge (g := g) (h := h) edges (m.liveness, ownerDemand n)
    rw [hfold] at hlive
    rw [liveness_keepAll]
    show liveness.Drawn g
    rw [show liveness = _ from hlive]
    exact hm.foldl_note hg fun e he => (Graph.mem_outgoing.mp (hedges.mem_iff.mp he)).1

theorem drawn_of_run (hg : g.Coherent) (hrun : Relation.ReflTransGen (Step g h) m m')
    (hm : m.liveness.Drawn g) : m'.liveness.Drawn g :=
  run_induction (P := fun k => k.liveness.Drawn g) (fun _ _ hk hs => hs.drawn hg hk) hrun hm

/-- Each node passes on what it has at most twice. -/
theorem total_room_le (nodes : List Node) :
    total (fun n => room (m.marks.get? n.id) * due g n.id) nodes ≤
      2 * (nodes.length + ((nodes.map Node.id).flatMap g.outgoing).length) := by
  induction nodes with
  | nil => exact Nat.le_refl _
  | cons n nodes ih =>
    have hroom : room (m.marks.get? n.id) ≤ 2 := by
      unfold room
      split
      · exact Nat.le_refl _
      · split <;> omega
    have hfirst := Nat.mul_le_mul_right (due g n.id) hroom
    have hdue : due g n.id = 1 + (g.outgoing n.id).length := rfl
    simp only [total, List.map_cons, List.flatMap_cons, List.length_append, List.length_cons]
    omega

theorem dues_le (hg : g.Coherent) (hq : m.queue = []) :
    m.dues g ≤ 2 * (g.nodes.length + g.edges.length) := by
  have hedges : ((g.nodes.map Node.id).flatMap g.outgoing).length ≤ g.edges.length :=
    length_flatMap_filter_le Edge.source hg.distinct g.edges
  have := total_room_le (m := m) (g := g) g.nodes
  simp only [dues, hq, List.map_nil, List.sum_nil]
  omega

end Marking

/-- More demands than this are never made for one node. -/
def Graph.demandBound (g : Graph) : Nat :=
  4 * g.nodes.length + 2 * g.edges.length + g.nodes.length * g.edges.length

namespace Marking

variable {g : Graph} {h : Hierarchy} {isRoot : Node → Bool} {m m' : Marking} {id : NodeId}

section Seed

theorem bringToLife_spends (hh : h.Simple) (class_ : NodeId) :
    Spends g 0 m (bringToLife g h m class_) := by
  intro x
  have hrun := Liveness.length_enter_le (g := g) (l := m.liveness) hh class_
  have hmet : (bringToLife g h m class_).counter x + (bringToLife g h m class_).dues g ≤
      m.counter x + m.dues g + _ := keepAll_le _ x
  rw [List.length_map] at hmet
  rw [liveness_bringToLife]
  omega

theorem seedNode_spends (hh : h.Simple) (n : Node) : Spends g 2 m (seedNode g h isRoot m n) := by
  have hplace : Spends g 1 m (seedPlaceholder g m n) := by
    unfold seedPlaceholder
    split
    · exact keepAll_spends [_]
    · exact (Spends.refl m).mono (Nat.zero_le 1)
  have hroot : Spends g 2 m (seedRoot g (seedPlaceholder g m n) n) :=
    hplace.trans (keepAll_spends (m := { seedPlaceholder g m n with
      roots := (seedPlaceholder g m n).roots.insert n.id }) [⟨n.id, .full⟩])
  rw [seedNode_eq]
  split
  · cases n with
    | member k => exact hroot
    | class_ c => exact hroot.trans (bringToLife_spends hh _)
  · exact hplace.mono (Nat.le_succ 1)

theorem foldl_seedNode_spends (hh : h.Simple) (nodes : List Node) :
    Spends g (2 * nodes.length) m (nodes.foldl (seedNode g h isRoot) m) := by
  induction nodes generalizing m with
  | nil => exact .refl m
  | cons n nodes ih =>
    refine ((seedNode_spends hh n).trans ih).mono ?_
    rw [List.length_cons]
    omega

theorem drawn_seedNode {n : Node} (hn : n ∈ g.nodes) (hm : m.liveness.Drawn g) :
    (seedNode g h isRoot m n).liveness.Drawn g := by
  have hplace : (seedPlaceholder g m n).liveness = m.liveness := by
    unfold seedPlaceholder
    split
    · exact liveness_keep
    · rfl
  have hroot : (seedRoot g (seedPlaceholder g m n) n).liveness = m.liveness :=
    liveness_keep.trans hplace
  rw [seedNode_eq]
  split
  · cases n with
    | member k => rwa [hroot]
    | class_ c =>
      rw [liveness_bringToLife, hroot]
      exact hm.enter (List.mem_map_of_mem hn)
  · rwa [hplace]

theorem drawn_foldl_seedNode {nodes : List Node} (hn : ∀ n ∈ nodes, n ∈ g.nodes)
    (hm : m.liveness.Drawn g) : (nodes.foldl (seedNode g h isRoot) m).liveness.Drawn g := by
  induction nodes generalizing m with
  | nil => exact hm
  | cons n nodes ih =>
    obtain ⟨hn, hnodes⟩ := List.forall_mem_cons.mp hn
    exact ih hnodes (drawn_seedNode hn hm)

/-- At no time of a run, in whatever order it goes, is a counter higher than the bound. -/
theorem counter_le_of_seedIn_run (hg : g.Coherent) (hh : h.Simple) {nodes : List Node}
    (hn : nodes.Perm g.nodes)
    (hrun : Relation.ReflTransGen (Step g h) (seedIn g h isRoot nodes) m) :
    m.counter id ≤ g.demandBound := by
  have hseed : Spends g (2 * nodes.length) {} (seedIn g h isRoot nodes) :=
    foldl_seedNode_spends hh nodes
  have hspent := hseed.trans (spends_of_run hh hrun) id
  have hempty : ({} : Marking).counter id = 0 := rfl
  have hdues : ({} : Marking).dues g ≤ _ := dues_le hg rfl
  have hpairs : m.liveness.pairs ≤ _ := Liveness.Drawn.pairs_le <| drawn_of_run hg hrun <|
    drawn_foldl_seedNode (fun n hmem => hn.mem_iff.mp hmem) ⟨.nil, .nil, nofun, nofun⟩
  rw [hn.length_eq, hempty] at hspent
  unfold Graph.demandBound
  omega

/-- The counters of a marking from nothing. -/
theorem counter_mark_le (hg : g.Coherent) (hh : h.Simple) :
    (g.mark h isRoot).counter id ≤ g.demandBound := by
  have hrun : (drain g h (seed g h isRoot)).counter id ≤ g.demandBound :=
    counter_le_of_seedIn_run hg hh (.refl _) (drain_run _)
  refine Nat.le_trans ?_ hrun
  rw [CounterTable.counter, Graph.mark, table, SortedMap.get?_filter]
  exact counter_filter_le _ _

end Seed

section Remark

variable {α : Type} {deleted : List NodeId} {delta : EdgeDelta}

theorem demandEach_spends {f : Marking → α → List Demand} (cost : α → Nat) (l : List α)
    (hf : ∀ m, ∀ a ∈ l, (f m a).length ≤ cost a) :
    Spends g (l.map cost).sum m (demandEach g f m l) := by
  induction l generalizing m with
  | nil => exact .refl m
  | cons a l ih =>
    obtain ⟨ha, hl⟩ := List.forall_mem_cons.mp fun b hb m => hf m b hb
    exact ((keepAll_spends _).trans (ih fun m b hb => hl b hb m)).mono
      (Nat.add_le_add_right (ha m) _)

theorem length_support_le (m : Marking) (id : NodeId) :
    (support g m id).length ≤ (g.incoming id).length + 1 := by
  have hedges : (((g.incoming id).filter fun e => m.isMarked e.source).filterMap
      Edge.demand?).length ≤ (g.incoming id).length :=
    (List.length_filterMap_le _ _).trans (List.length_filter_le _ _)
  unfold support
  rw [List.length_append]
  refine Nat.add_le_add hedges ?_
  split
  · split <;> simp
  · simp

/-- Each edge supports at most one of the deleted nodes. -/
theorem sum_incoming_le (hd : deleted.Nodup) :
    (deleted.map fun id => (g.incoming id).length + 1).sum ≤ g.edges.length + deleted.length := by
  have hedges : (deleted.flatMap g.incoming).length ≤ g.edges.length :=
    length_flatMap_filter_le Edge.target hd g.edges
  have hsum : ∀ l : List NodeId, (l.map fun id => (g.incoming id).length + 1).sum =
      (l.flatMap g.incoming).length + l.length := by
    intro l
    induction l with
    | nil => rfl
    | cons id l ih =>
      simp only [List.map_cons, List.sum_cons, List.flatMap_cons, List.length_append,
        List.length_cons, ih]
      omega
  rw [hsum]
  omega

theorem length_dispatched_le (hh : h.Simple) (l : Liveness) :
    (dispatched g h l).length ≤ l.pairs := by
  have : ∀ calls : List (NodeId × NodeId),
      (calls.flatMap fun call => l.runOn g h call.1 call.2).length ≤
        l.live.length * calls.length := by
    intro calls
    induction calls with
    | nil => simp
    | cons call calls ih =>
      have := Liveness.length_runOn_le hh g l call.1 call.2
      rw [List.flatMap_cons, List.length_append, List.length_cons, Nat.mul_succ]
      omega
  exact this l.callSites

theorem restarted_spends (hh : h.Simple) (hd : deleted.Nodup) (added : List Edge) :
    Spends g (g.edges.length + deleted.length + added.length + g.nodes.length +
      (refreshed g m).liveness.pairs) (refreshed g m) (restarted g h m deleted added) := by
  have hsupport : Spends g (g.edges.length + deleted.length) (refreshed g m)
      (demandEach g (support g) (refreshed g m) deleted) :=
    (demandEach_spends _ deleted fun m id _ => length_support_le m id).mono (sum_incoming_le hd)
  have hadded : Spends g added.length (demandEach g (support g) (refreshed g m) deleted)
      (demandEach g addedDemand (demandEach g (support g) (refreshed g m) deleted) added) := by
    refine (demandEach_spends (fun _ => 1) added fun m e _ => ?_).mono (by simp)
    unfold addedDemand
    split
    · cases e.demand? <;> simp
    · simp
  have hplaces : ∀ m : Marking, Spends g g.nodes.length m
      (m.keepAll g ((m.newPlaceholders g).map (⟨·, .shell⟩))) := by
    intro m
    refine (keepAll_spends _).mono ?_
    rw [List.length_map]
    refine (List.length_filter_le _ _).trans ?_
    rw [List.length_map]
    exact List.length_filter_le _ _
  have hsupported : Spends g (g.edges.length + deleted.length + added.length + g.nodes.length)
      (refreshed g m) (supported g m deleted added) := (hsupport.trans hadded).trans (hplaces _)
  refine hsupported.trans ((demandEach_spends (fun _ => 1) _ fun m id _ => ?_).mono ?_)
  · unfold dispatchDemand
    split <;> simp
  · rw [(demands_supported m deleted added).liveness]
    simpa using length_dispatched_le hh _

theorem nodup_overDeleted (m : Marking) (removed : List Edge) :
    (overDeleted g h m removed).Nodup := (isBreadthFirst_breadthFirst _ _ _).nodup

theorem length_overDeleted_le (m : Marking) (removed : List Edge) :
    (overDeleted g h m removed).length ≤ g.nodes.length := by
  have hnodes : ∀ id ∈ overDeleted g h m removed, id ∈ g.nodes.map Node.id := by
    intro id hid
    exact Graph.contains_iff_mem.mp
      (Graph.contains_of_core (isDeletable_iff.mp (mem_overDeleted hid).2).2)
  simpa using ((nodup_overDeleted m removed).subperm hnodes).length_le

theorem drawn_ofKept (hg : g.Coherent) {roots kept : List NodeId} (hr : roots.Nodup) :
    (Liveness.ofKept g roots kept).Drawn g := by
  have hroots : Liveness.Drawn g
      { live := roots.filter fun id => ((g.node? id).bind Node.class?).isSome } := by
    refine ⟨hr.filter _, .nil, fun id hid => ?_, nofun⟩
    have hclass := (List.mem_filter.mp hid).2
    refine Graph.contains_iff_mem.mp (Graph.contains_iff_node?.mpr ?_)
    cases hn : g.node? id with
    | none => simp [hn] at hclass
    | some n => exact ⟨n, rfl⟩
  exact hroots.foldl_note hg fun e he => (Liveness.mem_keptEdges.mp he).1

/-- Marking again does not make a counter higher by more than the bound and the edges. -/
theorem counter_remark_le (hg : g.Coherent) (hh : h.Simple) (hq : m.queue = []) :
    (remark g h m delta).1.counter id ≤
      m.counter id + g.demandBound + g.edges.length + delta.added.length := by
  rw [remark_fst, rederive_eq]
  generalize hdeleted : overDeleted g h (surviving delta m) delta.removed = deleted
  generalize hleft : (surviving delta m).unmark deleted = left
  have hrun := drain_run (g := g) (h := h) (restarted g h left deleted delta.added)
  have hspent := (restarted_spends hh (hdeleted ▸ nodup_overDeleted _ _) delta.added).trans
    (spends_of_run hh hrun) id
  have hcounter : (refreshed g left).counter id ≤ m.counter id := by
    rw [← hleft]
    exact (counter_unmark_le deleted).trans (counter_unmark_le (m := m) delta.dropped)
  have hdues : (refreshed g left).dues g ≤ _ := dues_le hg (by rw [← hleft]; exact hq)
  have hlength : deleted.length ≤ g.nodes.length := hdeleted ▸ length_overDeleted_le _ _
  have hdrawn : (refreshed g left).liveness.Drawn g := drawn_ofKept hg left.roots.nodup_toList
  have hpairs : (drain g h (restarted g h left deleted delta.added)).liveness.pairs ≤
      g.nodes.length * g.edges.length := by
    refine Liveness.Drawn.pairs_le (drawn_of_run hg hrun ?_)
    rwa [(demands_restarted left deleted delta.added).liveness]
  unfold Graph.demandBound
  omega

end Remark

section Words

/-- One more demand, counted in a word of 32 bits. -/
def raisedWord (state : KeepState) : Option Retention → Retention
  | none => ⟨1, state⟩
  | some r => ⟨(UInt32.ofNat r.counter + 1).toNat, if state = .full then .full else r.state⟩

/-- One more reason to keep a node, with counters that are words. -/
def keepWord (g : Graph) (m : Marking) (d : Demand) : Marking :=
  match g.node? d.id with
  | none => m
  | some n => { keep g m d with
      marks := m.marks.insert d.id (raisedWord (effectiveState n d.state) (m.marks.get? d.id)) }

theorem raisedWord_eq {state : KeepState} {old : Option Retention}
    (hold : (raised state old).counter < UInt32.size) :
    raisedWord state old = raised state old := by
  cases old with
  | none => rfl
  | some r =>
    have hr : r.counter + 1 < 2 ^ 32 := hold
    have hword : (UInt32.ofNat r.counter + 1).toNat = r.counter + 1 := by
      rw [UInt32.toNat_add, UInt32.toNat_ofNat', Nat.mod_eq_of_lt (Nat.lt_of_succ_lt hr)]
      exact Nat.mod_eq_of_lt hr
    rw [raisedWord, raised, hword]

theorem keepWord_eq {d : Demand} (hm : (keep g m d).counter d.id < UInt32.size) :
    keepWord g m d = keep g m d := by
  unfold keepWord
  split
  next hn => simp [keep, hn]
  next n hn =>
    simp only [keep, hn, counter, SortedMap.get?_insert_self, Option.map_some, Option.getD_some]
      at hm ⊢
    rw [raisedWord_eq hm]

theorem counter_le_keepAll (demands : List Demand) :
    m.counter id ≤ (keepAll g m demands).counter id := by
  induction demands generalizing m with
  | nil => exact Nat.le_refl _
  | cons d demands ih => exact (counter_keep d id).1.trans ih

/-- As long as the counters that come of it are words, counting in words is no different. -/
theorem foldl_keepWord_eq {demands : List Demand}
    (hm : ∀ id, (keepAll g m demands).counter id < UInt32.size) :
    demands.foldl (keepWord g) m = keepAll g m demands := by
  induction demands generalizing m with
  | nil => rfl
  | cons d demands ih =>
    have hfirst : keepWord g m d = keep g m d :=
      keepWord_eq (Nat.lt_of_le_of_lt (counter_le_keepAll demands) (hm d.id))
    rw [List.foldl_cons, hfirst]
    exact ih hm

/-- On a graph of such a size it is no different for the demands of any turn of a run. -/
theorem foldl_keepWord_eq_of_seedIn_run (hg : g.Coherent) (hh : h.Simple)
    (hsmall : g.demandBound < UInt32.size) {nodes : List Node} (hn : nodes.Perm g.nodes)
    {demands : List Demand} (hrun : Relation.ReflTransGen (Step g h) (seedIn g h isRoot nodes)
      (keepAll g m demands)) :
    demands.foldl (keepWord g) m = keepAll g m demands :=
  foldl_keepWord_eq fun _ =>
    Nat.lt_of_le_of_lt (counter_le_of_seedIn_run hg hh hn hrun) hsmall

end Words

end Marking

end Winnow
