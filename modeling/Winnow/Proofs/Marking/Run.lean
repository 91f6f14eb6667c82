import Mathlib.Logic.Relation
import Winnow.Proofs.Marking.Dispatch

/-!
# What a run of marking comes to

While marking runs, every marked node either still waits or has passed on all
that it has to; nothing is marked that some closed assignment does without. The
first makes the marking closed once nothing waits, the second makes it least.
Neither depends on the order in which nodes, edges and demands are taken up.
-/
namespace Winnow

namespace Marking

variable {g : Graph} {h : Hierarchy} {isRoot : Node → Bool} {A : Assignment} {m m' : Marking}

theorem has_of_le {id : NodeId} {s t : KeepState} (hst : s ≤ t) (ht : m.has id t) : m.has id s := by
  obtain ⟨r, hr, hle⟩ := ht
  exact ⟨r, hr, KeepState.le_trans hst hle⟩

theorem le_state_raised {s state : KeepState} {old : Option Retention} :
    s ≤ (raised state old).state ↔ (∃ r, old = some r ∧ s ≤ r.state) ∨ s ≤ state := by
  cases old with
  | none => simp [raised]
  | some r => cases s <;> cases state <;> simp [raised]

/-- What one more demand adds to the marks: the node, if there is one, to the extent asked for. -/
theorem has_keep_iff {d : Demand} {id : NodeId} {s : KeepState} :
    (keep g m d).has id s ↔
      m.has id s ∨ d.id = id ∧ ∃ n, g.node? id = some n ∧ s ≤ effectiveState n d.state := by
  unfold keep
  split
  next hn =>
    refine ⟨.inl, fun hk => hk.resolve_right ?_⟩
    rintro ⟨rfl, n, hn', _⟩
    simp [hn] at hn'
  next n hn =>
    simp only [has, SortedMap.get?_insert]
    by_cases hid : id = d.id
    · subst hid
      simp [hn, le_state_raised]
    · simp [hid, Ne.symm hid]

theorem has_keepAll_iff {demands : List Demand} {id : NodeId} {s : KeepState} :
    (keepAll g m demands).has id s ↔ m.has id s ∨
      ∃ d ∈ demands, d.id = id ∧ ∃ n, g.node? id = some n ∧ s ≤ effectiveState n d.state := by
  induction demands generalizing m with
  | nil => simp [keepAll]
  | cons d demands ih =>
    rw [keepAll, List.foldl_cons, ← keepAll, ih, has_keep_iff, or_assoc]
    simp only [List.mem_cons, exists_eq_or_imp]

@[simp] theorem roots_keep {d : Demand} : (keep g m d).roots = m.roots := by
  unfold keep
  split <;> rfl

@[simp] theorem liveness_keep {d : Demand} : (keep g m d).liveness = m.liveness := by
  unfold keep
  split <;> rfl

@[simp] theorem roots_keepAll {demands : List Demand} : (keepAll g m demands).roots = m.roots := by
  induction demands generalizing m with
  | nil => rfl
  | cons d demands ih => exact ih.trans roots_keep

@[simp] theorem liveness_keepAll {demands : List Demand} :
    (keepAll g m demands).liveness = m.liveness := by
  induction demands generalizing m with
  | nil => rfl
  | cons d demands ih => exact ih.trans liveness_keep

/-- Marking has gone on: what waited still does, what is newly marked waits, and what waits is
marked if it was so before. -/
structure Grows (m m' : Marking) : Prop where
  has : ∀ id s, m.has id s → m'.has id s
  fresh : ∀ id s, m'.has id s → m.has id s ∨ id ∈ m'.queue
  waits : ∀ id ∈ m.queue, id ∈ m'.queue
  queued : ∀ id ∈ m'.queue, id ∈ m.queue ∨ m'.has id .shell

theorem Grows.refl (m : Marking) : m.Grows m :=
  ⟨fun _ _ hm => hm, fun _ _ hm => .inl hm, fun _ hq => hq, fun _ hq => .inl hq⟩

theorem Grows.trans {m'' : Marking} (hm : m.Grows m') (hm' : m'.Grows m'') : m.Grows m'' where
  has id s hs := hm'.has id s (hm.has id s hs)
  fresh id s hs := (hm'.fresh id s hs).elim
    (fun hs => (hm.fresh id s hs).imp_right (hm'.waits id)) .inr
  waits id hq := hm'.waits id (hm.waits id hq)
  queued id hq := (hm'.queued id hq).elim
    (fun hq => (hm.queued id hq).imp_right (hm'.has id .shell)) .inr

theorem keep_grows (d : Demand) : m.Grows (keep g m d) := by
  refine ⟨fun id s hs => has_keep_iff.mpr (.inl hs), ?_, ?_, ?_⟩
  · intro id s hs
    rcases has_keep_iff.mp hs with hs | ⟨rfl, n, hn, hle⟩
    · exact .inl hs
    · -- A demand that is no news was met before.
      unfold keep
      simp only [hn]
      cases hnews : isNews (effectiveState n d.state) (m.marks.get? d.id) with
      | true => right; simp
      | false =>
        left
        cases hold : m.marks.get? d.id with
        | none => simp [hold, isNews] at hnews
        | some r =>
          refine ⟨r, hold, KeepState.le_trans hle ?_⟩
          revert hnews
          rw [hold]
          cases effectiveState n d.state <;> cases hr : r.state <;> simp [isNews, hr]
  · intro id hq
    unfold keep
    split
    · exact hq
    · dsimp only
      split
      · exact List.mem_append_left _ hq
      · exact hq
  · intro id hq
    rw [has_keep_iff]
    unfold keep at hq
    split at hq
    next => exact .inl hq
    next n hn =>
      dsimp only at hq
      split at hq
      · rcases List.mem_append.mp hq with hq | hq
        · exact .inl hq
        · obtain rfl : id = d.id := by simpa using hq
          exact .inr (.inr ⟨rfl, n, hn, KeepState.shell_le _⟩)
      · exact .inl hq

theorem keepAll_grows (demands : List Demand) : m.Grows (keepAll g m demands) := by
  induction demands generalizing m with
  | nil => exact .refl m
  | cons d demands ih => exact (keep_grows d).trans ih

/-- Marks are on nodes of the graph, count at least one reason, and are full on members. -/
def Proper (g : Graph) (m : Marking) : Prop :=
  ∀ id r, m.marks.get? id = some r →
    r.isKept = true ∧ ∃ n, g.node? id = some n ∧ effectiveState n r.state = r.state

theorem effectiveState_idem (n : Node) (s : KeepState) :
    effectiveState n (effectiveState n s) = effectiveState n s := by
  cases n <;> rfl

theorem le_effectiveState (n : Node) (s : KeepState) : s ≤ effectiveState n s := by
  cases n <;> simp [effectiveState]

theorem Proper.keep (hm : m.Proper g) (d : Demand) : (keep g m d).Proper g := by
  unfold Marking.keep
  split
  next => exact hm
  next n hn =>
    intro id r hr
    rw [SortedMap.get?_insert] at hr
    split at hr
    next hid =>
      subst hid
      obtain rfl : raised (effectiveState n d.state) (m.marks.get? d.id) = r := by simpa using hr
      cases hold : m.marks.get? d.id with
      | none => exact ⟨by simp [raised, Retention.isKept], n, hn, effectiveState_idem n d.state⟩
      | some old =>
        obtain ⟨_, n', hn', he⟩ := hm _ _ hold
        obtain rfl : n' = n := by simpa [hn] using hn'.symm
        refine ⟨by simp [raised, Retention.isKept], n', hn, ?_⟩
        simp only [raised]
        split
        · cases n' <;> rfl
        · exact he
    next => exact hm id r hr

theorem Proper.keepAll (hm : m.Proper g) (demands : List Demand) : (keepAll g m demands).Proper g := by
  induction demands generalizing m with
  | nil => exact hm
  | cons d demands ih => exact ih (hm.keep d)

/-- The demand is met, as far as there is a node for it. -/
def Meets (g : Graph) (m : Marking) (d : Demand) : Prop :=
  ∀ n, g.node? d.id = some n → m.has d.id (effectiveState n d.state)

theorem keepAll_meets {demands : List Demand} {d : Demand} (hd : d ∈ demands) :
    (keepAll g m demands).Meets g d := by
  intro n hn
  exact has_keepAll_iff.mpr (.inr ⟨d, hd, rfl, n, hn, KeepState.le_refl _⟩)

theorem Meets.has_of_contains {d : Demand} (hm : m.Meets g d) (hd : g.contains d.id = true) :
    m.has d.id d.state := by
  obtain ⟨n, hn⟩ := Graph.contains_iff_node?.mp hd
  exact has_of_le (le_effectiveState n d.state) (hm n hn)

/-- A node has passed on all that it has to. -/
structure Settled (g : Graph) (m : Marking) (id : NodeId) : Prop where
  owner : ∀ n, g.node? id = some n → ∀ d ∈ ownerDemand n, m.Meets g d
  edges : ∀ e ∈ g.edges, e.source = id → ∀ d, e.demand? = some d → m.Meets g d
  known : ∀ e ∈ g.edges, e.source = id → m.liveness.Knows g e

theorem Settled.mono {id : NodeId} (hs : m.Settled g id)
    (hm : ∀ id s, m.has id s → m'.has id s) (hl : m.liveness.Extends m'.liveness) :
    m'.Settled g id where
  owner n hn d hd k hk := hm _ _ (hs.owner n hn d hd k hk)
  edges e he hid d hd k hk := hm _ _ (hs.edges e he hid d hd k hk)
  known e he hid := (hs.known e he hid).extend hl

/-- What holds of a marking at any time. -/
structure Progress (g : Graph) (h : Hierarchy) (m : Marking) : Prop where
  proper : m.Proper g
  queued : ∀ id ∈ m.queue, m.has id .shell
  settled : ∀ id, m.has id .shell → id ∈ m.queue ∨ m.Settled g id
  dispatched : m.liveness.RunsOnly g h (m.has · .full)

theorem progress_empty : Progress g h {} where
  proper id r hr := by simp at hr
  queued id hq := by cases hq
  settled id hs := by
    obtain ⟨r, hr, _⟩ := hs
    simp at hr
  dispatched c hc := by cases hc

/-- Marking goes on with more known of dispatch, part of the queue taken up, and demands that
include all that the new knowledge makes run. -/
theorem Progress.keepAll (hp : Progress g h m) {l : Liveness} {queue : List NodeId}
    (demands : List Demand) (hl : m.liveness.Extends l) (hsub : ∀ id ∈ queue, id ∈ m.queue)
    (hqueue : ∀ id ∈ m.queue, id ∈ queue ∨
      (keepAll g { m with queue := queue, liveness := l } demands).Settled g id)
    (hrun : ∀ P : NodeId → Prop, m.liveness.RunsOnly g h P →
      (∀ id, ⟨id, .full⟩ ∈ demands → P id) → l.RunsOnly g h P) :
    Progress g h (keepAll g { m with queue := queue, liveness := l } demands) := by
  have hg := keepAll_grows (g := g) (m := { m with queue := queue, liveness := l }) demands
  refine ⟨Proper.keepAll (m := { m with queue := queue, liveness := l }) hp.proper demands,
    ?_, ?_, ?_⟩
  · intro id hq
    rcases hg.queued id hq with hq | hq
    · exact hg.has id .shell (hp.queued id (hsub id hq))
    · exact hq
  · intro id hs
    rcases hg.fresh id .shell hs with hs | hq
    · rcases hp.settled id hs with hq | hs
      · exact (hqueue id hq).imp_left (hg.waits id)
      · exact .inr (hs.mono hg.has (by simpa using hl))
    · exact .inl hq
  · -- What runs is a node, so a demand for it is met in full.
    rw [liveness_keepAll]
    have hP := hrun (fun id => g.contains id = true → (Marking.keepAll g _ demands).has id .full)
      (hp.dispatched.mono fun id hid _ => hg.has id .full hid)
      (fun id hid hc => (keepAll_meets hid).has_of_contains hc)
    intro c hc receiver decl hd hs id hid
    refine hP c hc receiver decl hd hs id hid ?_
    obtain ⟨k, _, hk⟩ := Option.bind_eq_some_iff.mp hid
    exact Graph.contains_of_implementation hk

/-- A step keeps the invariant: the node taken up has then passed on all that it has to. -/
theorem Progress.step (hf : h.Functional) (hp : Progress g h m) (hs : Step g h m m') :
    Progress g h m' := by
  cases hs with
  | @absent id rest hq hn =>
    refine ⟨hp.proper, fun x hx => hp.queued x (hq.mem_iff.mpr (List.mem_cons_of_mem id hx)),
      fun x hx => ?_, hp.dispatched⟩
    rcases hp.settled x hx with hx' | hx'
    · rcases List.mem_cons.mp (hq.mem_iff.mp hx') with rfl | hx'
      · -- Only nodes of the graph are marked.
        obtain ⟨r, hr, _⟩ := hx
        obtain ⟨_, n, hn', _⟩ := hp.proper x r hr
        simp [hn] at hn'
      · exact .inl hx'
    · exact .inr ⟨hx'.owner, hx'.edges, hx'.known⟩
  | @pass id rest n edges liveness demands demands' hq hn he hfold hd =>
    have hfol := followed_foldl (g := g) hf edges (m.liveness, ownerDemand n)
    rw [hfold] at hfol
    have hmem : ∀ e ∈ g.edges, e.source = id → e ∈ edges := fun e heg hid =>
      he.mem_iff.mpr (Graph.mem_outgoing.mpr ⟨heg, hid⟩)
    refine hp.keepAll demands' hfol.extend
      (fun x hx => hq.mem_iff.mpr (List.mem_cons_of_mem id hx)) (fun x hx => ?_)
      (fun P hP hdem => hfol.runsOnly P hP fun x hx => hdem x (hd.mem_iff.mpr hx))
    rcases List.mem_cons.mp (hq.mem_iff.mp hx) with rfl | hx
    · refine .inr ⟨fun n' hn' d hd' => ?_, fun e heg hid d hd' => ?_, fun e heg hid => ?_⟩
      · obtain rfl : n = n' := by simpa [hn] using hn'
        exact keepAll_meets (hd.mem_iff.mpr (hfol.earlier d hd'))
      · exact keepAll_meets (hd.mem_iff.mpr (hfol.demanded e (hmem e heg hid) d hd'))
      · simpa using hfol.known e (hmem e heg hid)
    · exact .inl hx

/-- Nothing is marked that the assignment does not keep. -/
def Below (m : Marking) (A : Assignment) : Prop :=
  (∀ id s, m.has id s → A.keeps id s) ∧ m.liveness.Within A

theorem Below.keepAll (hA : A.Closed g h isRoot) (hm : ∀ id s, m.has id s → A.keeps id s)
    (demands : List Demand) (hd : ∀ d ∈ demands, A.keeps d.id d.state) :
    ∀ id s, (keepAll g m demands).has id s → A.keeps id s := by
  intro id s hs
  rcases has_keepAll_iff.mp hs with hs | ⟨d, hmem, rfl, n, hn, hle⟩
  · exact hm id s hs
  · exact hA.keeps_of_le hle (hA.keeps_effective hn (hd d hmem))

theorem Below.step (hf : h.Functional) (hA : A.Closed g h isRoot) (hp : Progress g h m)
    (hm : m.Below A) (hs : Step g h m m') : m'.Below A := by
  cases hs with
  | absent _ _ => exact hm
  | @pass id rest n edges liveness demands demands' hq hn he hfold hd =>
    have hid : A.keeps id .shell := hm.1 id .shell (hp.queued id (hq.mem_iff.mpr List.mem_cons_self))
    -- The owner of a member is asked for by the rules as well.
    have howner : ∀ d ∈ ownerDemand n, A.keeps d.id d.state := by
      intro d hd
      cases n with
      | class_ c => cases hd
      | member k =>
        obtain rfl : d = ⟨.class_ k.id.className, .shell⟩ := by simpa [ownerDemand] using hd
        refine hA.owner k (Graph.mem_of_node? hn) ?_
        have hk : k.id = id := Graph.id_of_node? hn
        rwa [hk]
    have hedges : ∀ e ∈ edges, e ∈ g.edges ∧ A.keeps e.source .shell := by
      intro e hmem
      obtain ⟨heg, rfl⟩ := Graph.mem_outgoing.mp (he.mem_iff.mp hmem)
      exact ⟨heg, hid⟩
    have hfol := foldl_followEdge_within hf hA (s := (m.liveness, ownerDemand n)) hm.2 howner hedges
    rw [hfold] at hfol
    refine ⟨Below.keepAll hA (m := { m with queue := rest, liveness := liveness }) hm.1 demands'
      fun d hmem => hfol.2 d (hd.mem_iff.mp hmem), ?_⟩
    simpa using hfol.1

@[simp] theorem roots_step (hs : Step g h m m') : m'.roots = m.roots := by
  cases hs <;> simp

/-- The roots and placeholders are marked, and classes that are roots are alive. -/
structure Rooted (g : Graph) (isRoot : Node → Bool) (m : Marking) : Prop where
  unresolved : ∀ n ∈ g.nodes, isUnresolved n = true → m.has n.id .shell
  root : ∀ n ∈ g.nodes, inProgram g n = true → isRoot n = true → m.has n.id .full
  live : ∀ c, Node.class_ c ∈ g.nodes → inProgram g (.class_ c) = true →
    isRoot (.class_ c) = true → c.id ∈ m.liveness.live

/-- Once nothing waits, no rule asks for more. -/
theorem Progress.closed (hg : g.WellFormed) (hp : Progress g h m) (hr : m.Rooted g isRoot)
    (hq : m.queue = []) : m.assignment.Closed g h isRoot := by
  have hset : ∀ id, m.has id .shell → m.Settled g id := fun id hs =>
    (hp.settled id hs).resolve_left (by simp [hq])
  refine ⟨fun id hs => has_of_le (KeepState.shell_le _) hs, ?_, hr.unresolved, hr.root, hr.live,
    ?_, ?_, ?_, ?_, hp.dispatched⟩
  · intro k hk hs
    obtain ⟨r, hget, _⟩ := hs
    obtain ⟨_, n, hn, he⟩ := hp.proper _ _ hget
    have hk : g.node? k.id = some (.member k) := hg.node?_of_mem hk
    obtain rfl : Node.member k = n := by simpa [hk] using hn
    exact ⟨r, hget, by simp [← he, effectiveState]⟩
  · intro k hk hs
    exact ((hset _ hs).owner _ (hg.node?_of_mem hk) ⟨.class_ k.id.className, .shell⟩
      (by simp [ownerDemand])).has_of_contains (hg.owned k hk).2
  · intro e he hs d hd
    refine ((hset _ hs).edges e he rfl d hd).has_of_contains ?_
    obtain ⟨s, _, rfl⟩ := Option.map_eq_some_iff.mp hd
    exact (hg.ends e he).2
  · intro e he hs hk
    exact ((hset _ hs).known e he rfl).1 hk
  · intro e he hs receiver hk hc
    exact ((hset _ hs).known e he rfl).2 receiver hk hc

section Seed

theorem Progress.keep (hp : Progress g h m) (d : Demand) : Progress g h (keep g m d) :=
  hp.keepAll [d] (.refl _) (fun _ hq => hq) (fun _ hq => .inl hq)
    (fun _ hP _ => hP)

theorem Progress.withRoots (hp : Progress g h m) (roots : SortedSet NodeId) :
    Progress g h { m with roots := roots } where
  proper := hp.proper
  queued := hp.queued
  settled id hs := (hp.settled id hs).imp_right fun hs => ⟨hs.owner, hs.edges, hs.known⟩
  dispatched := hp.dispatched

/-- A class comes to life, and all that this makes run is kept. -/
def bringToLife (g : Graph) (h : Hierarchy) (m : Marking) (class_ : NodeId) : Marking :=
  Marking.keepAll g { m with liveness := (m.liveness.enter g h class_).1 }
    ((m.liveness.enter g h class_).2.map (⟨·, .full⟩))

theorem Progress.bringToLife (hp : Progress g h m) (class_ : NodeId) :
    Progress g h (bringToLife g h m class_) := by
  refine hp.keepAll _ Liveness.enter_extends (fun _ hq => hq) (fun _ hq => .inl hq) ?_
  intro P hP hdem
  refine Liveness.enter_runsOnly hP fun id hid => hdem id ?_
  exact List.mem_map_of_mem hid

/-- The marks, and what is known of dispatch, only become more. -/
def LeadsTo (m m' : Marking) : Prop :=
  (∀ id s, m.has id s → m'.has id s) ∧ m.liveness.Extends m'.liveness

theorem LeadsTo.refl (m : Marking) : m.LeadsTo m := ⟨fun _ _ hs => hs, .refl _⟩

theorem LeadsTo.trans {m'' : Marking} (hm : m.LeadsTo m') (hm' : m'.LeadsTo m'') : m.LeadsTo m'' :=
  ⟨fun id s hs => hm'.1 id s (hm.1 id s hs), hm.2.trans hm'.2⟩

theorem keep_leadsTo (d : Demand) : m.LeadsTo (Marking.keep g m d) :=
  ⟨(keep_grows d).has, by rw [liveness_keep]; exact .refl _⟩

@[simp] theorem liveness_bringToLife (class_ : NodeId) :
    (bringToLife g h m class_).liveness = (m.liveness.enter g h class_).1 := liveness_keepAll

theorem bringToLife_leadsTo (class_ : NodeId) : m.LeadsTo (bringToLife g h m class_) :=
  ⟨(keepAll_grows (m := { m with liveness := (m.liveness.enter g h class_).1 }) _).has,
    by rw [liveness_bringToLife]; exact Liveness.enter_extends⟩

/-- A placeholder is kept as a shell. -/
def seedPlaceholder (g : Graph) (m : Marking) (n : Node) : Marking :=
  if isUnresolved n then m.keep g ⟨n.id, .shell⟩ else m

/-- A root is kept in full. -/
def seedRoot (g : Graph) (m : Marking) (n : Node) : Marking :=
  Marking.keep g { m with roots := m.roots.insert n.id } ⟨n.id, .full⟩

theorem seedNode_eq (n : Node) : seedNode g h isRoot m n =
    if inProgram g n && isRoot n then
      match n with
      | .member _ => seedRoot g (seedPlaceholder g m n) n
      | .class_ _ => bringToLife g h (seedRoot g (seedPlaceholder g m n) n) n.id
    else seedPlaceholder g m n := rfl

theorem Progress.seedNode (hp : Progress g h m) (n : Node) :
    Progress g h (seedNode g h isRoot m n) := by
  have hplace : Progress g h (seedPlaceholder g m n) := by
    unfold seedPlaceholder
    split
    · exact hp.keep _
    · exact hp
  have hroot : Progress g h (seedRoot g (seedPlaceholder g m n) n) := (hplace.withRoots _).keep _
  rw [seedNode_eq]
  split
  · cases n with
    | member k => exact hroot
    | class_ c => exact hroot.bringToLife _
  · exact hplace

theorem seedPlaceholder_leadsTo (n : Node) : m.LeadsTo (seedPlaceholder g m n) := by
  unfold seedPlaceholder
  split
  · exact keep_leadsTo _
  · exact .refl m

theorem seedRoot_leadsTo (n : Node) : m.LeadsTo (seedRoot g m n) :=
  keep_leadsTo (m := { m with roots := m.roots.insert n.id }) _

theorem seedRoot_leadsTo_seedNode {n : Node} (hn : inProgram g n = true ∧ isRoot n = true) :
    (seedRoot g (seedPlaceholder g m n) n).LeadsTo (seedNode g h isRoot m n) := by
  rw [seedNode_eq, hn.1, hn.2]
  cases n with
  | member k => exact .refl _
  | class_ c => exact bringToLife_leadsTo _

theorem seedPlaceholder_leadsTo_seedNode (n : Node) :
    (seedPlaceholder g m n).LeadsTo (seedNode g h isRoot m n) := by
  by_cases hn : (inProgram g n && isRoot n) = true
  · exact (seedRoot_leadsTo n).trans (seedRoot_leadsTo_seedNode (by simpa using hn))
  · rw [seedNode_eq, if_neg hn]
    exact .refl _

theorem seedNode_leadsTo (n : Node) : m.LeadsTo (seedNode g h isRoot m n) :=
  (seedPlaceholder_leadsTo n).trans (seedPlaceholder_leadsTo_seedNode n)

theorem has_keep_self {n : Node} {s : KeepState} (hn : g.node? n.id = some n) :
    (Marking.keep g m ⟨n.id, s⟩).has n.id s :=
  has_keep_iff.mpr (.inr ⟨rfl, n, hn, le_effectiveState n s⟩)

theorem has_seedNode_of_unresolved {n : Node} (hn : g.node? n.id = some n)
    (hu : isUnresolved n = true) : (seedNode g h isRoot m n).has n.id .shell := by
  apply (seedPlaceholder_leadsTo_seedNode n).1
  rw [seedPlaceholder, if_pos hu]
  exact has_keep_self hn

theorem has_seedNode_of_root {n : Node} (hn : g.node? n.id = some n)
    (hr : inProgram g n = true ∧ isRoot n = true) : (seedNode g h isRoot m n).has n.id .full :=
  (seedRoot_leadsTo_seedNode hr).1 _ _ (has_keep_self hn)

theorem mem_live_seedNode {c : ClassNode}
    (hr : inProgram g (.class_ c) = true ∧ isRoot (.class_ c) = true) :
    c.id ∈ (seedNode g h isRoot m (.class_ c)).liveness.live := by
  rw [seedNode_eq, hr.1, hr.2]
  simp only [Bool.and_self, if_true, liveness_bringToLife]
  exact Liveness.mem_live_enter

theorem mem_roots_seedNode {n : Node} {id : NodeId} :
    id ∈ (seedNode g h isRoot m n).roots ↔
      id ∈ m.roots ∨ n.id = id ∧ inProgram g n = true ∧ isRoot n = true := by
  have hplace : (seedPlaceholder g m n).roots = m.roots := by
    unfold seedPlaceholder
    split <;> simp
  have hroot : id ∈ (seedRoot g (seedPlaceholder g m n) n).roots ↔ n.id = id ∨ id ∈ m.roots := by
    simp [seedRoot, hplace, eq_comm]
  rw [seedNode_eq]
  by_cases hn : inProgram g n = true ∧ isRoot n = true
  · rw [if_pos (by simpa using hn)]
    cases n with
    | member k => simp only [hroot, hn]; tauto
    | class_ c => simp only [bringToLife, roots_keepAll, hroot, hn]; tauto
  · rw [if_neg (by simpa using hn), hplace]
    tauto

theorem Below.bringToLife (hA : A.Closed g h isRoot) (hm : m.Below A) {class_ : NodeId}
    (hc : class_ ∈ A.live) : (bringToLife g h m class_).Below A := by
  obtain ⟨hwithin, hrun⟩ := Liveness.enter_within hA hm.2 hc
  refine ⟨Below.keepAll (m := { m with liveness := (m.liveness.enter g h class_).1 }) hA hm.1 _ ?_,
    ?_⟩
  · intro d hd
    obtain ⟨id, hid, rfl⟩ := List.mem_map.mp hd
    exact hrun id hid
  · rw [liveness_bringToLife]
    exact hwithin

/-- A closed assignment has all that seeding marks. -/
theorem Below.seedNode (hA : A.Closed g h isRoot) (hm : m.Below A) {n : Node} (hn : n ∈ g.nodes) :
    (seedNode g h isRoot m n).Below A := by
  have hkeep : ∀ {m : Marking} {s : KeepState}, m.Below A → A.keeps n.id s →
      (Marking.keep g m ⟨n.id, s⟩).Below A := by
    intro m s hm hs
    refine ⟨Below.keepAll hA hm.1 [⟨n.id, s⟩] (by simpa using hs), ?_⟩
    rw [liveness_keep]
    exact hm.2
  have hplace : (seedPlaceholder g m n).Below A := by
    unfold seedPlaceholder
    split
    next hu => exact hkeep hm (hA.unresolved n hn hu)
    next => exact hm
  rw [seedNode_eq]
  split
  next hr =>
    rw [Bool.and_eq_true] at hr
    have hroot : (seedRoot g (seedPlaceholder g m n) n).Below A :=
      hkeep (m := { seedPlaceholder g m n with roots := _ }) hplace (hA.root n hn hr.1 hr.2)
    cases n with
    | member k => exact hroot
    | class_ c => exact hroot.bringToLife hA (hA.root_live c hn hr.1 hr.2)
  next => exact hplace

end Seed

section Runs

variable {nodes : List Node}

theorem progress_foldl_seedNode (hp : Progress g h m) (nodes : List Node) :
    Progress g h (nodes.foldl (seedNode g h isRoot) m) := by
  induction nodes generalizing m with
  | nil => exact hp
  | cons n nodes ih => exact ih (hp.seedNode n)

theorem foldl_seedNode_leadsTo (nodes : List Node) :
    m.LeadsTo (nodes.foldl (seedNode g h isRoot) m) := by
  induction nodes generalizing m with
  | nil => exact .refl m
  | cons n nodes ih => exact (seedNode_leadsTo n).trans ih

/-- What seeding with a node brings is there after all nodes have been taken up. -/
theorem leadsTo_foldl_seedNode_of_mem {n : Node} (hn : n ∈ nodes) :
    ∃ m', (seedNode g h isRoot m' n).LeadsTo (nodes.foldl (seedNode g h isRoot) m) := by
  induction nodes generalizing m with
  | nil => cases hn
  | cons x nodes ih =>
    rcases List.mem_cons.mp hn with rfl | hn
    · exact ⟨m, foldl_seedNode_leadsTo nodes⟩
    · exact ih hn

theorem mem_roots_foldl_seedNode {id : NodeId} :
    id ∈ (nodes.foldl (seedNode g h isRoot) m).roots ↔
      id ∈ m.roots ∨ ∃ n ∈ nodes, n.id = id ∧ inProgram g n = true ∧ isRoot n = true := by
  induction nodes generalizing m with
  | nil => simp
  | cons n nodes ih =>
    rw [List.foldl_cons, ih, mem_roots_seedNode, or_assoc]
    simp only [List.mem_cons, exists_eq_or_imp]

theorem below_foldl_seedNode (hA : A.Closed g h isRoot) (hm : m.Below A)
    (hn : ∀ n ∈ nodes, n ∈ g.nodes) : (nodes.foldl (seedNode g h isRoot) m).Below A := by
  induction nodes generalizing m with
  | nil => exact hm
  | cons n nodes ih =>
    exact ih (hm.seedNode hA (hn n List.mem_cons_self))
      fun x hx => hn x (List.mem_cons_of_mem n hx)

theorem below_empty : ({} : Marking).Below A := by
  refine ⟨fun id s hs => ?_, ⟨nofun, nofun⟩⟩
  obtain ⟨r, hr, _⟩ := hs
  simp at hr

theorem rooted_seedIn (hg : g.WellFormed) (hn : ∀ n ∈ g.nodes, n ∈ nodes) :
    (seedIn g h isRoot nodes).Rooted g isRoot where
  unresolved n hmem hu := by
    obtain ⟨m', hm'⟩ := leadsTo_foldl_seedNode_of_mem (g := g) (h := h) (m := {}) (hn n hmem)
    exact hm'.1 _ _ (has_seedNode_of_unresolved (hg.node?_of_mem hmem) hu)
  root n hmem hp hr := by
    obtain ⟨m', hm'⟩ := leadsTo_foldl_seedNode_of_mem (g := g) (h := h) (m := {}) (hn n hmem)
    exact hm'.1 _ _ (has_seedNode_of_root (hg.node?_of_mem hmem) ⟨hp, hr⟩)
  live c hmem hp hr := by
    obtain ⟨m', hm'⟩ := leadsTo_foldl_seedNode_of_mem (g := g) (h := h) (m := {}) (hn _ hmem)
    exact hm'.2.live _ (mem_live_seedNode ⟨hp, hr⟩)

theorem step_leadsTo (hf : h.Functional) (hs : Step g h m m') : m.LeadsTo m' := by
  cases hs with
  | absent _ _ => exact .refl _
  | @pass id rest n edges liveness demands demands' _ _ _ hfold _ =>
    have hfol := followed_foldl (g := g) hf edges (m.liveness, ownerDemand n)
    rw [hfold] at hfol
    refine ⟨(keepAll_grows (m := { m with queue := rest, liveness := liveness }) demands').has, ?_⟩
    rw [liveness_keepAll]
    exact hfol.extend

theorem Rooted.mono (hr : m.Rooted g isRoot) (hm : m.LeadsTo m') : m'.Rooted g isRoot where
  unresolved n hn hu := hm.1 _ _ (hr.unresolved n hn hu)
  root n hn hp hi := hm.1 _ _ (hr.root n hn hp hi)
  live c hc hp hi := hm.2.live _ (hr.live c hc hp hi)

/-- What holds at the start of a run and is kept by every step holds at its end. -/
theorem run_induction {P : Marking → Prop} (hstep : ∀ m m', P m → Step g h m m' → P m')
    (hrun : Relation.ReflTransGen (Step g h) m m') (hm : P m) : P m' := by
  induction hrun with
  | refl => exact hm
  | tail _ hs ih => exact hstep _ _ ih hs

/-- A run that has come to its end has found the least closed assignment. -/
theorem isLeast_of_run (hg : g.WellFormed) (hf : h.Functional)
    (hrun : Relation.ReflTransGen (Step g h) m m') (hp : Progress g h m)
    (hr : m.Rooted g isRoot) (hq : m'.queue = [])
    (hbelow : ∀ A : Assignment, A.Closed g h isRoot → m.Below A) :
    IsLeast {A : Assignment | A.Closed g h isRoot} m'.assignment := by
  have hend : Progress g h m' ∧ m'.Rooted g isRoot := by
    refine run_induction (P := fun m => Progress g h m ∧ m.Rooted g isRoot) ?_ hrun ⟨hp, hr⟩
    intro m m' hm hs
    exact ⟨hm.1.step hf hs, hm.2.mono (step_leadsTo hf hs)⟩
  refine ⟨hend.1.closed hg hend.2 hq, fun A hA => ?_⟩
  have hle : Progress g h m' ∧ m'.Below A := by
    refine run_induction (P := fun m => Progress g h m ∧ m.Below A) ?_ hrun ⟨hp, hbelow A hA⟩
    intro m m' hm hs
    exact ⟨hm.1.step hf hs, hm.2.step hf hA hm.1 hs⟩
  exact ⟨hle.2.1, hle.2.2.live, hle.2.2.callSites⟩

theorem roots_of_run (hrun : Relation.ReflTransGen (Step g h) m m') : m'.roots = m.roots :=
  run_induction (P := fun k => k.roots = m.roots)
    (fun _ _ hk hs => (roots_step hs).trans hk) hrun rfl

/-- Taking up the first node that waits, its edges and demands in order, is one of the steps. -/
theorem step_process {id : NodeId} {rest : List NodeId} (hq : m.queue = id :: rest) :
    Step g h m (process g h { m with queue := rest } id) := by
  unfold process
  split
  next hn => exact .absent (hq ▸ .refl _) hn
  next n hn => exact .pass (hq ▸ .refl _) hn (.refl _) rfl (.refl _)

theorem drain_run (m : Marking) : Relation.ReflTransGen (Step g h) m (drain g h m) := by
  fun_induction drain g h m with
  | case1 m hq => exact .refl
  | case2 m id rest hq _ ih => exact .head (step_process hq) ih

theorem queue_drain (m : Marking) : (drain g h m).queue = [] := by
  fun_induction drain g h m with
  | case1 m hq => exact hq
  | case2 m id rest hq _ ih => exact ih

/-- Marking finds the least closed assignment, whatever the order of nodes, edges and demands. -/
theorem isLeast_of_seedIn_run (hg : g.WellFormed) (hf : h.Functional) (hn : nodes.Perm g.nodes)
    (hrun : Relation.ReflTransGen (Step g h) (seedIn g h isRoot nodes) m) (hq : m.queue = []) :
    IsLeast {A : Assignment | A.Closed g h isRoot} m.assignment :=
  isLeast_of_run hg hf hrun (progress_foldl_seedNode progress_empty nodes)
    (rooted_seedIn hg fun _ hmem => hn.mem_iff.mpr hmem) hq
    fun _ hA => below_foldl_seedNode hA below_empty fun _ hmem => hn.mem_iff.mp hmem

theorem mem_roots_of_seedIn_run {id : NodeId}
    (hrun : Relation.ReflTransGen (Step g h) (seedIn g h isRoot nodes) m) :
    id ∈ m.roots ↔ ∃ n ∈ nodes, n.id = id ∧ inProgram g n = true ∧ isRoot n = true := by
  rw [roots_of_run hrun, seedIn, mem_roots_foldl_seedNode]
  simp

theorem progress_of_seedIn_run (hf : h.Functional)
    (hrun : Relation.ReflTransGen (Step g h) (seedIn g h isRoot nodes) m) : Progress g h m :=
  run_induction (fun _ _ hm hs => hm.step hf hs) hrun
    (progress_foldl_seedNode progress_empty nodes)

/-- The table of a marking keeps what is marked. -/
theorem Proper.keeps_table (hm : m.Proper g) {id : NodeId} {s : KeepState} :
    (m.table g).keeps id s ↔ m.has id s := by
  simp only [CounterTable.keeps, CounterTable.state?, table, SortedMap.get?_filter, has]
  constructor
  · rintro ⟨r, hr, hle⟩
    obtain ⟨t, ht, rfl⟩ := Option.map_eq_some_iff.mp hr
    rw [Option.filter_eq_some_iff, Option.filter_eq_some_iff] at ht
    exact ⟨t, ht.1.1, hle⟩
  · rintro ⟨r, hr, hle⟩
    obtain ⟨hk, n, hn, _⟩ := hm id r hr
    have hc : g.contains id = true := Graph.contains_iff_node?.mpr ⟨n, hn⟩
    refine ⟨r.state, ?_, hle⟩
    simp [hr, hk, hc, Option.filter]

end Runs

end Marking

end Winnow
