import Winnow.Proofs.Marking.Assignment

/-!
# Dispatch, one edge at a time

A pair of a live class and a call is met when the later of the two comes: what
it runs is then asked for. So after any number of edges, whatever live classes
run for the calls seen has been asked for, and nothing else has.
-/
namespace Winnow

namespace Liveness

/-- What the edge says about dispatch is recorded. -/
def Knows (g : Graph) (l : Liveness) (e : Edge) : Prop :=
  (e.kind = .uses .instantiate → e.target ∈ l.live) ∧
  ∀ receiver, e.kind = .uses (.virtualCall receiver) → g.contains (.class_ receiver) = true →
    (NodeId.class_ receiver, e.target) ∈ l.callSites

/-- Whatever live classes run for the calls seen has the property `P`. -/
def RunsOnly (g : Graph) (h : Hierarchy) (l : Liveness) (P : NodeId → Prop) : Prop :=
  ∀ class_ ∈ l.live, ∀ receiver decl, (receiver, decl) ∈ l.callSites →
    h.isSubtype class_ receiver = true → ∀ id, g.implementationOf h class_ decl = some id → P id

structure Extends (l l' : Liveness) : Prop where
  live : ∀ id ∈ l.live, id ∈ l'.live
  callSites : ∀ call ∈ l.callSites, call ∈ l'.callSites

/-- Nothing is alive or called that is not so in the assignment. -/
structure Within (l : Liveness) (A : Assignment) : Prop where
  live : ∀ id ∈ l.live, id ∈ A.live
  callSites : ∀ call ∈ l.callSites, call ∈ A.called

variable {g : Graph} {h : Hierarchy} {isRoot : Node → Bool} {A : Assignment}
  {l l' l'' : Liveness} {e : Edge} {P : NodeId → Prop}

theorem Extends.refl (l : Liveness) : l.Extends l := ⟨fun _ hi => hi, fun _ hc => hc⟩

theorem Extends.trans (hl : l.Extends l') (hl' : l'.Extends l'') : l.Extends l'' :=
  ⟨fun id hi => hl'.live id (hl.live id hi), fun c hc => hl'.callSites c (hl.callSites c hc)⟩

theorem Knows.extend (hk : l.Knows g e) (hl : l.Extends l') : l'.Knows g e :=
  ⟨fun hi => hl.live _ (hk.1 hi), fun r hr hc => hl.callSites _ (hk.2 r hr hc)⟩

theorem RunsOnly.mono {Q : NodeId → Prop} (hl : l.RunsOnly g h P) (hPQ : ∀ id, P id → Q id) :
    l.RunsOnly g h Q :=
  fun c hc r d hd hs id hid => hPQ id (hl c hc r d hd hs id hid)

theorem mem_declarationsOn {receiver decl : NodeId} :
    decl ∈ l.declarationsOn receiver ↔ (receiver, decl) ∈ l.callSites := by
  simp [declarationsOn]

theorem mem_runBy {class_ id : NodeId} : id ∈ l.runBy g h class_ ↔
    ∃ receiver decl, (receiver, decl) ∈ l.callSites ∧ h.isSubtype class_ receiver = true ∧
      g.implementationOf h class_ decl = some id := by
  simp only [runBy, List.mem_filterMap, List.mem_flatMap, mem_declarationsOn,
    Hierarchy.isSubtype_iff, List.mem_cons]
  constructor
  · rintro ⟨decl, ⟨receiver, hr, hc⟩, hi⟩
    exact ⟨receiver, decl, hc, hr.imp_left Eq.symm, hi⟩
  · rintro ⟨receiver, decl, hc, hr, hi⟩
    exact ⟨decl, ⟨receiver, hr.imp_left Eq.symm, hc⟩, hi⟩

theorem mem_runOn (hf : h.Functional) {receiver decl id : NodeId} :
    id ∈ l.runOn g h receiver decl ↔
      ∃ class_ ∈ l.live, h.isSubtype class_ receiver = true ∧
        g.implementationOf h class_ decl = some id := by
  simp only [runOn, List.mem_filterMap, List.mem_filter, List.mem_cons, decide_eq_true_eq,
    hf.mem_subtypes, Hierarchy.isSubtype_iff]
  constructor
  · rintro ⟨class_, ⟨hs, hl⟩, hi⟩
    exact ⟨class_, hl, hs, hi⟩
  · rintro ⟨class_, hl, hs, hi⟩
    exact ⟨class_, ⟨hs, hl⟩, hi⟩

section Enter
variable {class_ : NodeId}

theorem enter_extends : l.Extends (l.enter g h class_).1 := by
  unfold enter
  split
  · exact .refl l
  · exact ⟨fun id hi => List.mem_append_left _ hi, fun _ hc => hc⟩

theorem mem_live_enter : class_ ∈ (l.enter g h class_).1.live := by
  unfold enter
  split
  next hl => exact hl
  next => simp

theorem enter_runsOnly (hl : l.RunsOnly g h P) (hrun : ∀ id ∈ (l.enter g h class_).2, P id) :
    (l.enter g h class_).1.RunsOnly g h P := by
  unfold enter at hrun ⊢
  split
  next => exact hl
  next hnew =>
    rw [if_neg hnew] at hrun
    intro c hc receiver decl hd hs id hid
    rcases List.mem_append.mp hc with hc | hc
    · exact hl c hc receiver decl hd hs id hid
    · obtain rfl : c = class_ := by simpa using hc
      exact hrun id (mem_runBy.mpr ⟨receiver, decl, hd, hs, hid⟩)

theorem enter_within (hA : A.Closed g h isRoot) (hl : l.Within A) (hc : class_ ∈ A.live) :
    (l.enter g h class_).1.Within A ∧ ∀ id ∈ (l.enter g h class_).2, A.keeps id .full := by
  unfold enter
  split
  next => exact ⟨hl, nofun⟩
  next =>
    refine ⟨⟨fun id hid => ?_, hl.callSites⟩, fun id hid => ?_⟩
    · rcases List.mem_append.mp hid with hid | hid
      · exact hl.live id hid
      · obtain rfl : id = class_ := by simpa using hid
        exact hc
    · obtain ⟨receiver, decl, hd, hs, hi⟩ := mem_runBy.mp hid
      exact hA.dispatch class_ hc receiver decl (hl.callSites _ hd) hs id hi

end Enter

section Call
variable {receiver decl : NodeId}

theorem call_extends : l.Extends (l.call g h receiver decl).1 := by
  unfold call
  split
  · exact .refl l
  · exact ⟨fun _ hi => hi, fun c hc => List.mem_append_left _ hc⟩

theorem mem_callSites_call : (receiver, decl) ∈ (l.call g h receiver decl).1.callSites := by
  unfold call
  split
  next hl => exact hl
  next => simp

theorem call_runsOnly (hf : h.Functional) (hl : l.RunsOnly g h P)
    (hrun : ∀ id ∈ (l.call g h receiver decl).2, P id) :
    (l.call g h receiver decl).1.RunsOnly g h P := by
  unfold call at hrun ⊢
  split
  next => exact hl
  next hnew =>
    rw [if_neg hnew] at hrun
    intro c hc r d hd hs id hid
    rcases List.mem_append.mp hd with hd | hd
    · exact hl c hc r d hd hs id hid
    · obtain ⟨rfl, rfl⟩ : r = receiver ∧ d = decl := by simpa using hd
      exact hrun id ((mem_runOn hf).mpr ⟨c, hc, hs, hid⟩)

theorem call_within (hf : h.Functional) (hA : A.Closed g h isRoot) (hl : l.Within A)
    (hc : (receiver, decl) ∈ A.called) :
    (l.call g h receiver decl).1.Within A ∧
      ∀ id ∈ (l.call g h receiver decl).2, A.keeps id .full := by
  unfold call
  split
  next => exact ⟨hl, nofun⟩
  next =>
    refine ⟨⟨hl.live, fun c hc' => ?_⟩, fun id hid => ?_⟩
    · rcases List.mem_append.mp hc' with hc' | hc'
      · exact hl.callSites c hc'
      · obtain rfl : c = (receiver, decl) := by simpa using hc'
        exact hc
    · obtain ⟨class_, hlive, hs, hi⟩ := (mem_runOn hf).mp hid
      exact hA.dispatch class_ (hl.live _ hlive) receiver decl hc hs id hi

end Call

theorem follow_extends : l.Extends (l.follow g h e).1 := by
  unfold follow
  split
  · exact enter_extends
  · split
    · exact call_extends
    · exact .refl l
  · exact .refl l

theorem follow_knows : (l.follow g h e).1.Knows g e := by
  unfold follow Knows
  split
  next hk =>
    refine ⟨fun _ => mem_live_enter, fun r hr => ?_⟩
    simp [hk] at hr
  next receiver hk =>
    refine ⟨fun hi => ?_, fun r hr hc => ?_⟩
    · simp [hk] at hi
    · obtain rfl : receiver = r := by simpa [hk] using hr
      rw [if_pos hc]
      exact mem_callSites_call
  next hi hv => exact ⟨fun h => (hi h).elim, fun r hr => (hv r hr).elim⟩

theorem follow_runsOnly (hf : h.Functional) (hl : l.RunsOnly g h P)
    (hrun : ∀ id ∈ (l.follow g h e).2, P id) : (l.follow g h e).1.RunsOnly g h P := by
  unfold follow at hrun ⊢
  split
  next hk =>
    rw [hk] at hrun
    exact enter_runsOnly hl hrun
  next receiver hk =>
    rw [hk] at hrun
    split
    next hc => exact call_runsOnly hf hl (by simpa [hc] using hrun)
    next => exact hl
  next => exact hl

theorem follow_within (hf : h.Functional) (hA : A.Closed g h isRoot) (hl : l.Within A)
    (he : e ∈ g.edges) (hs : A.keeps e.source .shell) :
    (l.follow g h e).1.Within A ∧ ∀ id ∈ (l.follow g h e).2, A.keeps id .full := by
  unfold follow
  split
  next hk => exact enter_within hA hl (hA.instantiate e he hs hk)
  next receiver hk =>
    split
    next hc => exact call_within hf hA hl (hA.call e he hs receiver hk hc)
    next => exact ⟨hl, nofun⟩
  next => exact ⟨hl, nofun⟩

end Liveness

namespace Marking

open Liveness

variable {g : Graph} {h : Hierarchy} {isRoot : Node → Bool} {A : Assignment}

theorem mem_followEdge {s : Liveness × List Demand} {e : Edge} {d : Demand} :
    d ∈ (followEdge g h s e).2 ↔
      d ∈ s.2 ∨ e.demand? = some d ∨ ∃ id ∈ (s.1.follow g h e).2, d = ⟨id, .full⟩ := by
  simp only [followEdge, List.append_assoc, List.mem_append, Option.mem_toList, List.mem_map]
  tauto

/-- What a walk over some edges out of a node leaves: the edges are known, their demands and those
of dispatch are there. -/
structure Followed (g : Graph) (h : Hierarchy) (s : Liveness × List Demand) (edges : List Edge)
    (r : Liveness × List Demand) : Prop where
  extend : s.1.Extends r.1
  earlier : ∀ d ∈ s.2, d ∈ r.2
  known : ∀ e ∈ edges, r.1.Knows g e
  demanded : ∀ e ∈ edges, ∀ d, e.demand? = some d → d ∈ r.2
  runsOnly : ∀ P : NodeId → Prop, s.1.RunsOnly g h P → (∀ id, ⟨id, .full⟩ ∈ r.2 → P id) →
    r.1.RunsOnly g h P

theorem followed_foldl (hf : h.Functional) (edges : List Edge) (s : Liveness × List Demand) :
    Followed g h s edges (edges.foldl (followEdge g h) s) := by
  induction edges generalizing s with
  | nil => exact ⟨.refl _, fun _ hd => hd, nofun, nofun, fun _ hs _ => hs⟩
  | cons e edges ih =>
    rw [List.foldl_cons]
    have ht := ih (followEdge g h s e)
    refine ⟨follow_extends.trans ht.extend, ?_, ?_, ?_, ?_⟩
    · intro d hd
      exact ht.earlier d (mem_followEdge.mpr (.inl hd))
    · intro e' he'
      rcases List.mem_cons.mp he' with rfl | he'
      · exact follow_knows.extend ht.extend
      · exact ht.known e' he'
    · intro e' he' d hd
      rcases List.mem_cons.mp he' with rfl | he'
      · exact ht.earlier d (mem_followEdge.mpr (.inr (.inl hd)))
      · exact ht.demanded e' he' d hd
    · intro P hs hP
      refine ht.runsOnly P (follow_runsOnly hf hs fun id hid => ?_) hP
      exact hP id (ht.earlier _ (mem_followEdge.mpr (.inr (.inr ⟨id, hid, rfl⟩))))

/-- Nothing is asked for that a closed assignment with the source of the edges does not have. -/
theorem foldl_followEdge_within (hf : h.Functional) (hA : A.Closed g h isRoot) {edges : List Edge}
    {s : Liveness × List Demand} (hs : s.1.Within A) (hd : ∀ d ∈ s.2, A.keeps d.id d.state)
    (he : ∀ e ∈ edges, e ∈ g.edges ∧ A.keeps e.source .shell) :
    (edges.foldl (followEdge g h) s).1.Within A ∧
      ∀ d ∈ (edges.foldl (followEdge g h) s).2, A.keeps d.id d.state := by
  induction edges generalizing s with
  | nil => exact ⟨hs, hd⟩
  | cons e edges ih =>
    obtain ⟨heg, hes⟩ := he e List.mem_cons_self
    obtain ⟨hw, hrun⟩ := follow_within hf hA hs heg hes
    rw [List.foldl_cons]
    refine ih hw ?_ fun e' he' => he e' (List.mem_cons_of_mem e he')
    intro d hd'
    rcases mem_followEdge.mp hd' with hd' | hd' | ⟨id, hid, rfl⟩
    · exact hd d hd'
    · exact hA.edge e heg hes d hd'
    · exact hrun id hid

end Marking

end Winnow
