import Winnow.Proofs.Graph.Edit

/-!
# What links come to

A link stands for a list of edges, which depends on the graph only through
look-ups. Applying it adds these edges and, where a class is not known,
stand-ins for it; every node that was there stays as it was. `Applied` says all
that applying a link can do, and what is kept by it is read off its cases.
-/
namespace Winnow

namespace Link

/-- The link places its source in the hierarchy. -/
def inHierarchy : Link → Bool
  | .supertype .. => true
  | _ => false

/-- The edge from the source to what a reference resolves to. -/
def resolvedEdges (source : NodeId) (use : NodeId → Use) : Resolution → List Edge
  | .declared id => [⟨source, id, .uses (use id)⟩]
  | .external | .missing => []

/-- The edges that a link stands for in a graph. -/
def edges (platform : Platform) (g : Graph) : Link → List Edge
  | .supertype source kind name =>
    (g.mentioned? platform true name).toList.map (⟨source, .class_ ·, kind⟩)
  | .mention source kind name =>
    (g.mentioned? platform false name).toList.map (⟨source, .class_ ·, kind⟩)
  | .known edge => if g.contains edge.target then [edge] else []
  | .call source dispatch start receiver key =>
    resolvedEdges source (g.useOfCall dispatch receiver) (g.resolve start .method key)
  | .access source owner key =>
    resolvedEdges source (fun _ => .fieldAccess) (g.resolve owner .field key)
  | .lookup source name member descriptor =>
    (g.mentioned? platform false name).toList.flatMap fun name =>
      (g.lookedUp name member descriptor).map (⟨source, ·, .uses .reflection⟩)

/-- Whatever edges the link stands for, their kinds have the property. -/
def Kinds (P : EdgeKind → Prop) : Link → Prop
  | .supertype _ kind _ | .mention _ kind _ => P kind
  | .known edge => P edge.kind
  | .call .. | .access .. | .lookup .. => ∀ use, P (.uses use)

/-- The class that the link leads to, and that is provided for it. -/
def mentioned? (platform : Platform) (g : Graph) : Link → Option String
  | .supertype _ _ name => g.mentioned? platform true name
  | .mention _ _ name => g.mentioned? platform false name
  | .known _ | .call .. | .access .. | .lookup .. => none

/-- The reference leads nowhere. -/
def isMissing (g : Graph) : Link → Bool
  | .call _ _ start _ key => g.resolve start .method key = .missing
  | .access _ owner key => g.resolve owner .field key = .missing
  | _ => false

end Link

namespace Graph

variable {g g' g'' : Graph} {platform : Platform} {l : Link} {x : Edge} {id : NodeId} {n : Node}

/-- Every node stays as it is, and new nodes stand in for unknown classes; those of the platform
only come where the hierarchy asks for them. -/
structure Extension (platform : Platform) (inHierarchy : Bool) (g g' : Graph) : Prop where
  retains : ∀ id n, g.node? id = some n → g'.node? id = some n
  introduced : ∀ id n, g'.node? id = some n → g.node? id = none →
    ∃ name, n = standIn platform name ∧ (platform.recognizes name = true → inHierarchy = true)

variable {b : Bool}

theorem Extension.refl (g : Graph) : Extension platform b g g :=
  ⟨fun _ _ h => h, fun id n h h' => by simp [h] at h'⟩

theorem Extension.trans (h : Extension platform b g g') (h' : Extension platform b g' g'') :
    Extension platform b g g'' := by
  refine ⟨fun id n hn => h'.retains id n (h.retains id n hn), fun id n hn hnone => ?_⟩
  cases hmid : g'.node? id with
  | none => exact h'.introduced id n hn hmid
  | some k =>
    obtain rfl : k = n := by simpa [h'.retains id k hmid] using hn
    exact h.introduced id k hmid hnone

theorem Extension.weaken (h : Extension platform false g g') : Extension platform b g g' :=
  ⟨h.retains, fun id n hn hnone =>
    (h.introduced id n hn hnone).imp fun _ hname => ⟨hname.1, fun hp => by simpa using hname.2 hp⟩⟩

theorem Extension.contains (h : Extension platform b g g') (hid : g.contains id = true) :
    g'.contains id = true := by
  obtain ⟨n, hn⟩ := contains_iff_node?.mp hid
  exact contains_iff_node?.mpr ⟨n, h.retains id n hn⟩

/-- Adding edges and counting missing references leaves the nodes alone. -/
theorem Extension.of_node?_eq (h : g'.node? = g.node?) : Extension platform b g g' :=
  ⟨fun id n hn => by rwa [h], fun id n hn hnone => by rw [h, hnone] at hn; cases hn⟩

theorem provide_extension {name : String}
    (h : g.contains (.class_ name) = true ∨ (platform.recognizes name = true → b = true)) :
    Extension platform b g (g.provide platform name) := by
  refine ⟨fun id n hn => ?_, fun id n hn hnone => ?_⟩
  · rw [node?_provide, if_neg]
    · exact hn
    · rintro ⟨hc, rfl⟩
      have := contains_iff_node?.mpr ⟨n, hn⟩
      simp [hc] at this
  · rw [node?_provide] at hn
    split at hn
    next hc =>
      refine ⟨name, by simpa using hn.symm, h.resolve_left (by simp [hc.1])⟩
    next => simp [hnone] at hn

theorem recognizes_of_mentioned? {name name' : String} (h : g.mentioned? platform b name = some name') :
    g.contains (.class_ name') = true ∨ (platform.recognizes name' = true → b = true) := by
  simp only [mentioned?, Option.bind_eq_bind, Option.bind_eq_some_iff] at h
  obtain ⟨k, _, h⟩ := h
  split at h
  · cases h
  · split at h
    next hk =>
      obtain rfl : k = name' := by simpa using h
      simp only [Bool.or_eq_true, Bool.not_eq_true'] at hk
      rcases hk with (hk | hk) | hk
      · exact .inl hk
      · exact .inr fun _ => hk
      · exact .inr fun hp => by simp [hp] at hk
    next => cases h

theorem contains_of_mem_lookedUp {name member : String} {descriptor : Option String}
    (h : id ∈ g.lookedUp name member descriptor) : g.contains id = true := by
  simp only [lookedUp, membersOf, List.mem_map, List.mem_filter] at h
  obtain ⟨m, ⟨hm, _⟩, rfl⟩ := h
  split at hm
  · cases hm
  · obtain ⟨k, _, hk⟩ := List.mem_filterMap.mp hm
    obtain ⟨hk, rfl⟩ := member?_eq_some hk
    exact contains_iff_node?.mpr ⟨_, hk⟩

theorem contains_of_resolve {start : String} {kind : NodeKind} {key : MemberKey}
    (h : g.resolve start kind key = .declared id) : g.contains id = true := by
  unfold resolve at h
  dsimp only at h
  split at h
  next resolution hr =>
    subst h
    obtain ⟨name, _, hname⟩ := List.exists_of_findSome?_eq_some hr
    unfold resolveIn at hname
    split at hname
    · split at hname <;> simp at hname
    · simp only [Option.bind_eq_bind, Option.bind_eq_some_iff] at hname
      obtain ⟨c, _, id', hid, hname⟩ := hname
      split at hname
      · obtain rfl : id' = id := by simpa using hname
        exact contains_of_declared hid
      · simp at hname
  next => split at h <;> cases h

theorem ne_objectClass_of_mentioned? {name name' : String}
    (h : g.mentioned? platform b name = some name') : name' ≠ objectClass := by
  simp only [mentioned?, Option.bind_eq_bind, Option.bind_eq_some_iff] at h
  obtain ⟨k, _, h⟩ := h
  split at h
  · cases h
  next hk =>
    split at h
    · exact Option.some.inj h ▸ hk
    · cases h

end Graph

namespace Link

variable {platform : Platform} {g : Graph} {l : Link} {e : Edge} {name : String}
  {P : EdgeKind → Prop}

/-- An edge that the link stands for starts at its source, is of a kind that the link allows, and
leads to the class that is mentioned or to a node that is there. -/
structure Fits (platform : Platform) (g : Graph) (l : Link) (e : Edge) : Prop where
  source : e.source = l.source
  kind : ∀ {P : EdgeKind → Prop}, l.Kinds P → P e.kind
  target : (∃ name, l.mentioned? platform g = some name ∧ e.target = .class_ name) ∨
    g.contains e.target = true

theorem fits_of_mem_edges (he : e ∈ l.edges platform g) : l.Fits platform g e := by
  cases l with
  | supertype source kind name | mention source kind name =>
    obtain ⟨target, htarget, rfl⟩ := List.mem_map.mp he
    exact ⟨rfl, fun hP => hP, .inl ⟨target, Option.mem_toList.mp htarget, rfl⟩⟩
  | known edge =>
    simp only [edges, List.mem_ite_nil_right, List.mem_singleton] at he
    obtain ⟨hin, rfl⟩ := he
    exact ⟨rfl, fun hP => hP, .inr hin⟩
  | call source dispatch start receiver key | access source owner key =>
    simp only [edges] at he
    unfold resolvedEdges at he
    split at he
    next id hr =>
      obtain rfl := List.mem_singleton.mp he
      exact ⟨rfl, fun hP => hP _, .inr (Graph.contains_of_resolve hr)⟩
    all_goals cases he
  | lookup source name member descriptor =>
    obtain ⟨_, _, he⟩ := List.mem_flatMap.mp he
    obtain ⟨id, hid, rfl⟩ := List.mem_map.mp he
    exact ⟨rfl, fun hP => hP _, .inr (Graph.contains_of_mem_lookedUp hid)⟩

theorem source_of_mem_edges (he : e ∈ l.edges platform g) : e.source = l.source :=
  (fits_of_mem_edges he).source

theorem Kinds.of_mem_edges (hl : l.Kinds P) (he : e ∈ l.edges platform g) : P e.kind :=
  (fits_of_mem_edges he).kind hl

/-- A mention stands for one edge, to the class. -/
theorem edges_of_mentioned? (h : l.mentioned? platform g = some name) :
    ∃ kind, l.edges platform g = [⟨l.source, .class_ name, kind⟩] := by
  cases l with
  | supertype source kind _ | mention source kind _ =>
    have h : g.mentioned? platform _ _ = some name := h
    exact ⟨kind, by rw [edges, h]; rfl⟩
  | known _ | call _ _ _ _ _ | access _ _ _ | lookup _ _ _ _ => cases h

/-- What is mentioned is not the root of the hierarchy, and a class of the platform has to be
provided only where the hierarchy asks for it. -/
theorem spec_of_mentioned? (h : l.mentioned? platform g = some name) : name ≠ objectClass ∧
    (g.contains (.class_ name) = true ∨ (platform.recognizes name = true → l.inHierarchy = true)) := by
  cases l with
  | supertype | mention =>
    exact ⟨Graph.ne_objectClass_of_mentioned? h, Graph.recognizes_of_mentioned? h⟩
  | known _ | call _ _ _ _ _ | access _ _ _ | lookup _ _ _ _ => cases h

end Link

namespace Graph

/-- What applying a link comes to, with the edges that are new. Its edges are added, after a class
that it mentions has been provided. A reference that leads nowhere has no edges and is counted. -/
inductive Applied (platform : Platform) (g : Graph) (l : Link) : Graph → List Edge → Prop
  | absent : g.contains l.source = false → Applied platform g l g []
  | mention {name : String} : g.contains l.source = true → l.mentioned? platform g = some name →
      l.isMissing g = false →
      Applied platform g l ((g.provide platform name).addEdges (l.edges platform g))
        ((g.provide platform name).insertEdges (l.edges platform g)).2
  | known : g.contains l.source = true → l.mentioned? platform g = none → l.isMissing g = false →
      Applied platform g l (g.addEdges (l.edges platform g)) (g.insertEdges (l.edges platform g)).2
  | missing : g.contains l.source = true → l.isMissing g = true → l.edges platform g = [] →
      Applied platform g l (g.recordMissing l.source) []

variable {g g' g'' : Graph} {platform : Platform} {l : Link} {x : Edge} {b : Bool}
  {fresh : List Edge}

/-- A link to a class stands for no edge where the name leads nowhere. -/
theorem applied_linkClass {source : NodeId} {kind : EdgeKind} {name : String}
    (hs : g.contains l.source = true) (hm : l.mentioned? platform g = g.mentioned? platform b name)
    (he : l.edges platform g =
      (g.mentioned? platform b name).toList.map (⟨source, .class_ ·, kind⟩ : String → Edge))
    (hfound : l.isMissing g = false) :
    Applied platform g l (g.linkClass platform b source kind name).1
      (g.linkClass platform b source kind name).2 := by
  unfold linkClass
  split
  next h =>
    have happlied : Applied platform g l (g.addEdges (l.edges platform g)) _ :=
      .known hs (hm.trans h) hfound
    rw [he, h] at happlied
    exact happlied
  next target h =>
    have happlied : Applied platform g l
        ((g.provide platform target).addEdges (l.edges platform g)) _ :=
      .mention hs (hm.trans h) hfound
    rw [he, h, ← fst_insertEdges] at happlied
    exact happlied

theorem applied_linkResolved {source : NodeId} {use : NodeId → Use} {r : Resolution}
    (hs : g.contains l.source = true) (hm : l.mentioned? platform g = none) (hsource : l.source = source)
    (he : l.edges platform g = Link.resolvedEdges source use r)
    (hr : l.isMissing g = decide (r = .missing)) :
    Applied platform g l (g.linkResolved source use r).1 (g.linkResolved source use r).2 := by
  have hfound : r ≠ .missing → Applied platform g l (g.addEdges (l.edges platform g)) _ :=
    fun hne => .known hs hm (hr.trans (decide_eq_false hne))
  rw [he, ← fst_insertEdges] at hfound
  cases r with
  | declared id => exact hfound nofun
  | external => exact hfound nofun
  | missing => exact hsource ▸ .missing hs hr he

theorem applied_applyLink :
    Applied platform g l (applyLink platform g l) (g.link platform l).2 := by
  unfold applyLink link
  cases hs : g.contains l.source with
  | false => exact .absent hs
  | true =>
    simp only [Bool.not_true, Bool.false_eq_true, if_false]
    cases l with
    | supertype source kind name => exact applied_linkClass hs rfl rfl rfl
    | mention source kind name => exact applied_linkClass hs rfl rfl rfl
    | known edge =>
      have happlied : Applied platform g (.known edge)
          (g.addEdges (if g.contains edge.target then [edge] else [])) _ := .known hs rfl rfl
      rw [← fst_insertEdges] at happlied
      dsimp only [Link.edges] at happlied
      split at happlied
      next => exact happlied
      next ht =>
        -- An edge to a node that is not there is not added.
        have hsame : g.insertEdges [edge] = g.insertEdges [] := by simp [insertEdges, accepts, ht]
        dsimp only
        rw [hsame]
        exact happlied
    | call source dispatch start receiver key => exact applied_linkResolved hs rfl rfl rfl rfl
    | access source owner key => exact applied_linkResolved hs rfl rfl rfl rfl
    | lookup source name member descriptor =>
      have happlied : Applied platform g (.lookup source name member descriptor)
          (g.addEdges ((g.mentioned? platform false name).toList.flatMap fun name =>
            (g.lookedUp name member descriptor).map (⟨source, ·, .uses .reflection⟩))) _ :=
        .known hs rfl rfl
      rw [← fst_insertEdges] at happlied
      dsimp only [Link.edges] at happlied ⊢
      cases hm : g.mentioned? platform false name with
      | none =>
        rw [hm] at happlied
        exact happlied
      | some target =>
        rw [hm, Option.toList_some, List.flatMap_singleton] at happlied
        exact happlied

/-- The edges that the link stands for are added, if its source is there. -/
theorem Applied.mem_edges (h : Applied platform g l g' fresh) :
    x ∈ g'.edges ↔ x ∈ g.edges ∨ g.contains l.source = true ∧ x ∈ l.edges platform g := by
  cases h with
  | absent hs => simp [hs]
  | @mention name hs hm _ =>
    rw [mem_addEdges, edges_provide, hs]
    refine or_congr_right ⟨fun hx => ⟨rfl, hx.1⟩, fun hx => ⟨hx.2, ?_⟩⟩
    obtain ⟨hsource, _, htarget⟩ := Link.fits_of_mem_edges hx.2
    refine ⟨contains_provide.mpr (.inr (hsource ▸ hs)), contains_provide.mpr ?_⟩
    refine htarget.imp_left ?_
    rintro ⟨_, hname, ht⟩
    rw [ht, Option.some.inj (hname.symm.trans hm)]
  | known hs hnone _ =>
    rw [mem_addEdges, hs]
    refine or_congr_right ⟨fun hx => ⟨rfl, hx.1⟩, fun hx => ⟨hx.2, ?_⟩⟩
    obtain ⟨hsource, _, htarget⟩ := Link.fits_of_mem_edges hx.2
    refine ⟨hsource ▸ hs, htarget.resolve_left ?_⟩
    rintro ⟨_, hname, _⟩
    cases hnone.symm.trans hname
  | missing _ _ he => simp [he]

/-- What is new comes before all other edges. -/
theorem Applied.edges_eq (h : Applied platform g l g' fresh) :
    g'.edges = fresh.reverse ++ g.edges := by
  cases h with
  | absent => rfl
  | mention => rw [edges_addEdges_eq, edges_provide]
  | known => exact edges_addEdges_eq
  | missing => exact edges_recordMissing

theorem Applied.extension (h : Applied platform g l g' fresh) :
    Extension platform l.inHierarchy g g' := by
  cases h with
  | absent => exact .refl g
  | mention _ hm _ =>
    exact (provide_extension (Link.spec_of_mentioned? hm).2).trans (.of_node?_eq node?_addEdges)
  | known => exact .of_node?_eq node?_addEdges
  | missing => exact .of_node?_eq node?_recordMissing

theorem Applied.wellFormed (h : Applied platform g l g' fresh) (hg : g.WellFormed) :
    g'.WellFormed := by
  cases h with
  | absent => exact hg
  | mention => exact hg.provide.addEdges
  | known => exact hg.addEdges
  | missing => exact hg.recordMissing

/-- A mention never leads to the root of the hierarchy. -/
theorem Applied.contains_objectClass (h : Applied platform g l g' fresh) :
    g'.contains (.class_ objectClass) = g.contains (.class_ objectClass) := by
  cases h with
  | absent => rfl
  | mention _ hm _ =>
    rw [contains_addEdges, Bool.eq_iff_iff, contains_provide]
    refine or_iff_right fun heq => (Link.spec_of_mentioned? hm).1 ?_
    exact (NodeId.class_.inj heq).symm
  | known => rw [contains_addEdges]
  | missing => rw [contains_recordMissing]

theorem mem_applyLink : x ∈ (applyLink platform g l).edges ↔
    x ∈ g.edges ∨ g.contains l.source = true ∧ x ∈ l.edges platform g :=
  applied_applyLink.mem_edges

theorem applyLink_extension : Extension platform l.inHierarchy g (applyLink platform g l) :=
  applied_applyLink.extension

theorem WellFormed.applyLink (hg : g.WellFormed) : (applyLink platform g l).WellFormed :=
  applied_applyLink.wellFormed hg

variable {links : List Link}

theorem fst_linkAll : (g.linkAll platform links).1 = applyLinks platform g links := by
  induction links generalizing g with
  | nil => rfl
  | cons l links ih => exact ih

/-- What linking reports as new is what it puts before the edges that were there. -/
theorem edges_applyLinks : (applyLinks platform g links).edges =
    (g.linkAll platform links).2.reverse ++ g.edges := by
  induction links generalizing g with
  | nil => rfl
  | cons l links ih =>
    have hrest : (applyLinks platform (applyLink platform g l) links).edges = _ := ih
    rw [applied_applyLink.edges_eq] at hrest
    rw [linkAll, List.reverse_append, List.append_assoc]
    exact hrest

theorem applyLinks_extension (hb : ∀ l ∈ links, l.inHierarchy = true → b = true) :
    Extension platform b g (applyLinks platform g links) := by
  induction links generalizing g with
  | nil => exact .refl g
  | cons l links ih =>
    have hl : Extension platform b g (applyLink platform g l) := by
      cases hh : l.inHierarchy with
      | false => exact (hh ▸ applyLink_extension (l := l)).weaken
      | true => exact hb l List.mem_cons_self hh ▸ hh ▸ applyLink_extension (l := l)
    exact hl.trans (ih fun k hk => hb k (List.mem_cons_of_mem l hk))

theorem WellFormed.applyLinks (hg : g.WellFormed) : (applyLinks platform g links).WellFormed := by
  induction links generalizing g with
  | nil => exact hg
  | cons l links ih => exact ih hg.applyLink

theorem contains_objectClass_applyLinks : (applyLinks platform g links).contains (.class_ objectClass) =
    g.contains (.class_ objectClass) := by
  induction links generalizing g with
  | nil => rfl
  | cons l links ih => exact ih.trans applied_applyLink.contains_objectClass

end Graph

end Winnow
