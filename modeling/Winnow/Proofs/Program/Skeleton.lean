import Winnow.Proofs.Program.Linked

/-!
# The hierarchy, edge by edge

The edges of the skeleton are those that the units say, in the order in which
they say them and each one once; which classes are there makes no difference.
-/
namespace Winnow

/-- The class that a supertype leads to: none for the root of the hierarchy, and for what names no
class. -/
def supertypeOf (name : String) : Option String :=
  (Descriptor.elementClass name).filter (· ≠ objectClass)

/-- The edges that a unit says about its place in the hierarchy. -/
def CompiledUnit.supertypeEdges (u : CompiledUnit) : List Edge :=
  (u.superclass.toList.filterMap supertypeOf).map (⟨u.id, .class_ ·, .super⟩) ++
    (u.interfaces.filterMap supertypeOf).map (⟨u.id, .class_ ·, .implements⟩)

theorem CompiledUnit.of_mem_supertypeEdges {u : CompiledUnit} {e : Edge} (he : e ∈ u.supertypeEdges) :
    e.source = u.id ∧ e.target.isClass = true := by
  rcases List.mem_append.mp he with he | he
  · obtain ⟨_, _, rfl⟩ := List.mem_map.mp he
    exact ⟨rfl, rfl⟩
  · obtain ⟨_, _, rfl⟩ := List.mem_map.mp he
    exact ⟨rfl, rfl⟩

/-- The list with one more edge in front, unless it is there already. -/
def addNew (edges : List Edge) (e : Edge) : List Edge := if e ∈ edges then edges else e :: edges

theorem mem_foldl_addNew {edges acc : List Edge} {e : Edge} :
    e ∈ edges.foldl addNew acc ↔ e ∈ acc ∨ e ∈ edges := by
  induction edges generalizing acc with
  | nil => simp
  | cons k edges ih =>
    rw [List.foldl_cons, ih, List.mem_cons, addNew]
    split
    next hk =>
      constructor
      · exact fun h => h.imp_right .inr
      · rintro (h | rfl | h)
        · exact .inl h
        · exact .inl hk
        · exact .inr h
    next =>
      rw [List.mem_cons, ← or_assoc]
      exact or_congr_left or_comm

theorem filter_foldl_addNew {p : Edge → Bool} {edges acc : List Edge} :
    (edges.foldl addNew acc).filter p = (edges.filter p).foldl addNew (acc.filter p) := by
  induction edges generalizing acc with
  | nil => rfl
  | cons e edges ih =>
    rw [List.foldl_cons, ih, List.filter_cons]
    cases hp : p e with
    | true =>
      rw [if_pos rfl, List.foldl_cons]
      congr 1
      have hmem : e ∈ acc.filter p ↔ e ∈ acc := by simp [hp]
      unfold addNew
      by_cases he : e ∈ acc
      · rw [if_pos he, if_pos (hmem.mpr he)]
      · rw [if_neg he, if_neg (mt hmem.mp he), List.filter_cons_of_pos hp]
    | false =>
      rw [if_neg (by simp)]
      congr 1
      unfold addNew
      split
      · rfl
      · rw [List.filter_cons_of_neg (by simp [hp])]

namespace Graph

variable {g : Graph} {platform : Platform} {u : CompiledUnit}

theorem mentioned?_inHierarchy (name : String) :
    g.mentioned? platform true name = supertypeOf name := by
  unfold mentioned? supertypeOf
  cases Descriptor.elementClass name with
  | none => rfl
  | some n =>
    simp only [Bool.or_true, Bool.true_or, if_true, Option.bind_eq_bind, Option.bind_some]
    by_cases hn : n = objectClass
    · simp [hn, Option.filter]
    · simp [hn, Option.filter]

theorem edges_linkClass_supertype {source : NodeId} {kind : EdgeKind} {name : String}
    (hs : g.contains source = true) :
    (g.linkClass platform true source kind name).1.edges =
      ((supertypeOf name).toList.map (⟨source, .class_ ·, kind⟩ : String → Edge)).foldl addNew
        g.edges := by
  unfold linkClass
  rw [mentioned?_inHierarchy]
  cases supertypeOf name with
  | none => rfl
  | some n =>
    have hsource : (g.provide platform n).contains source = true := contains_provide.mpr (.inr hs)
    have htarget : (g.provide platform n).contains (.class_ n) = true :=
      contains_provide.mpr (.inl rfl)
    simp only [fst_insertEdges_singleton, addEdge, accepts, hsource, htarget, hasEdge, edges_provide,
      Option.toList_some, List.map_cons, List.map_nil, List.foldl_cons, List.foldl_nil, addNew]
    by_cases he : (⟨source, .class_ n, kind⟩ : Edge) ∈ g.edges
    · simp [he]
    · simp [he]

theorem edges_applyLinks_hierarchyLinks (hu : g.contains u.id = true) :
    (g.applyLinks platform u.hierarchyLinks).edges = u.supertypeEdges.foldl addNew g.edges := by
  have hfold : ∀ (kind : EdgeKind) (names : List String) (g : Graph), g.contains u.id = true →
      let r := g.applyLinks platform (names.map (.supertype u.id kind))
      r.contains u.id = true ∧ r.edges =
        ((names.filterMap supertypeOf).map (⟨u.id, .class_ ·, kind⟩ : String → Edge)).foldl addNew
          g.edges := by
    intro kind names
    induction names with
    | nil => exact fun g hg => ⟨hg, rfl⟩
    | cons name names ih =>
      intro g hg
      have hstep : applyLink platform g (.supertype u.id kind name) =
          (g.linkClass platform true u.id kind name).1 := by
        unfold applyLink link
        rw [show (Link.supertype u.id kind name).source = u.id from rfl, hg]
        rfl
      obtain ⟨hcontains, hedges⟩ := ih (g.linkClass platform true u.id kind name).1
        (hstep ▸ applyLink_extension.contains hg)
      rw [applyLinks, List.map_cons, List.foldl_cons, hstep]
      refine ⟨hcontains, hedges.trans ?_⟩
      rw [edges_linkClass_supertype hg, List.filterMap_cons]
      cases supertypeOf name <;> rfl
  rw [CompiledUnit.hierarchyLinks, CompiledUnit.supertypeEdges, List.foldl_append, applyLinks,
    List.foldl_append]
  obtain ⟨hcontains, hedges⟩ := hfold .super u.superclass.toList g hu
  rw [← hedges]
  exact (hfold .implements u.interfaces _ hcontains).2

end Graph

namespace Program

open Graph

variable {p q : Program} {e : Edge} {id : NodeId}

theorem edges_skeleton (p : Program) :
    p.skeleton.edges = (p.roster.flatMap CompiledUnit.supertypeEdges).foldl addNew [] := by
  have hfold : ∀ (us : List CompiledUnit) (g : Graph), (∀ u ∈ us, g.contains u.id = true) →
      (us.foldl (fun g u => g.applyLinks p.platform u.hierarchyLinks) g).edges =
        (us.flatMap CompiledUnit.supertypeEdges).foldl addNew g.edges := by
    intro us
    induction us with
    | nil => exact fun _ _ => rfl
    | cons u us ih =>
      intro g hg
      rw [List.foldl_cons, ih, edges_applyLinks_hierarchyLinks (hg u List.mem_cons_self),
        List.flatMap_cons, List.foldl_append]
      intro v hv
      exact (applyLinks_extension fun _ _ _ => rfl).contains (b := true)
        (hg v (List.mem_cons_of_mem _ hv))
  have hskeleton : p.skeleton =
      p.roster.foldl (fun g u => g.applyLinks p.platform u.hierarchyLinks) p.declared := rfl
  rw [hskeleton, hfold _ _ fun u hu => contains_declared hu u.id_mem_nodeIds, edges_declared]

theorem mem_edges_skeleton : e ∈ p.skeleton.edges ↔ ∃ u ∈ p.roster, e ∈ u.supertypeEdges := by
  rw [edges_skeleton, mem_foldl_addNew, List.mem_flatMap]
  simp

/-- Units that say the same of a class put it in the same place. -/
theorem parents_skeleton_congr
    (h : (p.roster.flatMap CompiledUnit.supertypeEdges).filter (·.source = id) =
      (q.roster.flatMap CompiledUnit.supertypeEdges).filter (·.source = id)) :
    p.skeleton.parents id = q.skeleton.parents id := by
  have houtgoing : p.skeleton.outgoing id = q.skeleton.outgoing id := by
    rw [outgoing, outgoing, edges_skeleton, edges_skeleton, filter_foldl_addNew,
      filter_foldl_addNew, h]
  rw [parents, parents, houtgoing]

end Program

end Winnow
