import Winnow.Link.Basic
import Winnow.Proofs.Graph.Nodes

/-!
# What editing a graph changes

Each edit of a graph is told by the look-ups that it changes and by the edges
that it adds; all else stays. Every edit that linking makes keeps a graph well
formed.
-/
namespace Winnow

/-- Changes the class, if it is one. -/
def Node.mapClass (f : ClassNode → ClassNode) : Node → Node
  | .class_ c => .class_ (f c)
  | .member m => .member m

/-- The class with one more member in its list. -/
def ClassNode.listing (m : MemberNode) (c : ClassNode) : ClassNode :=
  { c with members := c.members.insert m.id }

theorem ClassNode.name_listing (m : MemberNode) (c : ClassNode) : (c.listing m).name = c.name := rfl

namespace Graph

variable {g g' : Graph} {id x : NodeId} {n : Node} {e : Edge} {name : String}

theorem contains_congr (h : g'.nodes.map Node.id = g.nodes.map Node.id) (id : NodeId) :
    g'.contains id = g.contains id := by
  rw [Bool.eq_iff_iff, contains_iff_mem, contains_iff_mem, h]

section Update

theorem ids_update {f : Node → Node} (hf : ∀ n, n.id = id → (f n).id = id) :
    (g.update id f).nodes.map Node.id = g.nodes.map Node.id := by
  simp only [update, List.map_map]
  refine List.map_congr_left fun n _ => ?_
  by_cases hn : n.id = id
  · simp [hn, hf n hn]
  · simp [hn]

theorem node?_update {f : Node → Node} (hf : ∀ n, n.id = id → (f n).id = id) :
    (g.update id f).node? x = if x = id then (g.node? id).map f else g.node? x := by
  simp only [node?, update]
  induction g.nodes with
  | nil => simp
  | cons n nodes ih =>
    by_cases hn : n.id = id
    · by_cases hx : x = id
      · simp [hn, hf n hn, hx]
      · have hne : ¬ id = x := fun e => hx e.symm
        simpa [hn, hf n hn, hx, hne] using ih
    · by_cases hx : x = id
      · have hne : ¬ n.id = x := hx ▸ hn
        simpa [hn, hx, hne] using ih
      · by_cases hnx : n.id = x
        · simp [hnx, hx]
        · simpa [hn, hx, hnx] using ih

theorem updateClass_eq (f : ClassNode → ClassNode) :
    g.updateClass name f = g.update (.class_ name) (Node.mapClass f) := rfl

theorem id_mapClass {f : ClassNode → ClassNode} (hf : ∀ c, (f c).name = c.name) (n : Node) :
    (n.mapClass f).id = n.id := by
  cases n with
  | class_ c => simp [Node.mapClass, Node.id, ClassNode.id, hf]
  | member m => rfl

theorem ids_updateClass {f : ClassNode → ClassNode} (hf : ∀ c, (f c).name = c.name) :
    (g.updateClass name f).nodes.map Node.id = g.nodes.map Node.id :=
  ids_update fun n hn => (id_mapClass hf n).trans hn

theorem node?_updateClass {f : ClassNode → ClassNode} (hf : ∀ c, (f c).name = c.name) :
    (g.updateClass name f).node? x =
      if x = .class_ name then (g.node? x).map (Node.mapClass f) else g.node? x := by
  rw [updateClass_eq, node?_update fun n hn => (id_mapClass hf n).trans hn]
  split
  next hx => rw [hx]
  next => rfl

theorem member_mem_updateClass {f : ClassNode → ClassNode} {m : MemberNode} :
    Node.member m ∈ (g.updateClass name f).nodes ↔ Node.member m ∈ g.nodes := by
  simp only [updateClass, update, List.mem_map]
  constructor
  · rintro ⟨n, hn, he⟩
    cases n with
    | class_ c => split at he <;> cases he
    | member k =>
      obtain rfl : k = m := by
        split at he <;> simpa using he
      exact hn
  · intro hm
    exact ⟨.member m, hm, by split <;> rfl⟩

end Update

section Insert

theorem ids_insert : (g.insert n).nodes.map Node.id =
    if g.contains n.id then g.nodes.map Node.id else g.nodes.map Node.id ++ [n.id] := by
  unfold insert
  split
  · exact ids_update fun _ _ => rfl
  · simp

theorem node?_insert : (g.insert n).node? x = if x = n.id then some n else g.node? x := by
  unfold insert
  split
  next hc =>
    rw [node?_update fun _ _ => rfl]
    obtain ⟨k, hk⟩ := contains_iff_node?.mp hc
    simp [hk]
  next hc =>
    have hnone : g.node? n.id = none := node?_eq_none_iff.mpr (by simpa using hc)
    simp only [node?, List.find?_append]
    by_cases hx : x = n.id
    · subst hx
      rw [node?] at hnone
      simp [hnone]
    · have hne : ¬ n.id = x := fun e => hx e.symm
      simp [hx, hne]

theorem contains_insert : (g.insert n).contains x = true ↔ x = n.id ∨ g.contains x = true := by
  rw [contains_iff_node?, contains_iff_node?, node?_insert]
  split
  next hx => simp [hx]
  next hx => simp [hx]

@[simp] theorem edges_insert : (g.insert n).edges = g.edges := by
  unfold insert
  split <;> rfl

theorem mem_insert {k : Node} (hk : k ∈ (g.insert n).nodes) : k = n ∨ k ∈ g.nodes := by
  unfold insert at hk
  split at hk
  · simp only [update, List.mem_map] at hk
    obtain ⟨j, hj, hjk⟩ := hk
    split at hjk
    · exact .inl hjk.symm
    · exact .inr (hjk ▸ hj)
  · rcases List.mem_append.mp hk with hk | hk
    · exact .inr hk
    · exact .inl (by simpa using hk)

end Insert

section Declare
variable {m : MemberNode} {c : ClassNode}

theorem addMember_eq : g.addMember m =
    (g.updateClass m.id.className (.listing m)).insert (.member m) := rfl

theorem node?_addMember : (g.addMember m).node? x =
    if x = m.id then some (.member m)
    else if x = .class_ m.id.className then (g.node? x).map (Node.mapClass (.listing m))
    else g.node? x := by
  rw [addMember_eq, node?_insert, node?_updateClass (ClassNode.name_listing m)]
  rfl

@[simp] theorem edges_addMember : (g.addMember m).edges = g.edges := by
  simp [addMember, updateClass, update]

theorem contains_addMember :
    (g.addMember m).contains x = true ↔ x = m.id ∨ g.contains x = true := by
  rw [addMember_eq, contains_insert, contains_congr (ids_updateClass (ClassNode.name_listing m))]
  rfl

theorem Coherent.insert (hg : g.Coherent) : (g.insert n).Coherent where
  distinct := by
    rw [ids_insert]
    split
    next => exact hg.distinct
    next hc =>
      have hnot : n.id ∉ g.nodes.map Node.id := fun hmem => hc (contains_iff_mem.mpr hmem)
      rw [List.nodup_append]
      refine ⟨hg.distinct, by simp, fun a ha b hb => ?_⟩
      rintro rfl
      exact hnot (by simpa [List.mem_singleton.mp hb] using ha)
  ends e he := by
    rw [edges_insert] at he
    exact ⟨contains_insert.mpr (.inr (hg.ends e he).1), contains_insert.mpr (.inr (hg.ends e he).2)⟩

/-- Nodes may be added as long as members come with their owners. -/
theorem WellFormed.insert (hg : g.WellFormed) (hn : ∀ m, n = .member m →
    m.id.isClass = false ∧ g.contains (.class_ m.id.className) = true) : (g.insert n).WellFormed where
  distinct := hg.coherent.insert.distinct
  unique := by
    rw [edges_insert]
    exact hg.unique
  ends := hg.coherent.insert.ends
  owned k hk := by
    rcases mem_insert hk with hk | hk
    · exact ⟨(hn k hk.symm).1, contains_insert.mpr (.inr (hn k hk.symm).2)⟩
    · exact ⟨(hg.owned k hk).1, contains_insert.mpr (.inr (hg.owned k hk).2)⟩

theorem Coherent.updateClass (hg : g.Coherent) {f : ClassNode → ClassNode}
    (hf : ∀ c, (f c).name = c.name) : (g.updateClass name f).Coherent where
  distinct := by
    rw [ids_updateClass hf]
    exact hg.distinct
  ends e he := by
    rw [contains_congr (ids_updateClass hf), contains_congr (ids_updateClass hf)]
    exact hg.ends e he

theorem WellFormed.updateClass (hg : g.WellFormed) {f : ClassNode → ClassNode}
    (hf : ∀ c, (f c).name = c.name) : (g.updateClass name f).WellFormed where
  distinct := (hg.coherent.updateClass hf).distinct
  unique := hg.unique
  ends := (hg.coherent.updateClass hf).ends
  owned m hm := by
    rw [contains_congr (ids_updateClass hf)]
    exact hg.owned m (member_mem_updateClass.mp hm)

theorem WellFormed.addClass (hg : g.WellFormed) : (g.addClass c).WellFormed :=
  hg.insert (by simp)

theorem WellFormed.addMember (hg : g.WellFormed) (hid : m.id.isClass = false)
    (ho : g.contains (.class_ m.id.className) = true) : (g.addMember m).WellFormed := by
  rw [addMember_eq]
  refine WellFormed.insert (hg.updateClass (ClassNode.name_listing m)) fun k hk => ?_
  obtain rfl : m = k := by simpa using hk
  refine ⟨hid, ?_⟩
  rw [contains_congr (ids_updateClass (ClassNode.name_listing m))]
  exact ho

theorem wellFormed_empty : empty.WellFormed := ⟨List.nodup_nil, List.nodup_nil, nofun, nofun⟩

end Declare

section Provide
variable {platform : Platform}

/-- The node that stands for a class that no unit describes. -/
def standIn (platform : Platform) (name : String) : Node :=
  .class_ (.placeholder name (if platform.recognizes name then .library else .unresolved))

@[simp] theorem id_standIn : (standIn platform name).id = .class_ name := rfl

theorem node?_provide : (g.provide platform name).node? x =
    if g.contains (.class_ name) = false ∧ x = .class_ name then some (standIn platform name)
    else g.node? x := by
  unfold provide
  by_cases hc : g.contains (.class_ name) = true
  · simp [hc]
  · have hc' : g.recordWarning.contains (.class_ name) = g.contains (.class_ name) := rfl
    simp only [hc, Bool.false_eq_true, if_false, ensureClass, hc', true_and, addClass]
    by_cases hp : platform.recognizes name = true
    · simp only [hp, if_true, node?_insert, standIn]
      rfl
    · simp only [hp, Bool.false_eq_true, if_false, node?_insert, standIn]
      rfl

@[simp] theorem edges_provide : (g.provide platform name).edges = g.edges := by
  unfold provide ensureClass addClass
  split
  · rfl
  · split
    · simp
    · split <;> simp [recordWarning]

theorem contains_provide :
    (g.provide platform name).contains x = true ↔ x = .class_ name ∨ g.contains x = true := by
  rw [contains_iff_node?, contains_iff_node?, node?_provide]
  by_cases hx : x = .class_ name
  · subst hx
    cases hc : g.contains (.class_ name) with
    | true => simpa [hc] using contains_iff_node?.mp hc
    | false => simp
  · simp [hx]

theorem WellFormed.provide (hg : g.WellFormed) : (g.provide platform name).WellFormed := by
  unfold Graph.provide ensureClass
  split
  · exact hg
  · split
    · exact hg.addClass
    · split
      · exact ⟨hg.distinct, hg.unique, hg.ends, hg.owned⟩
      · exact WellFormed.addClass (g := g.recordWarning) ⟨hg.distinct, hg.unique, hg.ends, hg.owned⟩

end Provide

section Edges
variable {edges : List Edge}

@[simp] theorem nodes_addEdge : (g.addEdge e).nodes = g.nodes := by
  unfold addEdge
  split <;> rfl

@[simp] theorem nodes_addEdges : (g.addEdges edges).nodes = g.nodes := by
  induction edges generalizing g with
  | nil => rfl
  | cons e edges ih => exact ih.trans nodes_addEdge

@[simp] theorem node?_addEdge : (g.addEdge e).node? = g.node? := by
  funext x
  simp [node?]

@[simp] theorem contains_addEdge : (g.addEdge e).contains = g.contains := by
  funext x
  simp [contains]

@[simp] theorem node?_addEdges : (g.addEdges edges).node? = g.node? := by
  funext x
  simp [node?]

@[simp] theorem contains_addEdges : (g.addEdges edges).contains = g.contains := by
  funext x
  simp [contains]

theorem mem_addEdge {x : Edge} : x ∈ (g.addEdge e).edges ↔
    x ∈ g.edges ∨ x = e ∧ g.contains e.source = true ∧ g.contains e.target = true := by
  unfold addEdge accepts hasEdge
  split
  next h =>
    simp only [Bool.and_eq_true] at h
    simp only [List.mem_cons, h.1.1, h.1.2, and_true]
    tauto
  next h =>
    refine ⟨.inl, fun hx => hx.elim (fun hx => hx) ?_⟩
    rintro ⟨rfl, hs, ht⟩
    simpa [hs, ht] using h

theorem mem_addEdges {x : Edge} : x ∈ (g.addEdges edges).edges ↔
    x ∈ g.edges ∨ x ∈ edges ∧ g.contains x.source = true ∧ g.contains x.target = true := by
  induction edges generalizing g with
  | nil => simp [addEdges]
  | cons e edges ih =>
    rw [addEdges, List.foldl_cons, ← addEdges, ih, mem_addEdge, contains_addEdge, List.mem_cons]
    constructor
    · rintro ((hx | ⟨rfl, hx⟩) | hx)
      · exact .inl hx
      · exact .inr ⟨.inl rfl, hx⟩
      · exact .inr ⟨.inr hx.1, hx.2⟩
    · rintro (hx | ⟨rfl | hx, hc⟩)
      · exact .inl (.inl hx)
      · exact .inl (.inr ⟨rfl, hc⟩)
      · exact .inr ⟨hx, hc⟩

theorem fst_insertEdges : (g.insertEdges edges).1 = g.addEdges edges := by
  induction edges generalizing g with
  | nil => rfl
  | cons e edges ih =>
    rw [insertEdges, addEdges, List.foldl_cons, ← addEdges]
    split
    next => exact ih
    next h => rw [ih, addEdge, if_neg h]

theorem fst_insertEdges_singleton : (g.insertEdges [e]).1 = g.addEdge e := fst_insertEdges

/-- The edges that are new come first, the last one foremost. -/
theorem edges_addEdges_eq :
    (g.addEdges edges).edges = (g.insertEdges edges).2.reverse ++ g.edges := by
  induction edges generalizing g with
  | nil => rfl
  | cons e edges ih =>
    rw [insertEdges, addEdges, List.foldl_cons, ← addEdges, ih]
    split
    next h => simp [addEdge, h]
    next h => rw [addEdge, if_neg h]

/-- An edge of another kind leaves a selection of edges as it was, in order. -/
theorem filter_addEdge {p : Edge → Bool} (he : p e = false) :
    (g.addEdge e).edges.filter p = g.edges.filter p := by
  unfold addEdge
  split
  · simp [he]
  · rfl

theorem filter_addEdges {p : Edge → Bool} (he : ∀ e ∈ edges, p e = false) :
    (g.addEdges edges).edges.filter p = g.edges.filter p := by
  induction edges generalizing g with
  | nil => rfl
  | cons e edges ih =>
    rw [addEdges, List.foldl_cons, ← addEdges,
      ih fun x hx => he x (List.mem_cons_of_mem e hx), filter_addEdge (he e List.mem_cons_self)]

theorem nodup_addEdge (hg : g.edges.Nodup) : (g.addEdge e).edges.Nodup := by
  unfold addEdge
  split
  next ha =>
    have he : e ∉ g.edges := by
      simp only [accepts, hasEdge, Bool.and_eq_true, Bool.not_eq_true', decide_eq_false_iff_not] at ha
      exact ha.2
    exact List.nodup_cons.mpr ⟨he, hg⟩
  next => exact hg

theorem nodup_addEdges (hg : g.edges.Nodup) : (g.addEdges edges).edges.Nodup := by
  induction edges generalizing g with
  | nil => exact hg
  | cons e edges ih => exact ih (nodup_addEdge hg)

theorem WellFormed.addEdges (hg : g.WellFormed) : (g.addEdges edges).WellFormed where
  distinct := by simpa using hg.distinct
  unique := nodup_addEdges hg.unique
  ends x hx := by
    rw [contains_addEdges]
    rcases mem_addEdges.mp hx with hx | hx
    · exact hg.ends x hx
    · exact hx.2
  owned m hm := by
    rw [contains_addEdges]
    exact hg.owned m (by simpa using hm)

@[simp] theorem nodes_recordMissing : (g.recordMissing id).nodes = g.nodes := by
  unfold recordMissing
  split <;> rfl

@[simp] theorem edges_recordMissing : (g.recordMissing id).edges = g.edges := by
  unfold recordMissing
  split <;> rfl

@[simp] theorem node?_recordMissing : (g.recordMissing id).node? = g.node? := by
  funext x
  simp [node?]

@[simp] theorem contains_recordMissing : (g.recordMissing id).contains = g.contains := by
  funext x
  simp [contains]

theorem WellFormed.recordMissing (hg : g.WellFormed) : (g.recordMissing id).WellFormed := by
  unfold Graph.recordMissing
  split
  · exact ⟨hg.distinct, hg.unique, hg.ends, hg.owned⟩
  · exact hg

end Edges

end Graph

end Winnow
