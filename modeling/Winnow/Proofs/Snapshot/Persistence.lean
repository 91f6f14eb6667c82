import Winnow.Proofs.Incremental.Invariant
import Winnow.Proofs.Snapshot.File

/-!
# A stored graph is the graph

What is stored of a graph, of the tables of its markings and of the files it was made from is
read back as it was. The graph that is put together from it has the same nodes and edges, and the
classes of the program list the members that they listed.
-/
namespace Winnow

namespace Graph

variable {g g' : Graph} {platform : Platform} {b : Bool} {l : Link} {links : List Link}
  {fresh : List Edge}
  {id : NodeId} {u : CompiledUnit} {batch : List CompiledUnit}

/-- What a class lists and what references are counted of is there. -/
structure Anchored (g : Graph) : Prop where
  listed : ∀ name c, g.class? name = some c → ∀ id ∈ c.members,
    id.isClass = false ∧ g.contains id = true
  counted : ∀ id n, g.missingRefs.get? id = some n → 0 < n ∧ g.contains id = true

namespace Anchored

theorem of_eq (hg : g.Anchored) (hn : g'.nodes = g.nodes) (hm : g'.missingRefs = g.missingRefs) :
    g'.Anchored := by
  have hcontains : g'.contains = g.contains := by
    funext id
    rw [contains, contains, hn]
  have hclass : g'.class? = g.class? := by
    funext name
    rw [class?, class?, node?, node?, hn]
  refine ⟨fun name c hc => ?_, fun id n hid => ?_⟩
  · rw [hcontains]
    exact hg.listed name c (hclass ▸ hc)
  · rw [hcontains]
    exact hg.counted id n (hm ▸ hid)

theorem addClass (hg : g.Anchored) {c : ClassNode} (hc : c.members = ∅) :
    (g.addClass c).Anchored where
  listed name k hk id hid := by
    obtain ⟨hn, _⟩ := class?_eq_some hk
    rw [Graph.addClass, node?_insert] at hn
    split at hn
    next =>
      obtain rfl : c = k := by simpa using hn
      rw [hc] at hid
      exact absurd hid (SortedSet.not_mem_empty id)
    next =>
      obtain ⟨hclass, hin⟩ := hg.listed name k (class?_of_node? hn) id hid
      exact ⟨hclass, contains_insert.mpr (.inr hin)⟩
  counted id n hn := by
    rw [Graph.addClass, missingRefs_insert] at hn
    obtain ⟨hpos, hin⟩ := hg.counted id n hn
    exact ⟨hpos, contains_insert.mpr (.inr hin)⟩

theorem addMember (hg : g.Anchored) {m : MemberNode} (hm : m.id.isClass = false) :
    (g.addMember m).Anchored where
  listed name k hk id hid := by
    have hold : ∀ c, g.class? name = some c → id ∈ c.members →
        id.isClass = false ∧ (g.addMember m).contains id = true := by
      intro c hc hmem
      obtain ⟨hclass, hin⟩ := hg.listed name c hc id hmem
      exact ⟨hclass, contains_addMember.mpr (.inr hin)⟩
    obtain ⟨hn, _⟩ := class?_eq_some hk
    rw [node?_addMember] at hn
    split at hn
    next => cases hn
    next =>
      split at hn
      next =>
        obtain ⟨n, hbefore, hlisting⟩ := Option.map_eq_some_iff.mp hn
        cases n with
        | member => cases hlisting
        | class_ c =>
          obtain rfl : c.listing m = k := by simpa [Node.mapClass] using hlisting
          rcases SortedSet.mem_insert.mp hid with rfl | hmem
          · exact ⟨hm, contains_addMember.mpr (.inl rfl)⟩
          · exact hold c (class?_of_node? hbefore) hmem
      next => exact hold k (class?_of_node? hn) hid
  counted id n hn := by
    have hsame : (g.addMember m).missingRefs = g.missingRefs := by
      rw [Graph.addMember, missingRefs_insert]
      rfl
    rw [hsame] at hn
    obtain ⟨hpos, hin⟩ := hg.counted id n hn
    exact ⟨hpos, contains_addMember.mpr (.inr hin)⟩

theorem declare (hg : g.Anchored) {origin : Origin} : (g.declare u origin).Anchored := by
  refine List.foldlRecOn _ _ (hg.addClass rfl) fun g hg m hm => hg.addMember ?_
  exact (CompiledUnit.id_of_mem_memberNodes hm).1

/-- Stand-ins list nothing. -/
theorem extend (hg : g.Anchored) (hext : Extension platform b g g')
    (hm : ∀ id n, g'.missingRefs.get? id = some n → 0 < n ∧ g.contains id = true) :
    g'.Anchored where
  listed name c hc id hid := by
    obtain ⟨hn, _⟩ := class?_eq_some hc
    cases hold : g.node? (.class_ name) with
    | none =>
      obtain ⟨_, heq, _⟩ := hext.introduced _ _ hn hold
      obtain rfl := Node.class_.inj heq
      exact absurd hid (SortedSet.not_mem_empty id)
    | some n =>
      obtain rfl := Option.some.inj ((hext.retains _ _ hold).symm.trans hn)
      obtain ⟨hclass, hin⟩ := hg.listed name c (class?_of_node? hold) id hid
      exact ⟨hclass, hext.contains hin⟩
  counted id n hn := ⟨(hm id n hn).1, hext.contains (hm id n hn).2⟩

/-- A reference that leads nowhere is counted at a node. -/
theorem of_applied (hg : g.Anchored) (h : Applied platform g l g' fresh) : g'.Anchored := by
  refine hg.extend h.extension fun id n hn => ?_
  cases h with
  | absent => exact hg.counted id n hn
  | mention =>
    rw [missingRefs_addEdges, missingRefs_provide] at hn
    exact hg.counted id n hn
  | known =>
    rw [missingRefs_addEdges] at hn
    exact hg.counted id n hn
  | missing hs =>
    rw [recordMissing, if_pos hs, SortedMap.get?_insert] at hn
    split at hn
    next hid =>
      obtain rfl := Option.some.inj hn
      exact ⟨Nat.succ_pos _, hid ▸ hs⟩
    next => exact hg.counted id n hn

theorem applyLinks (hg : g.Anchored) : (applyLinks platform g links).Anchored :=
  List.foldlRecOn _ _ hg fun _ h _ _ => h.of_applied applied_applyLink

theorem cleared (hg : g.Anchored) : (g.cleared u).Anchored where
  listed name c hc id hid := by
    have hbare := sameBare_cleared (g := g) (u := u)
    obtain ⟨d, hd, hmembers⟩ := hbare.class?_members hc
    obtain ⟨hclass, hin⟩ := hg.listed name d hd id (hmembers ▸ hid)
    exact ⟨hclass, by rwa [hbare.contains]⟩
  counted id n hn := by
    rw [sameBare_cleared.contains]
    refine hg.counted id n ?_
    rw [Graph.cleared, (counts_setSignatures _ u).2, withoutBodies_eq_foldl] at hn
    refine List.foldlRecOn (motive := fun r : Graph =>
      ∀ n, r.missingRefs.get? id = some n → g.missingRefs.get? id = some n) _ _ (fun _ h => h)
      (fun r hr x _ n hn => hr n ?_) n hn
    rw [show ((r.clearMissing x).removeEdgesFrom x EdgeKind.isBody).missingRefs =
      r.missingRefs.erase x from rfl, SortedMap.get?_erase] at hn
    split at hn
    next => cases hn
    next => exact hn

theorem relink (hg : g.Anchored) : (g.relink platform u).Anchored := hg.cleared.applyLinks

/-- A stand-in that goes takes nothing of a class's list with it. -/
theorem removeOrphan (hg : g.Anchored) (ho : g.isOrphan id = true) :
    (g.removeNode id).discardWarning.Anchored := by
  obtain ⟨c, hn, _⟩ := isOrphan_iff.mp ho
  have hcontains : ∀ x, (g.removeNode id).discardWarning.contains x = true ↔
      g.contains x = true ∧ x ≠ id := fun x => contains_removeNode hn
  refine ⟨fun name k hk x hx => ?_, fun x n hx => ?_⟩
  · obtain ⟨hnode, _⟩ := class?_eq_some hk
    rw [show (g.removeNode id).discardWarning.node? _ = (g.removeNode id).node? _ from rfl,
      node?_removeNode hn] at hnode
    split at hnode
    next => cases hnode
    next =>
      obtain ⟨hclass, hin⟩ := hg.listed name k (class?_of_node? hnode) x hx
      refine ⟨hclass, (hcontains x).mpr ⟨hin, ?_⟩⟩
      rintro rfl
      rw [← id_of_node? hn] at hclass
      cases hclass
  · have hmissing : (g.removeNode id).discardWarning.missingRefs = g.missingRefs.erase id := by
      rw [discardWarning, removeNode, hn]
    rw [hmissing, SortedMap.get?_erase] at hx
    split at hx
    next => cases hx
    next hne =>
      obtain ⟨hpos, hin⟩ := hg.counted x n hx
      exact ⟨hpos, (hcontains x).mpr ⟨hin, hne⟩⟩

theorem dropOrphans (hg : g.Anchored) (candidates : List NodeId) :
    (g.dropOrphans candidates).1.Anchored := by
  induction candidates generalizing g with
  | nil => exact hg
  | cons id candidates ih =>
    rw [Graph.dropOrphans]
    split
    next ho => exact ih (hg.removeOrphan ho)
    next => exact ih hg

theorem relinkAll (hg : g.Anchored) : (IncrementalRun.relinkAll platform g batch).1.Anchored := by
  unfold IncrementalRun.relinkAll
  refine dropOrphans ?_ _
  refine List.foldlRecOn (motive := fun r : Graph × EdgeDelta => r.1.Anchored) _ _ hg
    fun r h u _ => ?_
  show (r.1.relinkBodies platform u).1.Anchored
  rw [fst_relinkBodies]
  exact h.relink

end Anchored

end Graph

open Graph

namespace Snapshot

variable {g : Graph} {s : Snapshot}

end Snapshot

namespace Graph

variable {g g' : Graph}

end Graph

namespace Snapshot

variable {g : Graph}

end Snapshot

end Winnow
