import Winnow.Proofs.Marking.Remark

/-!
# Marking again when nothing changed

With no edge removed and none added, marking again looks once more at what the live
classes run for the calls seen, and marks whatever of that is not kept yet. So it
leaves a table as it is just when dispatch asks for nothing new.
-/
namespace Winnow

theorem SortedSet.filter_eq_self {α : Type} [Ord α] {p : α → Bool} {s : SortedSet α}
    (h : ∀ a ∈ s, p a = true) : s.filter p = s :=
  SortedSet.ext_toList (List.filter_eq_self.mpr h)

theorem SortedMap.filter_eq_self {κ β : Type} [Ord κ] {p : κ → β → Bool} {m : SortedMap κ β}
    (h : ∀ e ∈ m.toList, p e.1 e.2 = true) : m.filter p = m :=
  SortedMap.ext_toList (List.filter_eq_self.mpr h)

namespace Marking

open Graph

variable {g : Graph} {h : Hierarchy} {m m' : Marking} {t : CounterTable} {id : NodeId}
  {l : Liveness} {P : NodeId → Prop}

/-- The table fits the graph: everything in it is there and kept, and so is every placeholder. -/
structure Sits (g : Graph) (t : CounterTable) : Prop where
  roots : ∀ id ∈ t.roots, g.contains id = true
  proper : ∀ id r, t.retention.get? id = some r →
    r.isKept = true ∧ ∃ n, g.node? id = some n ∧ effectiveState n r.state = r.state
  placeholders : ∀ n ∈ g.nodes, isUnresolved n = true → t.isKept n.id = true

/-- The marking of a table that fits its graph. -/
def resumed (g : Graph) (t : CounterTable) : Marking where
  roots := t.roots
  marks := t.retention
  liveness := .ofKept g t.roots.toList t.kept

theorem isMarked_resumed : (resumed g t).isMarked id = t.isKept id := by
  have hmarks : (resumed g t).marks = t.retention := rfl
  unfold isMarked CounterTable.isKept CounterTable.state?
  rw [hmarks]
  cases t.retention.get? id with
  | none => rfl
  | some r => cases hr : r.isKept <;> simp [Option.filter, hr]

theorem markedIds_resumed : (resumed g t).markedIds = t.kept := by
  unfold CounterTable.kept CounterTable.keptStates markedIds
  rw [List.map_map]
  rfl

section Sits

variable (ht : Sits g t)
include ht

theorem Sits.contains {e : NodeId × Retention} (he : e ∈ t.retention.toList) :
    e.2.isKept = true ∧ g.contains e.1 = true := by
  obtain ⟨hr, n, hn, -⟩ := ht.proper e.1 e.2 (SortedMap.mem_toList_iff.mp he)
  exact ⟨hr, contains_iff_node?.mpr ⟨n, hn⟩⟩

theorem Sits.restore_eq : restore g t = resumed g t := by
  have hroots : t.roots.filter g.contains = t.roots := SortedSet.filter_eq_self ht.roots
  have hmarks : (t.retention.filter fun id _ => g.contains id) = t.retention :=
    SortedMap.filter_eq_self fun e he => (ht.contains he).2
  rw [restore, hroots, hmarks, resumed, ← markedIds_resumed (g := g)]
  rfl

theorem Sits.proper_resumed : (resumed g t).Proper g := ht.proper

theorem Sits.table_resumed : (resumed g t).table g = t := by
  have hroots : t.roots.filter g.contains = t.roots := SortedSet.filter_eq_self ht.roots
  have hmarks : (t.retention.filter fun id r => r.isKept && g.contains id) = t.retention :=
    SortedMap.filter_eq_self fun e he => by simp [ht.contains he]
  unfold table
  rw [show (resumed g t).roots = t.roots from rfl, show (resumed g t).marks = t.retention from rfl,
    hroots, hmarks]

theorem Sits.newPlaceholders_eq : (resumed g t).newPlaceholders g = [] := by
  rw [newPlaceholders, List.filter_eq_nil_iff]
  intro id hid
  obtain ⟨n, hn, rfl⟩ := List.mem_map.mp hid
  obtain ⟨hmem, hu⟩ := List.mem_filter.mp hn
  simp [isMarked_resumed, ht.placeholders n hmem hu]

/-- With no change to follow, only dispatch is looked at again. -/
theorem Sits.remark_eq : (remark g h (restore g t) {}).1 =
    (demandEach g dispatchDemand (resumed g t)
      (dispatched g h (resumed g t).liveness)).drain g h := by
  have hunmark : ∀ m : Marking, m.unmark [] = m := fun m => by
    unfold unmark
    rw [SortedMap.filter_eq_self (by simp)]
  have hsurviving : surviving {} (resumed g t) = resumed g t := by
    unfold surviving
    rw [SortedSet.filter_eq_self (by simp)]
    exact hunmark _
  have hdeleted : overDeleted g h (resumed g t) [] = [] := by
    unfold overDeleted
    rw [List.filter_nil, List.flatMap_nil, breadthFirst]
  have hrefreshed : refreshed g (resumed g t) = resumed g t := by
    unfold refreshed
    rw [markedIds_resumed]
    rfl
  have hsupported : supported g (resumed g t) [] [] = resumed g t := by
    show keepAll g (refreshed g (resumed g t)) _ = _
    rw [hrefreshed]
    show keepAll g (resumed g t) (((resumed g t).newPlaceholders g).map _) = _
    rw [ht.newPlaceholders_eq]
    rfl
  rw [ht.restore_eq, remark_fst, hsurviving]
  show rederive g h ((resumed g t).unmark (overDeleted g h (resumed g t) []))
    (overDeleted g h (resumed g t) []) [] = _
  rw [hdeleted, hunmark, rederive_eq, restarted, hsupported]

end Sits

theorem mem_dispatched (hf : h.Functional) : id ∈ dispatched g h l ↔
    ∃ class_ ∈ l.live, ∃ receiver decl, (receiver, decl) ∈ l.callSites ∧
      h.isSubtype class_ receiver = true ∧ g.implementationOf h class_ decl = some id := by
  simp only [dispatched, List.mem_flatMap, Prod.exists, Liveness.mem_runOn hf]
  constructor
  · rintro ⟨receiver, decl, hcall, class_, hlive, hsub, hi⟩
    exact ⟨class_, hlive, receiver, decl, hcall, hsub, hi⟩
  · rintro ⟨class_, hlive, receiver, decl, hcall, hsub, hi⟩
    exact ⟨receiver, decl, hcall, class_, hlive, hsub, hi⟩

theorem forall_dispatched_iff (hf : h.Functional) :
    (∀ id ∈ dispatched g h l, P id) ↔ l.RunsOnly g h P := by
  constructor
  · intro hd class_ hlive receiver decl hcall hsub id hi
    exact hd id ((mem_dispatched hf).mpr ⟨class_, hlive, receiver, decl, hcall, hsub, hi⟩)
  · intro hr id hid
    obtain ⟨class_, hlive, receiver, decl, hcall, hsub, hi⟩ := (mem_dispatched hf).mp hid
    exact hr class_ hlive receiver decl hcall hsub id hi

theorem demandEach_dispatchDemand {ids : List NodeId} (hm : ∀ id ∈ ids, m.isMarked id = true) :
    demandEach g dispatchDemand m ids = m := by
  induction ids with
  | nil => rfl
  | cons id ids ih =>
    have hid : dispatchDemand m id = [] := if_pos (hm id List.mem_cons_self)
    show demandEach g dispatchDemand (m.keepAll g (dispatchDemand m id)) ids = m
    rw [hid]
    exact ih fun k hk => hm k (List.mem_cons_of_mem id hk)

theorem drain_of_queue (hq : m.queue = []) : m.drain g h = m := by
  rw [drain]
  split
  next => rfl
  next hq' => simp [hq] at hq'

theorem Proper.step (hm : m.Proper g) (hs : Step g h m m') : m'.Proper g := by
  cases hs with
  | absent => exact hm
  | @pass id rest n edges liveness demands demands' =>
    have hm' : Proper g { m with queue := rest, liveness := liveness } := hm
    exact hm'.keepAll demands'

section Idle

variable (ht : Sits g t) (hf : h.Functional)
include ht hf

theorem Sits.remark_of_runsOnly
    (hr : (resumed g t).liveness.RunsOnly g h (t.isKept · = true)) :
    (remark g h (restore g t) {}).1 = resumed g t := by
  have hmarked : ∀ id ∈ dispatched g h (resumed g t).liveness, (resumed g t).isMarked id = true := by
    rw [forall_dispatched_iff hf]
    exact hr.mono fun id hid => isMarked_resumed.trans hid
  rw [ht.remark_eq, demandEach_dispatchDemand hmarked, drain_of_queue rfl]

/-- What dispatch asks for is kept afterwards. -/
theorem Sits.isKept_of_dispatched (hid : id ∈ dispatched g h (resumed g t).liveness) :
    ((remark g h (restore g t) {}).1.table g).isKept id = true := by
  obtain ⟨class_, -, receiver, decl, -, -, hi⟩ := (mem_dispatched hf).mp hid
  have hin : g.contains id = true := by
    obtain ⟨k, -, hk⟩ := Option.bind_eq_some_iff.mp hi
    exact contains_of_implementation hk
  have hmeets := meets_demandEach (g := g) (f := dispatchDemand) (m := resumed g t) hid
    (d := ⟨id, .full⟩) fun m' hm' => by
      by_cases hmark : m'.isMarked id = true
      · refine .inl fun n hn => ?_
        have hp := hm'.proper ht.proper_resumed
        exact has_of_le (KeepState.le_full _)
          (hp.has_full (isClass_of_implementationOf hi) (hp.isMarked_iff.mp hmark))
      · exact .inr (by simp [dispatchDemand, hmark])
  have hhas := hmeets.has_of_contains hin
  have hproper := (demands_demandEach (f := dispatchDemand) (resumed g t)
    (dispatched g h (resumed g t).liveness)).proper ht.proper_resumed
  have hrun := drain_run (g := g) (h := h) (demandEach g dispatchDemand (resumed g t)
    (dispatched g h (resumed g t).liveness))
  have hlast := run_induction (P := fun m => m.Proper g ∧ m.has id .full)
    (fun m m' hm hs => ⟨hm.1.step hs, (step_leadsTo hf hs).1 _ _ hm.2⟩) hrun ⟨hproper, hhas⟩
  rw [← ht.remark_eq] at hlast
  obtain ⟨r, hr, -⟩ := hlast.1.keeps_table.mpr hlast.2
  rw [CounterTable.isKept, hr]
  rfl

/-- A table is left as it is just when all that the live classes run is kept already. -/
theorem Sits.remark_iff :
    (((remark g h (restore g t) {}).1.table g).roots = t.roots ∧
      ∀ id, ((remark g h (restore g t) {}).1.table g).state? id = t.state? id) ↔
    (resumed g t).liveness.RunsOnly g h (t.isKept · = true) := by
  constructor
  · rintro ⟨-, hstate⟩
    rw [← forall_dispatched_iff hf]
    intro id hid
    have hkept := ht.isKept_of_dispatched hf hid
    rwa [CounterTable.isKept, hstate] at hkept
  · intro hr
    rw [ht.remark_of_runsOnly hf hr, ht.table_resumed]
    exact ⟨rfl, fun _ => rfl⟩

end Idle

end Marking

end Winnow
