import Mathlib.Logic.Relation
import Winnow.Graph.Cycle
import Winnow.Proofs.Graph.Nodes

/-!
# A cycle is found exactly if the hierarchy has one

A hierarchy without a cycle is one whose nodes can be ranked so that what is
above a node ranks lower. If no cycle is found, the place in the finish order is
such a rank. What is found lies on a cycle: a node that is finished before one
above it was visited on the way from that one, so each leads to the other.
-/
namespace Winnow

section Walks
variable {α : Type} [DecidableEq α] {next : α → List α} {fresh stack finished : List α}

/-- What is left was there before. -/
theorem mem_fresh_of_finishOrder {r : List α × List α} {x : α}
    (h : finishOrder next fresh stack finished = .ok r) (hx : x ∈ r.1) : x ∈ fresh := by
  fun_induction finishOrder next fresh stack finished with
  | case1 fresh finished => rwa [← Except.ok.inj h] at hx
  | case2 => cases h
  | case3 fresh finished a stack ha hself fresh' ih => exact (mem_without.mp (ih h)).1
  | case4 fresh finished a stack ha ih => exact ih h

/-- A walk that comes to its end has finished all that it met, and met no place next to itself. -/
theorem finishOrder_ok {r : List α × List α} (h : finishOrder next fresh stack finished = .ok r) :
    (∀ a ∈ fresh, a ∉ r.1 → a ∉ next a ∧ a ∈ r.2) ∧ (∀ a ∈ finished, a ∈ r.2) ∧
      ∀ a ∈ stack, a ∉ r.1 ∧ a ∈ r.2 := by
  fun_induction finishOrder next fresh stack finished with
  | case1 fresh finished =>
    obtain rfl := Except.ok.inj h
    exact ⟨fun a ha hn => (hn ha).elim, fun _ ha => ha, nofun⟩
  | case2 => cases h
  | case3 fresh finished a stack ha hself fresh' ih =>
    obtain ⟨hmet, hfin, hstack⟩ := ih h
    refine ⟨fun x hx hn => ?_, hfin, fun x hx => hstack x ?_⟩
    · by_cases hxa : x = a
      · subst hxa
        exact ⟨hself, (hstack x (by simp)).2⟩
      · exact hmet x (mem_without.mpr ⟨hx, hxa⟩) hn
    · exact List.mem_append_right _ hx
  | case4 fresh finished a stack ha ih =>
    obtain ⟨hmet, hfin, hstack⟩ := ih h
    have hin : a ∈ r.2 := by
      refine hfin a ?_
      split
      · assumption
      · exact List.mem_cons_self
    refine ⟨hmet, fun x hx => hfin x ?_, fun x hx => ?_⟩
    · split
      · exact hx
      · exact List.mem_cons_of_mem a hx
    · rcases List.mem_cons.mp hx with rfl | hx
      · exact ⟨fun hr => ha (mem_fresh_of_finishOrder h hr), hin⟩
      · exact hstack x hx

/-- The second place can be walked to from the first. -/
abbrev Leads (next : α → List α) : α → α → Prop := Relation.ReflTransGen fun a b => b ∈ next a

/-- Where a walk stands. A place that is visited and not finished leads to whatever lies above it in
the stack, and waits there for what is next to it, unless that leads back to it. -/
structure Walk (next : α → List α) (ids fresh stack finished : List α) : Prop where
  known : ∀ a ∈ stack, a ∈ ids
  apart : ∀ a ∈ finished, a ∉ fresh
  nodup : finished.Nodup
  closed : ∀ pre a post, finished = pre ++ a :: post → ∀ b ∈ next a, b ∈ post ∨ Leads next b a
  waiting : ∀ a ∈ ids, a ∉ fresh → a ∉ finished → a ∈ stack
  above : ∀ pre a post, stack = pre ++ a :: post → a ∉ pre → a ∉ fresh → a ∉ finished →
    (∀ b ∈ pre, Leads next a b) ∧ ∀ b ∈ next a, b ∈ finished ∨ b ∈ pre ∨ Leads next b a

section Upwards
variable {ids : List α} {a : α}

omit [DecidableEq α] in
/-- A place in the stack that is visited and not finished leads to the top. -/
theorem Walk.leads_top (hw : Walk next ids fresh (a :: stack) finished) {b : α} (hb : b ∈ ids)
    (hf : b ∉ fresh) (hfin : b ∉ finished) : Leads next b a := by
  obtain ⟨pre, post, hs, hpre⟩ := List.eq_append_cons_of_mem (hw.waiting b hb hf hfin)
  cases pre with
  | nil =>
    obtain ⟨rfl, _⟩ := List.cons.inj hs
    exact .refl
  | cons y pre =>
    obtain ⟨rfl, _⟩ := List.cons.inj hs
    exact (hw.above _ b post hs hpre hf hfin).1 a List.mem_cons_self

/-- The first visit to a place: what is next to it and not visited comes on top of it. -/
theorem Walk.visit (hnext : ∀ a ∈ ids, ∀ b ∈ next a, b ∈ ids)
    (hw : Walk next ids fresh (a :: stack) finished) (ha : a ∈ fresh) :
    Walk next ids (without a fresh)
      (((next a).filter (· ∈ without a fresh)).reverse ++ a :: stack) finished := by
  have haid : a ∈ ids := hw.known a List.mem_cons_self
  have hpushed : ∀ b, b ∈ ((next a).filter (· ∈ without a fresh)).reverse ↔
      b ∈ next a ∧ b ∈ without a fresh := by simp
  generalize ((next a).filter (· ∈ without a fresh)).reverse = pushed at hpushed ⊢
  refine ⟨fun x hx => ?_, fun x hx hf => hw.apart x hx (mem_without.mp hf).1, hw.nodup, hw.closed,
    fun x hx hf hfin => ?_, fun pre x post hsplit hpre hf hfin => ?_⟩
  · rcases List.mem_append.mp hx with hx | hx
    · exact hnext a haid x ((hpushed x).mp hx).1
    · exact hw.known x hx
  · rw [List.mem_append]
    by_cases hxa : x = a
    · simp [hxa]
    · exact .inr (hw.waiting x hx (fun hmem => hf (mem_without.mpr ⟨hmem, hxa⟩)) hfin)
  · -- What was pushed is not visited, so the place stands further down.
    have hnot : x ∉ pushed := fun hx => hf ((hpushed x).mp hx).2
    obtain ⟨pre', rfl, hrest⟩ : ∃ pre', pre = pushed ++ pre' ∧ a :: stack = pre' ++ x :: post := by
      rcases List.append_eq_append_iff.mp hsplit with ⟨l, rfl, hl⟩ | ⟨l, hl, hl'⟩
      · exact ⟨l, rfl, hl⟩
      · cases l with
        | nil => exact ⟨[], by simpa using hl.symm, by simpa using hl'.symm⟩
        | cons y l =>
          obtain ⟨rfl, _⟩ := List.cons.inj hl'
          exact (hnot (by simp [hl])).elim
    cases pre' with
    | nil =>
      obtain ⟨rfl, rfl⟩ := List.cons.inj hrest
      refine ⟨fun b hb => .single ((hpushed b).mp (by simpa using hb)).1, fun b hb => ?_⟩
      by_cases hbf : b ∈ without a fresh
      · exact .inr (.inl (by simpa using (hpushed b).mpr ⟨hb, hbf⟩))
      · by_cases hbfin : b ∈ finished
        · exact .inl hbfin
        · refine .inr (.inr ?_)
          by_cases hba : b = a
          · exact hba ▸ .refl
          · exact hw.leads_top (hnext a haid b hb)
              (fun hmem => hbf (mem_without.mpr ⟨hmem, hba⟩)) hbfin
    | cons y pre' =>
      obtain ⟨rfl, rfl⟩ := List.cons.inj hrest
      have hxa : x ≠ a := by rintro rfl; simp at hpre
      have hxf : x ∉ fresh := fun hmem => hf (mem_without.mpr ⟨hmem, hxa⟩)
      obtain ⟨hleads, hwait⟩ := hw.above (a :: pre') x post rfl
        (fun hmem => hpre (List.mem_append_right _ hmem)) hxf hfin
      refine ⟨fun b hb => ?_, fun b hb => ?_⟩
      · rcases List.mem_append.mp hb with hb | hb
        · exact (hleads a List.mem_cons_self).tail ((hpushed b).mp hb).1
        · exact hleads b hb
      · exact (hwait b hb).imp_right (.imp_left (List.mem_append_right _))

/-- A place that comes up again is finished, and so is all that it waited for. -/
theorem Walk.finish (hw : Walk next ids fresh (a :: stack) finished) (ha : a ∉ fresh) :
    Walk next ids fresh stack (if a ∈ finished then finished else a :: finished) := by
  have hmem : ∀ x, x ∈ (if a ∈ finished then finished else a :: finished) ↔ x = a ∨ x ∈ finished := by
    intro x
    split
    next hin => exact ⟨.inr, fun hx => hx.elim (fun hx => hx ▸ hin) fun hx => hx⟩
    next => exact List.mem_cons
  refine ⟨fun x hx => hw.known x (List.mem_cons_of_mem a hx), fun x hx => ?_, ?_, ?_,
    fun x hx hf hfin => ?_, fun pre x post hsplit hpre hf hfin => ?_⟩
  · rcases (hmem x).mp hx with rfl | hx
    · exact ha
    · exact hw.apart x hx
  · split
    next => exact hw.nodup
    next hnot => exact List.nodup_cons.mpr ⟨hnot, hw.nodup⟩
  · split
    next => exact hw.closed
    next hnot =>
      intro pre x post hsplit b hb
      cases pre with
      | nil =>
        obtain ⟨rfl, rfl⟩ := List.cons.inj hsplit
        have hwait := (hw.above [] a stack rfl List.not_mem_nil ha hnot).2 b hb
        exact hwait.imp_right fun h => h.resolve_left List.not_mem_nil
      | cons y pre => exact hw.closed pre x post (List.cons.inj hsplit).2 b hb
  · rw [hmem, not_or] at hfin
    exact (List.mem_cons.mp (hw.waiting x hx hf hfin.2)).resolve_left hfin.1
  · rw [hmem, not_or] at hfin
    obtain ⟨hleads, hwait⟩ := hw.above (a :: pre) x post (by rw [hsplit]; rfl)
      (fun hx => (List.mem_cons.mp hx).elim hfin.1 hpre) hf hfin.2
    refine ⟨fun b hb => hleads b (List.mem_cons_of_mem a hb), fun b hb => ?_⟩
    rw [hmem]
    rcases hwait b hb with hb | hb | hb
    · exact .inl (.inr hb)
    · exact (List.mem_cons.mp hb).imp .inl .inl
    · exact .inr (.inr hb)

theorem Walk.finishOrder {r : List α × List α} (hnext : ∀ a ∈ ids, ∀ b ∈ next a, b ∈ ids)
    (hw : Walk next ids fresh stack finished)
    (h : finishOrder next fresh stack finished = .ok r) : Walk next ids r.1 [] r.2 := by
  fun_induction Winnow.finishOrder next fresh stack finished with
  | case1 fresh finished => exact Except.ok.inj h ▸ hw
  | case2 => cases h
  | case3 fresh finished a stack ha hself fresh' ih => exact ih (hw.visit hnext ha) h
  | case4 fresh finished a stack ha ih => exact ih (hw.finish ha) h

/-- A walk is ended only by a place next to itself. -/
theorem mem_next_of_finishOrder (h : finishOrder next fresh stack finished = .error a) :
    a ∈ next a := by
  fun_induction finishOrder next fresh stack finished with
  | case1 => cases h
  | case2 fresh finished b stack hb hself => exact Except.error.inj h ▸ hself
  | case3 fresh finished b stack hb hself fresh' ih => exact ih h
  | case4 fresh finished b stack hb ih => exact ih h

end Upwards

section Downwards
variable {a b : α} {starts : List α}

/-- A walk visits nothing exactly if nothing in its stack is left to visit. -/
theorem depthFirst_eq_nil {stack : List α} (h : (depthFirst next fresh stack).1 = []) :
    (∀ x ∈ stack, x ∉ fresh) ∧ (depthFirst next fresh stack).2 = fresh := by
  fun_induction depthFirst next fresh stack with
  | case1 fresh => exact ⟨nofun, rfl⟩
  | case2 fresh a stack ha later r ih => cases h
  | case3 fresh a stack ha ih =>
    obtain ⟨hstack, hfresh⟩ := ih h
    exact ⟨List.forall_mem_cons.mpr ⟨ha, hstack⟩, hfresh⟩

theorem depthFirst_of_forall_not_mem {stack : List α} (h : ∀ x ∈ stack, x ∉ fresh) :
    depthFirst next fresh stack = ([], fresh) := by
  induction stack with
  | nil => rw [depthFirst]
  | cons a stack ih =>
    rw [depthFirst, if_neg (h a List.mem_cons_self)]
    exact ih fun x hx => h x (List.mem_cons_of_mem a hx)

theorem secondMet_cons_of_not_mem {s : α} (hs : s ∉ fresh) :
    secondMet next fresh (s :: starts) = secondMet next fresh starts := by
  rw [secondMet, depthFirst_of_forall_not_mem (by simpa using hs)]

/-- A walk that meets no second place leaves nothing next to its start unvisited. -/
theorem of_secondMet_cons_eq_none {s : α} (hs : s ∈ fresh)
    (h : secondMet next fresh (s :: starts) = none) :
    (∀ b ∈ next s, b ∈ fresh → b = s) ∧ secondMet next (without s fresh) starts = none := by
  rw [secondMet, depthFirst, if_pos hs] at h
  dsimp only at h
  generalize hr : depthFirst next (without s fresh)
    (((next s).filter (· ∈ without s fresh)).reverse ++ []) = r at h
  obtain ⟨visited, rest⟩ := r
  cases visited with
  | cons x visited => cases h
  | nil =>
    obtain ⟨hstack, hrest⟩ := depthFirst_eq_nil (by rw [hr])
    rw [hr] at hrest
    dsimp only at hrest
    subst hrest
    refine ⟨fun b hb hbf => Decidable.byContradiction fun hbs => ?_, h⟩
    have hbw : b ∈ without s fresh := mem_without.mpr ⟨hbf, hbs⟩
    exact hstack b (by simp [hb, hbw]) hbw

theorem idxOf_cons_lt {s : α} (ha : a ≠ s) (h : b ≠ s → starts.idxOf b < starts.idxOf a) :
    (s :: starts).idxOf b < (s :: starts).idxOf a := by
  rw [List.idxOf_cons, List.idxOf_cons, beq_eq_false_iff_ne.mpr ha.symm]
  by_cases hb : b = s
  · simp [hb]
  · rw [beq_eq_false_iff_ne.mpr (Ne.symm hb)]
    have := h hb
    simp only [cond_false]
    omega

/-- If no walk meets a second place, then what is next to a place is walked from before it. -/
theorem before_of_secondMet_eq_none (h : secondMet next fresh starts = none) (ha : a ∈ starts)
    (haf : a ∈ fresh) (hb : b ∈ next a) (hbf : b ∈ fresh) (hne : b ≠ a) :
    starts.idxOf b < starts.idxOf a := by
  induction starts generalizing fresh with
  | nil => cases ha
  | cons s starts ih =>
    by_cases hs : s ∈ fresh
    · obtain ⟨hnone, hrest⟩ := of_secondMet_cons_eq_none hs h
      by_cases has : a = s
      · exact (hne ((hnone b (has ▸ hb) hbf).trans has.symm)).elim
      · refine idxOf_cons_lt has fun hbs => ?_
        exact ih hrest ((List.mem_cons.mp ha).resolve_left has)
          (mem_without.mpr ⟨haf, has⟩) (mem_without.mpr ⟨hbf, hbs⟩)
    · have has : a ≠ s := fun e => hs (e ▸ haf)
      rw [secondMet_cons_of_not_mem hs] at h
      exact idxOf_cons_lt has fun _ =>
        ih h ((List.mem_cons.mp ha).resolve_left has) haf hbf

theorem depthFirst_eq_cons {stack visited : List α} (h : (depthFirst next fresh stack).1 = b :: visited) :
    b ∈ stack ∧ b ∈ fresh := by
  fun_induction depthFirst next fresh stack with
  | case1 fresh => cases h
  | case2 fresh a stack ha later r ih =>
    obtain ⟨rfl, _⟩ := List.cons.inj h
    exact ⟨List.mem_cons_self, ha⟩
  | case3 fresh a stack ha ih => exact (ih h).imp_left (List.mem_cons_of_mem a)

/-- The second place of a walk is next to its start, and no walk started there before. -/
theorem of_secondMet_eq_some (h : secondMet next fresh starts = some b) :
    b ∈ fresh ∧ ∃ pre s post, starts = pre ++ s :: post ∧ b ∈ next s ∧ b ∉ pre ∧ b ≠ s := by
  induction starts generalizing fresh with
  | nil => cases h
  | cons s starts ih =>
    by_cases hs : s ∈ fresh
    · rw [secondMet, depthFirst, if_pos hs] at h
      dsimp only at h
      generalize hr : depthFirst next (without s fresh)
        (((next s).filter (· ∈ without s fresh)).reverse ++ []) = r at h
      obtain ⟨visited, rest⟩ := r
      cases visited with
      | cons x visited =>
        obtain rfl := Option.some.inj h
        obtain ⟨hstack, hfresh⟩ := depthFirst_eq_cons (congrArg Prod.fst hr)
        obtain ⟨hfresh, hne⟩ := mem_without.mp hfresh
        have hnext : x ∈ next s := by simp at hstack; exact hstack.1
        exact ⟨hfresh, [], s, starts, rfl, hnext, List.not_mem_nil, hne⟩
      | nil =>
        have hrest := (depthFirst_eq_nil (congrArg Prod.fst hr)).2
        rw [hr] at hrest
        obtain ⟨hfresh, pre, s', post, rfl, hnext, hpre, hne⟩ := ih (hrest ▸ h)
        obtain ⟨hfresh, hbs⟩ := mem_without.mp hfresh
        exact ⟨hfresh, s :: pre, s', post, rfl, hnext, by simp [hbs, hpre], hne⟩
    · rw [secondMet_cons_of_not_mem hs] at h
      obtain ⟨hfresh, pre, s', post, rfl, hnext, hpre, hne⟩ := ih h
      have hbs : b ≠ s := fun e => hs (e ▸ hfresh)
      exact ⟨hfresh, s :: pre, s', post, rfl, hnext, by simp [hbs, hpre], hne⟩

end Downwards

end Walks

namespace Graph

variable {g : Graph} {fresh finished todo : List NodeId}

/-- What is above a node ranks lower. -/
def Ranked (g : Graph) (rank : NodeId → Nat) : Prop :=
  ∀ id, ∀ above ∈ g.parents id, rank above < rank id

theorem mem_parents {id above : NodeId} : above ∈ g.parents id ↔
    ∃ e ∈ g.edges, e.kind.isHierarchy = true ∧ e.source = id ∧ e.target = above := by
  simp only [parents, List.mem_map, List.mem_filter, mem_outgoing]
  constructor
  · rintro ⟨e, ⟨⟨he, hs⟩, hk⟩, ht⟩
    exact ⟨e, he, hk, hs, ht⟩
  · rintro ⟨e, he, hk, hs, ht⟩
    exact ⟨e, ⟨⟨he, hs⟩, hk⟩, ht⟩

theorem ranked_of_edges {rank : NodeId → Nat} (h : ∀ e ∈ g.edges, e.kind.isHierarchy = true →
    rank e.target < rank e.source) : g.Ranked rank := by
  intro id above ha
  obtain ⟨e, he, hk, rfl, rfl⟩ := mem_parents.mp ha
  exact h e he hk

theorem mem_children {id below : NodeId} : below ∈ g.children id ↔ id ∈ g.parents below := by
  rw [mem_parents]
  simp only [children, List.mem_map, List.mem_filter, mem_incoming]
  constructor
  · rintro ⟨e, ⟨⟨he, ht⟩, hk⟩, hs⟩
    exact ⟨e, he, hk, hs, ht⟩
  · rintro ⟨e, he, hk, hs, ht⟩
    exact ⟨e, ⟨⟨he, ht⟩, hk⟩, hs⟩

theorem finishAll_ok {order : List NodeId} (h : g.finishAll fresh finished todo = .ok order) :
    (∀ id ∈ finished, id ∈ order) ∧
      ∀ id ∈ todo, id ∈ fresh → id ∉ g.parents id ∧ id ∈ order := by
  induction todo generalizing fresh finished with
  | nil =>
    obtain rfl := Except.ok.inj h
    exact ⟨fun _ hid => hid, nofun⟩
  | cons id todo ih =>
    rw [finishAll] at h
    split at h
    next hid =>
      split at h
      next => cases h
      next fresh' finished' hwalk =>
        obtain ⟨hmet, hfin, hstack⟩ := finishOrder_ok hwalk
        obtain ⟨hkeep, hrest⟩ := ih h
        refine ⟨fun x hx => hkeep x (hfin x hx), fun x hx hxf => ?_⟩
        by_cases hleft : x ∈ fresh'
        · have hne : x ≠ id := by
            rintro rfl
            exact (hstack x List.mem_cons_self).1 hleft
          exact hrest x ((List.mem_cons.mp hx).resolve_left hne) hleft
        · obtain ⟨hself, hx'⟩ := hmet x hxf hleft
          exact ⟨hself, hkeep x hx'⟩
    next hid =>
      obtain ⟨hkeep, hrest⟩ := ih h
      refine ⟨hkeep, fun x hx hxf => ?_⟩
      have hne : x ≠ id := fun e => hid (e ▸ hxf)
      exact hrest x ((List.mem_cons.mp hx).resolve_left hne) hxf

theorem exists_walk_of_finishAll {ids order : List NodeId} (hnext : ∀ a ∈ ids, ∀ b ∈ g.parents a, b ∈ ids)
    (hw : Walk g.parents ids fresh [] finished) (htodo : ∀ id ∈ todo, id ∈ ids)
    (h : g.finishAll fresh finished todo = .ok order) :
    ∃ fresh', Walk g.parents ids fresh' [] order := by
  induction todo generalizing fresh finished with
  | nil => exact ⟨fresh, Except.ok.inj h ▸ hw⟩
  | cons id todo ih =>
    have htodo' : ∀ x ∈ todo, x ∈ ids := fun x hx => htodo x (List.mem_cons_of_mem id hx)
    rw [Graph.finishAll] at h
    split at h
    next hid =>
      have hstart : Walk g.parents ids fresh [id] finished := by
        refine ⟨by simpa using htodo id List.mem_cons_self, hw.apart, hw.nodup, hw.closed,
          fun x hx hf hfin => (List.not_mem_nil (hw.waiting x hx hf hfin)).elim,
          fun pre x post hsplit _ hf => ?_⟩
        have hx : x ∈ [id] := by rw [hsplit]; simp
        obtain rfl : x = id := by simpa using hx
        exact (hf hid).elim
      split at h
      next => cases h
      next fresh' finished' hr => exact ih (hstart.finishOrder hnext hr) htodo' h
    next => exact ih hw htodo' h

theorem mem_parents_of_finishAll {id : NodeId} (h : g.finishAll fresh finished todo = .error id) :
    id ∈ g.parents id := by
  induction todo generalizing fresh finished with
  | nil => cases h
  | cons x todo ih =>
    rw [finishAll] at h
    split at h
    next =>
      split at h
      next hr => exact Except.error.inj h ▸ mem_next_of_finishOrder hr
      next => exact ih h
    next => exact ih h

/-- The first node extends the second, or implements it. -/
def DirectlyBelow (g : Graph) (id above : NodeId) : Prop := above ∈ g.parents id

/-- A way up leads from the node back to it. -/
def OnCycle (g : Graph) (id : NodeId) : Prop := Relation.TransGen g.DirectlyBelow id id

theorem Ranked.lt_of_transGen {rank : NodeId → Nat} {id above : NodeId} (hrank : g.Ranked rank)
    (h : Relation.TransGen g.DirectlyBelow id above) : rank above < rank id := by
  induction h with
  | single h => exact hrank _ _ h
  | tail _ h ih => exact Nat.lt_trans (hrank _ _ h) ih

theorem Ranked.not_onCycle {rank : NodeId → Nat} (hrank : g.Ranked rank) (id : NodeId) :
    ¬ g.OnCycle id :=
  fun h => Nat.lt_irrefl _ (hrank.lt_of_transGen h)

theorem Coherent.ends_parents (hg : g.Coherent) {id above : NodeId} (ha : above ∈ g.parents id) :
    id ∈ g.nodes.map Node.id ∧ above ∈ g.nodes.map Node.id := by
  obtain ⟨e, he, _, rfl, rfl⟩ := mem_parents.mp ha
  exact ⟨contains_iff_mem.mp (hg.ends e he).1, contains_iff_mem.mp (hg.ends e he).2⟩

section WellFormed

variable (hg : g.WellFormed)
include hg

/-- What is found lies on a cycle. -/
theorem WellFormed.onCycle_of_cycleNode? {id : NodeId} (h : g.cycleNode? = some id) :
    g.OnCycle id := by
  rw [cycleNode?] at h
  split at h
  next hr => exact Option.some.inj h ▸ .single (mem_parents_of_finishAll hr)
  next order hok =>
    obtain ⟨hid, pre, above, post, hsplit, hchild, hpre, hne⟩ := of_secondMet_eq_some h
    have habove : above ∈ g.parents id := mem_children.mp hchild
    have hstart : Walk g.parents (g.nodes.map Node.id) (g.nodes.map Node.id) [] [] :=
      ⟨nofun, nofun, List.nodup_nil, by simp, fun a ha hf => (hf ha).elim, by simp⟩
    obtain ⟨_, hw⟩ := exists_walk_of_finishAll (fun _ _ _ hb => (hg.coherent.ends_parents hb).2) hstart
      (fun _ h => h) hok
    -- The node was finished before the one above it.
    have hpost : id ∈ post := by
      have hmem : id ∈ pre ++ above :: post := hsplit ▸ ((finishAll_ok hok).2 id hid hid).2
      exact (List.mem_cons.mp ((List.mem_append.mp hmem).resolve_left hpre)).resolve_left hne
    obtain ⟨l, l', rfl⟩ := List.append_of_mem hpost
    rcases hw.closed (pre ++ above :: l) id l' (by simpa using hsplit) above habove with hmem | hleads
    · have hnodup := hsplit ▸ hw.nodup
      rw [List.nodup_append, List.nodup_cons] at hnodup
      exact (hnodup.2.1.1 (by simp [hmem])).elim
    · exact .head' habove hleads

/-- No cycle is found exactly if the hierarchy has none. -/
theorem WellFormed.cycle?_eq_none_iff : g.cycle? = none ↔ ∃ rank, g.Ranked rank := by
  rw [cycle?, Option.map_eq_none_iff]
  constructor
  · intro hnone
    rw [cycleNode?] at hnone
    split at hnone
    next => cases hnone
    next order hok =>
      obtain ⟨_, hall⟩ := finishAll_ok hok
      refine ⟨fun id => order.length - order.idxOf id, fun id above ha => ?_⟩
      obtain ⟨hid, habove⟩ := hg.coherent.ends_parents ha
      have hne : id ≠ above := by
        rintro rfl
        exact (hall id hid hid).1 ha
      have hlt := before_of_secondMet_eq_none hnone (hall above habove habove).2 habove
        (mem_children.mpr ha) hid hne
      have := List.idxOf_lt_length_of_mem (hall above habove habove).2
      dsimp only
      omega
  · rintro ⟨rank, hrank⟩
    rw [Option.eq_none_iff_forall_not_mem]
    exact fun id hid => hrank.not_onCycle id (hg.onCycle_of_cycleNode? hid)

end WellFormed

end Graph

end Winnow
