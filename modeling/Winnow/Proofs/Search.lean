import Mathlib.Logic.Relation
import Winnow.Graph.Search

/-!
# What a breadth-first search visits

A search visits exactly the places of `fresh` that can be reached through such
places, each once. How the rest of `fresh` is listed makes no difference, so two
searches that see the same neighbours visit the same places in the same order.
-/
namespace Winnow

variable {α : Type} [DecidableEq α]

theorem mem_fresh_of_mem_breadthFirst {next : α → List α} {fresh queue : List α} {x : α}
    (hx : x ∈ breadthFirst next fresh queue) : x ∈ fresh := by
  fun_induction breadthFirst next fresh queue with
  | case1 => cases hx
  | case2 fresh a queue ha ih =>
    rcases List.mem_cons.mp hx with rfl | hx
    · exact ha
    · exact (mem_without.mp (ih hx)).1
  | case3 fresh a queue ha ih => exact ih hx

theorem mem_breadthFirst_of_mem_queue {next : α → List α} {fresh queue : List α} {x : α}
    (hx : x ∈ fresh) (hq : x ∈ queue) : x ∈ breadthFirst next fresh queue := by
  fun_induction breadthFirst next fresh queue with
  | case1 => cases hq
  | case2 fresh a queue ha ih =>
    by_cases hxa : x = a
    · simp [hxa]
    · have hq' : x ∈ queue ++ next a := by
        rcases List.mem_cons.mp hq with h | h
        · exact (hxa h).elim
        · exact List.mem_append_left _ h
      exact List.mem_cons_of_mem a (ih (mem_without.mpr ⟨hx, hxa⟩) hq')
  | case3 fresh a queue ha ih =>
    rcases List.mem_cons.mp hq with rfl | h
    · exact (ha hx).elim
    · exact ih hx h

/-- The visited places are closed under neighbours. -/
theorem mem_breadthFirst_of_next {next : α → List α} {fresh queue : List α} {a x : α}
    (ha : a ∈ breadthFirst next fresh queue) (hn : x ∈ next a) (hx : x ∈ fresh) :
    x ∈ breadthFirst next fresh queue := by
  fun_induction breadthFirst next fresh queue with
  | case1 => cases ha
  | case2 fresh b queue hb ih =>
    by_cases hxb : x = b
    · simp [hxb]
    · have hx' : x ∈ without b fresh := mem_without.mpr ⟨hx, hxb⟩
      apply List.mem_cons_of_mem
      rcases List.mem_cons.mp ha with rfl | ha
      · exact mem_breadthFirst_of_mem_queue hx' (List.mem_append_right _ hn)
      · exact ih ha hx'
  | case3 fresh b queue hb ih => exact ih ha hx

/-- Whatever is visited can be reached from the queue through visited places. -/
theorem reachable_of_mem_breadthFirst {next : α → List α} {fresh queue : List α} {x : α}
    (hx : x ∈ breadthFirst next fresh queue) :
    ∃ q ∈ queue, Relation.ReflTransGen (fun a b => b ∈ next a) q x := by
  fun_induction breadthFirst next fresh queue with
  | case1 => cases hx
  | case2 fresh a queue ha ih =>
    rcases List.mem_cons.mp hx with rfl | hx
    · exact ⟨x, List.mem_cons_self, .refl⟩
    · obtain ⟨q, hq, hr⟩ := ih hx
      rcases List.mem_append.mp hq with hq | hq
      · exact ⟨q, List.mem_cons_of_mem a hq, hr⟩
      · exact ⟨a, List.mem_cons_self, .head hq hr⟩
  | case3 fresh a queue ha ih =>
    obtain ⟨q, hq, hr⟩ := ih hx
    exact ⟨q, List.mem_cons_of_mem a hq, hr⟩

/-- A search only looks at places that it can reach: `P` may be any property of these. -/
theorem breadthFirst_congr {next next' : α → List α} {fresh fresh' queue : List α}
    (P : α → Prop) (hclosed : ∀ a, P a → ∀ b ∈ next a, P b)
    (hnext : ∀ a, P a → next a = next' a) (hfresh : ∀ a, P a → (a ∈ fresh ↔ a ∈ fresh'))
    (hqueue : ∀ a ∈ queue, P a) :
    breadthFirst next fresh queue = breadthFirst next' fresh' queue := by
  fun_induction breadthFirst next fresh queue generalizing fresh' with
  | case1 => rw [breadthFirst]
  | case2 fresh a queue ha ih =>
    have hPa : P a := hqueue a List.mem_cons_self
    rw [breadthFirst, if_pos ((hfresh a hPa).mp ha), ← hnext a hPa]
    congr 1
    apply ih
    · intro b hb
      rw [mem_without, mem_without, hfresh b hb]
    · intro b hb
      rcases List.mem_append.mp hb with hb | hb
      · exact hqueue b (List.mem_cons_of_mem a hb)
      · exact hclosed a hPa b hb
  | case3 fresh a queue ha ih =>
    have hPa : P a := hqueue a List.mem_cons_self
    rw [breadthFirst, if_neg fun h => ha ((hfresh a hPa).mpr h)]
    exact ih hfresh fun b hb => hqueue b (List.mem_cons_of_mem a hb)

/-- The search with a bound on its steps, by which searches of fixed places can be computed. -/
def boundedSearch? (next : α → List α) : Nat → List α → List α → Option (List α)
  | _, _, [] => some []
  | 0, _, _ :: _ => none
  | n + 1, fresh, a :: queue =>
    if a ∈ fresh then (boundedSearch? next n (without a fresh) (queue ++ next a)).map (a :: ·)
    else boundedSearch? next n fresh queue

theorem breadthFirst_eq_of_boundedSearch? {next : α → List α} {n : Nat}
    {fresh queue visited : List α} (h : boundedSearch? next n fresh queue = some visited) :
    breadthFirst next fresh queue = visited := by
  fun_induction boundedSearch? next n fresh queue generalizing visited with
  | case1 =>
    rw [breadthFirst]
    exact Option.some.inj h
  | case2 => cases h
  | case3 n fresh a queue ha ih =>
    obtain ⟨rest, hrest, rfl⟩ := Option.map_eq_some_iff.mp h
    rw [breadthFirst, if_pos ha, ih hrest]
  | case4 n fresh a queue ha ih =>
    rw [breadthFirst, if_neg ha]
    exact ih h

end Winnow
