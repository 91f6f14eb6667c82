/-!
# Breadth-first search

Places are visited in the order in which they are first met. The places not
visited yet are carried along, so a search ends without a bound on its length:
each step shortens the queue or takes what comes after one of them into it.
-/
namespace Winnow

/-- The list without any occurrence of `a`. -/
def without {α : Type} [DecidableEq α] (a : α) (l : List α) : List α := l.filter (· ≠ a)

theorem mem_without {α : Type} [DecidableEq α] {a b : α} {l : List α} :
    b ∈ without a l ↔ b ∈ l ∧ b ≠ a := by
  simp [without]

theorem length_without_lt {α : Type} [DecidableEq α] {a : α} {l : List α} (h : a ∈ l) :
    (without a l).length < l.length :=
  List.length_filter_lt_length_iff_exists.mpr ⟨a, h, by simp⟩

theorem without_cons {α : Type} [DecidableEq α] (a b : α) (l : List α) :
    without a (b :: l) = if b = a then without a l else b :: without a l := by
  by_cases hb : b = a <;> simp [without, hb]

/-- What comes after the other places and what comes after `a` is all there is. -/
theorem length_flatMap_without_le {α : Type} [DecidableEq α] (next : α → List α) (a : α)
    (l : List α) :
    ((without a l).flatMap next).length + (if a ∈ l then (next a).length else 0) ≤
      (l.flatMap next).length := by
  induction l with
  | nil => exact Nat.le_refl _
  | cons b l ih =>
    rw [without_cons, List.flatMap_cons, List.length_append]
    by_cases hb : b = a
    · rw [if_pos hb, if_pos (hb ▸ List.mem_cons_self), hb]
      omega
    · have hmem : a ∈ b :: l ↔ a ∈ l := by simp [Ne.symm hb]
      simp only [if_neg hb, hmem, List.flatMap_cons, List.length_append]
      omega

/-- What is met from `queue` on, in order; only places of `fresh` are visited. -/
def breadthFirst {α : Type} [DecidableEq α] (next : α → List α) (fresh queue : List α) : List α :=
  match queue with
  | [] => []
  | a :: queue =>
    if a ∈ fresh then a :: breadthFirst next (without a fresh) (queue ++ next a)
    else breadthFirst next fresh queue
termination_by (fresh.flatMap next).length + queue.length
decreasing_by
  · have hle := length_flatMap_without_le next a fresh
    rw [if_pos (by assumption)] at hle
    simp only [List.length_append, List.length_cons]
    omega
  · exact Nat.lt_succ_self _

end Winnow
