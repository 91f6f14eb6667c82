/-!
# Sorted sets

A finite set held as its strictly increasing list of elements, so that two sets
with the same elements are equal and a listing needs no sorting.
-/
namespace Winnow

namespace Sorted

variable {α : Type} [Ord α]

/-- Each element comes before all later ones. -/
abbrev Increasing (l : List α) : Prop := l.Pairwise fun a b => compare a b = .lt

/-- An element that is already there stays as it is. -/
def insert (a : α) : List α → List α
  | [] => [a]
  | b :: l =>
    match compare a b with
    | .lt => a :: b :: l
    | .eq => b :: l
    | .gt => b :: insert a l

theorem mem_insert_imp {a x : α} {l : List α} (h : x ∈ insert a l) : x = a ∨ x ∈ l := by
  induction l with
  | nil => simpa [insert] using h
  | cons b l ih =>
    simp only [insert] at h
    split at h
    · simpa using h
    · exact .inr h
    · rcases List.mem_cons.mp h with rfl | h
      · simp
      · rcases ih h with rfl | h <;> simp [*]

theorem increasing_insert [Std.TransOrd α] {a : α} {l : List α} (h : Increasing l) :
    Increasing (insert a l) := by
  induction l with
  | nil => simp [insert]
  | cons b l ih =>
    have hb : ∀ x ∈ l, compare b x = .lt := fun x hx => List.rel_of_pairwise_cons h hx
    simp only [insert]
    split
    next hab =>
      refine List.Pairwise.cons (fun x hx => ?_) h
      rcases List.mem_cons.mp hx with rfl | hx
      · exact hab
      · exact Std.TransCmp.lt_trans hab (hb x hx)
    next => exact h
    next hab =>
      refine List.Pairwise.cons (fun x hx => ?_) (ih h.of_cons)
      rcases mem_insert_imp hx with rfl | hx
      · exact Std.OrientedCmp.lt_of_gt hab
      · exact hb x hx

end Sorted

/-- A finite set, listed in increasing order. -/
structure SortedSet (α : Type) [Ord α] where
  toList : List α
  increasing : Sorted.Increasing toList
deriving DecidableEq, Repr

namespace SortedSet

variable {α : Type} [Ord α]

def empty : SortedSet α := ⟨[], .nil⟩

instance : EmptyCollection (SortedSet α) := ⟨empty⟩
instance : Inhabited (SortedSet α) := ⟨empty⟩

instance : Membership α (SortedSet α) := ⟨fun s a => a ∈ s.toList⟩

instance [DecidableEq α] (a : α) (s : SortedSet α) : Decidable (a ∈ s) :=
  inferInstanceAs (Decidable (a ∈ s.toList))

def isEmpty (s : SortedSet α) : Bool := s.toList.isEmpty

def size (s : SortedSet α) : Nat := s.toList.length

def insert [Std.TransOrd α] (a : α) (s : SortedSet α) : SortedSet α :=
  ⟨Sorted.insert a s.toList, Sorted.increasing_insert s.increasing⟩

def ofList [Std.TransOrd α] (l : List α) : SortedSet α := l.foldl (fun s a => s.insert a) ∅

def filter (p : α → Bool) (s : SortedSet α) : SortedSet α :=
  ⟨s.toList.filter p, s.increasing.filter p⟩

def erase [DecidableEq α] (a : α) (s : SortedSet α) : SortedSet α := s.filter (· ≠ a)

/-- The elements of `s` that are not in `t`, in order. -/
def diff [DecidableEq α] (s t : SortedSet α) : List α := s.toList.filter (· ∉ t)

end SortedSet

end Winnow
