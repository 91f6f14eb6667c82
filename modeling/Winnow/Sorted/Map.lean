import Winnow.Sorted.Set

/-!
# Sorted maps

A finite map held as its list of entries with strictly increasing keys.
-/
namespace Winnow

namespace Sorted

variable {κ β : Type} [Ord κ]

/-- Each key comes before all later ones. -/
abbrev KeysIncreasing (l : List (κ × β)) : Prop :=
  l.Pairwise fun a b => compare a.1 b.1 = .lt

/-- A key that is already there keeps its place and its spelling and takes the new value. -/
def put (k : κ) (v : β) : List (κ × β) → List (κ × β)
  | [] => [(k, v)]
  | (j, w) :: l =>
    match compare k j with
    | .lt => (k, v) :: (j, w) :: l
    | .eq => (j, v) :: l
    | .gt => (j, w) :: put k v l

/-- The value stored for a key. -/
def lookup (k : κ) : List (κ × β) → Option β
  | [] => none
  | (j, w) :: l => if compare k j = .eq then some w else lookup k l

theorem mem_put_imp {k : κ} {v : β} {x : κ × β} {l : List (κ × β)} (h : x ∈ put k v l) :
    x.1 = k ∨ ∃ y ∈ l, x.1 = y.1 := by
  induction l with
  | nil => exact .inl (by simp [put] at h; simp [h])
  | cons e l ih =>
    obtain ⟨j, w⟩ := e
    simp only [put] at h
    split at h
    · rcases List.mem_cons.mp h with rfl | h
      · exact .inl rfl
      · exact .inr ⟨x, h, rfl⟩
    · rcases List.mem_cons.mp h with rfl | h
      · exact .inr ⟨(j, w), by simp, rfl⟩
      · exact .inr ⟨x, by simp [h], rfl⟩
    · rcases List.mem_cons.mp h with rfl | h
      · exact .inr ⟨(j, w), by simp, rfl⟩
      · rcases ih h with h | ⟨y, hy, e⟩
        · exact .inl h
        · exact .inr ⟨y, by simp [hy], e⟩

theorem keysIncreasing_put [Std.TransOrd κ] {k : κ} {v : β} {l : List (κ × β)}
    (h : KeysIncreasing l) : KeysIncreasing (put k v l) := by
  induction l with
  | nil => simp [put]
  | cons e l ih =>
    obtain ⟨j, w⟩ := e
    have hj : ∀ y ∈ l, compare j y.1 = .lt := fun y hy => List.rel_of_pairwise_cons h hy
    simp only [put]
    split
    next hkj =>
      refine List.Pairwise.cons (fun y hy => ?_) h
      rcases List.mem_cons.mp hy with rfl | hy
      · exact hkj
      · exact Std.TransCmp.lt_trans hkj (hj y hy)
    next => exact List.Pairwise.cons hj h.of_cons
    next hkj =>
      refine List.Pairwise.cons (fun y hy => ?_) (ih h.of_cons)
      rcases mem_put_imp hy with hy | ⟨z, hz, hy⟩
      · exact hy ▸ Std.OrientedCmp.lt_of_gt hkj
      · exact hy ▸ hj z hz

theorem lookup_put_self [Std.TransOrd κ] {k : κ} {v : β} {l : List (κ × β)} :
    lookup k (put k v l) = some v := by
  induction l with
  | nil => simp [put, lookup, Std.ReflCmp.compare_self]
  | cons e l ih =>
    obtain ⟨j, w⟩ := e
    simp only [put]
    split
    next => simp [lookup, Std.ReflCmp.compare_self]
    next h => simp [lookup, h]
    next h => simp [lookup, h, ih]

theorem lookup_put_of_ne [Std.TransOrd κ] {i k : κ} {v : β} {l : List (κ × β)}
    (hik : compare i k ≠ .eq) : lookup i (put k v l) = lookup i l := by
  induction l with
  | nil => simp [put, lookup, hik]
  | cons e l ih =>
    obtain ⟨j, w⟩ := e
    simp only [put]
    split
    next => simp [lookup, hik]
    next h =>
      have : compare i j ≠ .eq := fun hij =>
        hik (Std.TransCmp.eq_trans hij (Std.OrientedCmp.eq_symm h))
      simp [lookup, this]
    next => simp only [lookup, ih]

end Sorted

/-- A finite map, listed by increasing keys. -/
structure SortedMap (κ β : Type) [Ord κ] where
  toList : List (κ × β)
  increasing : Sorted.KeysIncreasing toList
deriving DecidableEq, Repr

namespace SortedMap

variable {κ β : Type} [Ord κ]

def empty : SortedMap κ β := ⟨[], .nil⟩

instance : EmptyCollection (SortedMap κ β) := ⟨empty⟩
instance : Inhabited (SortedMap κ β) := ⟨empty⟩

def isEmpty (m : SortedMap κ β) : Bool := m.toList.isEmpty

def size (m : SortedMap κ β) : Nat := m.toList.length

def keys (m : SortedMap κ β) : List κ := m.toList.map (·.1)

def values (m : SortedMap κ β) : List β := m.toList.map (·.2)

def get? (m : SortedMap κ β) (k : κ) : Option β := Sorted.lookup k m.toList

def contains (m : SortedMap κ β) (k : κ) : Bool := (m.get? k).isSome

def insert [Std.TransOrd κ] (k : κ) (v : β) (m : SortedMap κ β) : SortedMap κ β :=
  ⟨Sorted.put k v m.toList, Sorted.keysIncreasing_put m.increasing⟩

/-- Later entries replace the values of earlier ones. -/
def ofList [Std.TransOrd κ] (l : List (κ × β)) : SortedMap κ β :=
  l.foldl (fun m e => m.insert e.1 e.2) ∅

theorem get?_insert_self [Std.TransOrd κ] {k : κ} {v : β} {m : SortedMap κ β} :
    (m.insert k v).get? k = some v :=
  Sorted.lookup_put_self

theorem get?_insert_of_ne [Std.TransOrd κ] {i k : κ} {v : β} {m : SortedMap κ β}
    (h : compare i k ≠ .eq) : (m.insert k v).get? i = m.get? i :=
  Sorted.lookup_put_of_ne h

def filter (p : κ → β → Bool) (m : SortedMap κ β) : SortedMap κ β :=
  ⟨m.toList.filter fun e => p e.1 e.2, m.increasing.filter _⟩

def erase (k : κ) (m : SortedMap κ β) : SortedMap κ β := m.filter fun j _ => compare k j ≠ .eq

end SortedMap

end Winnow
