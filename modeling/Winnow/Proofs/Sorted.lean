import Mathlib.Tactic.Tauto
import Winnow.NodeId
import Winnow.Sorted.Map

/-!
# Laws of sorted sets and maps

A sorted map is determined by its look-ups and a sorted set by its elements,
as long as keys that compare as equal are equal. A map that is listed and
entered again, entry by entry, is the same map.
-/
namespace Winnow

instance : Std.LawfulEqOrd NodeId where
  eq_of_compare := NodeId.compare_eq_iff.mp

instance : Std.LawfulEqOrd MemberKey where
  eq_of_compare {a b} h := by
    obtain ⟨n, d⟩ := a
    obtain ⟨n', d'⟩ := b
    have hr : compare (MemberKey.rank ⟨n, d⟩) (MemberKey.rank ⟨n', d'⟩) = .eq := h
    rw [Std.LawfulEqCmp.compare_eq_iff_eq] at hr
    simpa [MemberKey.rank] using hr

theorem mem_of_lookup_eq_some {α β : Type} [DecidableEq α] {l : List (α × β)} {a : α} {b : β}
    (h : l.lookup a = some b) : (a, b) ∈ l := by
  obtain ⟨l₁, l₂, rfl, _⟩ := List.lookup_eq_some_iff.mp h
  simp

/-- In a list of pairs with distinct names a name has the value that stands beside it. -/
theorem lookup_eq_some_iff_mem {α β : Type} [DecidableEq α] {l : List (α × β)} {a : α} {b : β}
    (hl : (l.map (·.1)).Nodup) : l.lookup a = some b ↔ (a, b) ∈ l := by
  induction l with
  | nil => simp
  | cons e l ih =>
    obtain ⟨c, d⟩ := e
    rw [List.map_cons, List.nodup_cons] at hl
    by_cases hac : a = c
    · subst hac
      have hm : (a, b) ∉ l := fun hm => hl.1 (List.mem_map.mpr ⟨(a, b), hm, rfl⟩)
      simp [hm, eq_comm]
    · rw [List.lookup_cons, beq_eq_false_iff_ne.mpr hac]
      simpa [hac] using ih hl.2

namespace Sorted

section Elements
variable {α : Type} [Ord α] [Std.LawfulEqOrd α]

theorem mem_insert {a x : α} {l : List α} : x ∈ insert a l ↔ x = a ∨ x ∈ l := by
  refine ⟨mem_insert_imp, ?_⟩
  induction l with
  | nil => simp [insert]
  | cons b l ih =>
    intro h
    simp only [insert]
    split
    next => simpa using h
    next hab =>
      have hab : a = b := Std.LawfulEqCmp.eq_of_compare hab
      simpa [hab] using h
    next =>
      rw [List.mem_cons] at h ⊢
      tauto

end Elements

/-- An element above all others is entered at the end. -/
theorem insert_of_forall_lt {α : Type} [Ord α] [Std.TransOrd α] {a : α} {l : List α}
    (h : ∀ b ∈ l, compare b a = .lt) : insert a l = l ++ [a] := by
  induction l with
  | nil => rfl
  | cons b l ih =>
    have hb : compare a b = .gt := Std.OrientedCmp.gt_of_lt (h b List.mem_cons_self)
    simp only [insert, hb, List.cons_append]
    rw [ih fun c hc => h c (List.mem_cons_of_mem b hc)]

section Entries
variable {κ β : Type} [Ord κ] [Std.LawfulEqOrd κ]

theorem lookup_eq_some_of_mem {k : κ} {v : β} {l : List (κ × β)} (hl : KeysIncreasing l)
    (h : (k, v) ∈ l) : lookup k l = some v := by
  induction l with
  | nil => cases h
  | cons e l ih =>
    obtain ⟨j, w⟩ := e
    simp only [lookup]
    rcases List.mem_cons.mp h with he | hm
    · obtain ⟨rfl, rfl⟩ := Prod.mk.inj he
      simp [Std.ReflCmp.compare_self]
    · have hlt : compare j k = .lt := List.rel_of_pairwise_cons hl hm
      have hne : compare k j ≠ .eq := by
        intro hkj
        obtain rfl : k = j := Std.LawfulEqCmp.eq_of_compare hkj
        simp [Std.ReflCmp.compare_self] at hlt
      rw [if_neg hne]
      exact ih hl.of_cons hm

theorem mem_of_lookup_eq_some {k : κ} {v : β} {l : List (κ × β)} (h : lookup k l = some v) :
    (k, v) ∈ l := by
  induction l with
  | nil => cases h
  | cons e l ih =>
    obtain ⟨j, w⟩ := e
    simp only [lookup, Std.LawfulEqCmp.compare_eq_iff_eq] at h
    split at h
    next hk => simp_all
    next => exact List.mem_cons_of_mem _ (ih h)

end Entries

theorem put_of_forall_lt {κ β : Type} [Ord κ] [Std.TransOrd κ] {k : κ} {v : β} {l : List (κ × β)}
    (h : ∀ e ∈ l, compare e.1 k = .lt) : put k v l = l ++ [(k, v)] := by
  induction l with
  | nil => rfl
  | cons e l ih =>
    obtain ⟨j, w⟩ := e
    have hj : compare k j = .gt := Std.OrientedCmp.gt_of_lt (h (j, w) List.mem_cons_self)
    simp only [put, hj, List.cons_append]
    rw [ih fun e he => h e (List.mem_cons_of_mem _ he)]

/-- A key that is not there yet goes in beside the others. -/
theorem put_perm {κ β : Type} [Ord κ] {k : κ} {v : β} {l : List (κ × β)}
    (h : ∀ e ∈ l, compare k e.1 ≠ .eq) : (put k v l).Perm ((k, v) :: l) := by
  induction l with
  | nil => exact .refl _
  | cons e l ih =>
    obtain ⟨j, w⟩ := e
    simp only [put]
    split
    next => exact .refl _
    next he => exact absurd he (h (j, w) List.mem_cons_self)
    next =>
      have hl := ih fun e he => h e (List.mem_cons_of_mem _ he)
      exact (hl.cons (j, w)).trans (.swap _ _ _)

end Sorted

namespace SortedSet

variable {α : Type} [Ord α]

@[ext] theorem ext_toList {s t : SortedSet α} (h : s.toList = t.toList) : s = t := by
  cases s
  cases t
  simpa using h

theorem mem_toList {a : α} {s : SortedSet α} : a ∈ s.toList ↔ a ∈ s := Iff.rfl

@[simp] theorem not_mem_empty (a : α) : a ∉ (∅ : SortedSet α) := List.not_mem_nil

@[simp] theorem mem_filter {p : α → Bool} {a : α} {s : SortedSet α} :
    a ∈ s.filter p ↔ a ∈ s ∧ p a = true := List.mem_filter

theorem nodup_toList [Std.TransOrd α] (s : SortedSet α) : s.toList.Nodup := by
  refine s.increasing.imp ?_
  rintro a b hab rfl
  simp [Std.ReflCmp.compare_self] at hab

section Lawful
variable [Std.LawfulEqOrd α] [Std.TransOrd α]

@[simp] theorem mem_insert {a x : α} {s : SortedSet α} : x ∈ s.insert a ↔ x = a ∨ x ∈ s :=
  Sorted.mem_insert

theorem mem_foldl_insert {x : α} {l : List α} {s : SortedSet α} :
    x ∈ l.foldl (fun s a => s.insert a) s ↔ x ∈ l ∨ x ∈ s := by
  induction l generalizing s with
  | nil => simp
  | cons a l ih =>
    rw [List.foldl_cons, ih, mem_insert, List.mem_cons]
    tauto

@[simp] theorem mem_ofList {x : α} {l : List α} : x ∈ ofList l ↔ x ∈ l := by
  rw [ofList, mem_foldl_insert]
  simp

theorem size_ofList {l : List α} (hl : l.Nodup) : (ofList l).size = l.length :=
  ((List.perm_ext_iff_of_nodup (ofList l).nodup_toList hl).mpr fun _ => mem_ofList).length_eq

end Lawful

/-- A strictly increasing list is determined by its elements. -/
theorem ext_mem [Std.TransOrd α] {s t : SortedSet α} (h : ∀ a, a ∈ s ↔ a ∈ t) : s = t := by
  apply ext_toList
  have hp : s.toList.Perm t.toList :=
    (List.perm_ext_iff_of_nodup s.nodup_toList t.nodup_toList).mpr h
  refine hp.eq_of_pairwise ?_ s.increasing t.increasing
  intro a b _ _ hab hba
  rw [Std.OrientedCmp.gt_of_lt hab] at hba
  cases hba

theorem foldl_insert_append [Std.TransOrd α] {l : List α} {s : SortedSet α}
    (h : Sorted.Increasing (s.toList ++ l)) :
    (l.foldl (fun s a => s.insert a) s).toList = s.toList ++ l := by
  induction l generalizing s with
  | nil => simp
  | cons a l ih =>
    have ha : ∀ b ∈ s.toList, compare b a = .lt := fun b hb =>
      (List.pairwise_append.mp h).2.2 b hb a List.mem_cons_self
    have hs : (s.insert a).toList = s.toList ++ [a] := Sorted.insert_of_forall_lt ha
    rw [List.foldl_cons, ih (by simpa [hs] using h), hs]
    simp

@[simp] theorem ofList_toList [Std.TransOrd α] (s : SortedSet α) : ofList s.toList = s := by
  apply ext_toList
  exact foldl_insert_append s.increasing

end SortedSet

namespace SortedMap

variable {κ β : Type} [Ord κ]

@[ext] theorem ext_toList {m n : SortedMap κ β} (h : m.toList = n.toList) : m = n := by
  cases m
  cases n
  simpa using h

/-- A map is determined by the entries that it lists. -/
theorem eq_of_perm [Std.TransOrd κ] {m n : SortedMap κ β} (h : m.toList.Perm n.toList) :
    m = n := by
  apply ext_toList
  refine h.eq_of_pairwise ?_ m.increasing n.increasing
  intro a b _ _ hab hba
  rw [Std.OrientedCmp.gt_of_lt hab] at hba
  cases hba

@[simp] theorem get?_empty (k : κ) : (∅ : SortedMap κ β).get? k = none := rfl

section Lawful
variable [Std.LawfulEqOrd κ]

theorem mem_toList_iff {k : κ} {v : β} {m : SortedMap κ β} :
    (k, v) ∈ m.toList ↔ m.get? k = some v :=
  ⟨Sorted.lookup_eq_some_of_mem m.increasing, Sorted.mem_of_lookup_eq_some⟩

theorem get?_insert [Std.TransOrd κ] [DecidableEq κ] {i k : κ} {v : β} {m : SortedMap κ β} :
    (m.insert k v).get? i = if i = k then some v else m.get? i := by
  split
  next h => rw [h, get?_insert_self]
  next h => exact get?_insert_of_ne fun e => h (Std.LawfulEqCmp.eq_of_compare e)

@[simp] theorem get?_filter {p : κ → β → Bool} {k : κ} {m : SortedMap κ β} :
    (m.filter p).get? k = (m.get? k).filter (p k) := by
  ext v
  rw [← mem_toList_iff, Option.filter_eq_some_iff, ← mem_toList_iff]
  exact List.mem_filter

@[simp] theorem get?_erase [DecidableEq κ] {i k : κ} {m : SortedMap κ β} :
    (m.erase k).get? i = if i = k then none else m.get? i := by
  rw [erase, get?_filter]
  split
  next h => simp [h, Std.ReflCmp.compare_self]
  next h =>
    have hne : compare k i ≠ .eq := fun e => h (Std.LawfulEqCmp.eq_of_compare e).symm
    cases m.get? i <;> simp [hne]

theorem contains_foldl_insert [Std.TransOrd κ] [DecidableEq κ] {k : κ} {l : List (κ × β)}
    {m : SortedMap κ β} : (l.foldl (fun m e => m.insert e.1 e.2) m).contains k = true ↔
      k ∈ l.map (·.1) ∨ m.contains k = true := by
  induction l generalizing m with
  | nil => simp
  | cons e l ih =>
    rw [List.foldl_cons, ih, List.map_cons, List.mem_cons, contains, contains, get?_insert]
    by_cases hk : k = e.1 <;> simp [hk]

theorem contains_ofList [Std.TransOrd κ] [DecidableEq κ] {k : κ} {l : List (κ × β)} :
    (ofList l).contains k = true ↔ k ∈ l.map (·.1) := by
  rw [ofList, contains_foldl_insert]
  exact or_iff_left (by simp [contains])

theorem ext_get? {m n : SortedMap κ β} [Std.TransOrd κ] (h : ∀ k, m.get? k = n.get? k) :
    m = n := by
  have hd : ∀ {u : SortedMap κ β}, u.toList.Nodup := by
    intro u
    refine u.increasing.imp ?_
    rintro a b hab rfl
    simp [Std.ReflCmp.compare_self] at hab
  refine eq_of_perm ((List.perm_ext_iff_of_nodup hd hd).mpr ?_)
  rintro ⟨k, v⟩
  rw [mem_toList_iff, mem_toList_iff, h]

end Lawful

theorem foldl_insert_append [Std.TransOrd κ] {l : List (κ × β)} {m : SortedMap κ β}
    (h : Sorted.KeysIncreasing (m.toList ++ l)) :
    (l.foldl (fun m e => m.insert e.1 e.2) m).toList = m.toList ++ l := by
  induction l generalizing m with
  | nil => simp
  | cons e l ih =>
    have he : ∀ b ∈ m.toList, compare b.1 e.1 = .lt := fun b hb =>
      (List.pairwise_append.mp h).2.2 b hb e List.mem_cons_self
    have hm : (m.insert e.1 e.2).toList = m.toList ++ [e] := Sorted.put_of_forall_lt he
    rw [List.foldl_cons, ih (by simpa [hm] using h), hm]
    simp

@[simp] theorem ofList_toList [Std.TransOrd κ] (m : SortedMap κ β) : ofList m.toList = m := by
  apply ext_toList
  exact foldl_insert_append m.increasing

theorem foldl_insert_perm [Std.TransOrd κ] {l : List (κ × β)} {m : SortedMap κ β}
    (h : (m.toList ++ l).Pairwise fun a b => compare a.1 b.1 ≠ .eq) :
    (l.foldl (fun m e => m.insert e.1 e.2) m).toList.Perm (m.toList ++ l) := by
  induction l generalizing m with
  | nil => simp
  | cons e l ih =>
    have hsymm : ∀ {a b : κ × β}, compare a.1 b.1 ≠ .eq → compare b.1 a.1 ≠ .eq :=
      fun hab hba => hab (Std.OrientedCmp.eq_symm hba)
    have he : ∀ b ∈ m.toList, compare e.1 b.1 ≠ .eq := fun b hb =>
      hsymm ((List.pairwise_append.mp h).2.2 b hb e List.mem_cons_self)
    have hm : (m.insert e.1 e.2).toList.Perm (e :: m.toList) := Sorted.put_perm he
    have hl : ((m.insert e.1 e.2).toList ++ l).Perm (m.toList ++ e :: l) :=
      (hm.append_right l).trans List.perm_middle.symm
    exact (ih (hl.symm.pairwise h hsymm)).trans hl

/-- Entries with different keys are all there. -/
theorem mem_toList_ofList [Std.LawfulEqOrd κ] [Std.TransOrd κ] {l : List (κ × β)}
    (h : (l.map (·.1)).Nodup) {e : κ × β} : e ∈ (ofList l).toList ↔ e ∈ l := by
  refine (foldl_insert_perm (m := ∅) ?_).mem_iff
  rw [List.Nodup, List.pairwise_map] at h
  exact h.imp fun hne heq => hne (Std.LawfulEqCmp.eq_of_compare heq)

theorem nodup_keys [Std.TransOrd κ] (m : SortedMap κ β) : (m.toList.map (·.1)).Nodup := by
  rw [List.Nodup, List.pairwise_map]
  refine m.increasing.imp fun {a b} hlt heq => ?_
  rw [heq] at hlt
  simp [Std.ReflCmp.compare_self] at hlt

/-- The entries of a map, entered in any order, make up the map again. -/
theorem ofList_of_perm [Std.TransOrd κ] {m : SortedMap κ β} {l : List (κ × β)}
    (h : l.Perm m.toList) : ofList l = m := by
  have hl : l.Pairwise fun a b => compare a.1 b.1 ≠ .eq := by
    refine h.symm.pairwise (m.increasing.imp ?_) ?_
    · intro a b hab heq
      rw [hab] at heq
      cases heq
    · exact fun hab hba => hab (Std.OrientedCmp.eq_symm hba)
  exact eq_of_perm ((foldl_insert_perm (m := ∅) hl).trans h)

end SortedMap

end Winnow
