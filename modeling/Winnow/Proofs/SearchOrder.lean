import Mathlib.Data.List.Chain
import Mathlib.Data.List.Infix
import Winnow.Proofs.Search

/-!
# The order of a breadth-first search

Everything that is met lists its neighbours, and what none has listed before
comes next. So the order repeats the lists of the queue and of its own places,
each place where it is listed first. Together with the rule that a place is
listed before it is met, this determines the order.

From it follows that what is nearer to the start is met first: the neighbours
of a place are listed after those of all places before it.
-/
namespace Winnow

variable {α : Type} [DecidableEq α]

/-- The order in which a search from `queue` meets the places that `p` admits. -/
structure IsBreadthFirst (next : α → List α) (p : α → Bool) (queue order : List α) : Prop where
  listed : order = ((queue ++ order.flatMap next).filter p).eraseDups
  met : ∀ pre x post, order = pre ++ x :: post → x ∈ queue ∨ ∃ y ∈ pre, x ∈ next y

theorem nodup_eraseDups (l : List α) : l.eraseDups.Nodup := by
  induction hn : l.length using Nat.strong_induction_on generalizing l with
  | _ n ih =>
    cases l with
    | nil => exact List.nodup_nil
    | cons a l =>
      have hlt : (l.filter fun b => !b == a).length < n := by
        have hle := List.length_filter_le (fun b => !b == a) l
        simp only [List.length_cons] at hn
        omega
      rw [List.eraseDups_cons, List.nodup_cons]
      exact ⟨by simp, ih _ hlt _ rfl⟩

theorem eraseDups_of_nodup {l : List α} (hl : l.Nodup) : l.eraseDups = l := by
  induction l with
  | nil => rfl
  | cons a l ih =>
    obtain ⟨ha, hl⟩ := List.nodup_cons.mp hl
    have hfilter : l.filter (fun b => !b == a) = l := by
      rw [List.filter_eq_self]
      intro b hb
      simpa using fun h : b = a => ha (h ▸ hb)
    rw [List.eraseDups_cons, hfilter, ih hl]

/-- What comes later does not move what was listed before. -/
theorem eraseDups_prefix_append (l l' : List α) : l.eraseDups <+: (l ++ l').eraseDups := by
  rw [List.eraseDups_append]
  exact List.prefix_append _ _

theorem isBreadthFirst_breadthFirst (next : α → List α) (fresh queue : List α) :
    IsBreadthFirst next (· ∈ fresh) queue (breadthFirst next fresh queue) where
  listed := by
    fun_induction breadthFirst next fresh queue with
    | case1 => rfl
    | case2 fresh a queue ha ih =>
      have hfresh : ∀ l : List α, (l.filter (· ∈ fresh)).filter (fun b => !b == a) =
          l.filter (· ∈ without a fresh) := by
        intro l
        rw [List.filter_filter]
        congr 1
        funext b
        by_cases hb : b = a <;> simp [mem_without, hb]
      rw [List.flatMap_cons, List.cons_append, List.filter_cons_of_pos (by simpa using ha),
        List.eraseDups_cons, hfresh, ← List.append_assoc, ← ih]
    | case3 fresh a queue ha ih =>
      rw [List.cons_append, List.filter_cons_of_neg (by simpa using ha)]
      exact ih
  met := by
    fun_induction breadthFirst next fresh queue with
    | case1 => simp
    | case2 fresh a queue ha ih =>
      intro pre x post h
      cases pre with
      | nil => exact .inl (by simp [(List.cons.inj h).1])
      | cons b pre =>
        obtain ⟨rfl, hrest⟩ := List.cons.inj h
        rcases ih pre x post hrest with hx | ⟨y, hy, hx⟩
        · rcases List.mem_append.mp hx with hx | hx
          · exact .inl (List.mem_cons_of_mem a hx)
          · exact .inr ⟨a, List.mem_cons_self, hx⟩
        · exact .inr ⟨y, List.mem_cons_of_mem a hy, hx⟩
    | case3 fresh a queue ha ih =>
      intro pre x post h
      exact (ih pre x post h).imp_left (List.mem_cons_of_mem a)

namespace IsBreadthFirst

variable {next : α → List α} {p q : α → Bool} {queue order order' pre post : List α} {a x y : α}

theorem nodup (h : IsBreadthFirst next p queue order) : order.Nodup := by
  rw [h.listed]
  exact nodup_eraseDups _

theorem admitted (h : IsBreadthFirst next p queue order) (hx : x ∈ order) : p x = true := by
  rw [h.listed, List.mem_eraseDups] at hx
  exact (List.mem_filter.mp hx).2

/-- Only what is listed can be met, so it is enough to know of that whether it is admitted. -/
theorem congr (h : IsBreadthFirst next p queue order)
    (hpq : ∀ x ∈ queue ++ order.flatMap next, p x = q x) : IsBreadthFirst next q queue order where
  listed := by
    rw [← List.filter_congr hpq]
    exact h.listed
  met := h.met

/-- What the queue and the first places list comes first. -/
theorem prefix_of_prefix (h : IsBreadthFirst next p queue order) (hpre : pre <+: order) :
    ((queue ++ pre.flatMap next).filter p).eraseDups <+: order := by
  obtain ⟨post, rfl⟩ := hpre
  have hp := eraseDups_prefix_append ((queue ++ pre.flatMap next).filter p)
    ((post.flatMap next).filter p)
  rwa [← List.filter_append, List.append_assoc, ← List.flatMap_append, ← h.listed] at hp

theorem mem_of_mem_next (h : IsBreadthFirst next p queue order) (hx : x ∈ order) (hy : y ∈ next x)
    (hp : p y = true) : y ∈ order := by
  rw [h.listed, List.mem_eraseDups, List.mem_filter]
  exact ⟨List.mem_append_right _ (List.mem_flatMap.mpr ⟨x, hx, hy⟩), hp⟩

/-- The first places determine the next one. -/
theorem prefix_of_isBreadthFirst (h : IsBreadthFirst next p queue order)
    (h' : IsBreadthFirst next p queue order') (hpre : pre <+: order) : pre <+: order' := by
  induction pre using List.reverseRecOn with
  | nil => exact List.nil_prefix
  | append_singleton pre x ih =>
    have hinit : pre <+: order := (List.prefix_append pre [x]).trans hpre
    have hfirst := h.prefix_of_prefix hinit
    have hfirst' := h'.prefix_of_prefix (ih hinit)
    refine .trans ?_ hfirst'
    rcases List.prefix_or_prefix_of_prefix hpre hfirst with hle | hle
    · exact hle
    · rcases List.prefix_concat_iff.mp hle with heq | hle
      · rw [heq]
      · -- The next place is listed already, so it would be met twice.
        have hx : x ∈ pre := by
          apply hle.mem
          rw [List.mem_eraseDups, List.mem_filter, List.mem_append, List.mem_flatMap]
          obtain ⟨post, rfl⟩ := hpre
          exact ⟨h.met pre x post (by simp), h.admitted (by simp)⟩
        have hdup := List.nodup_append.mp (h.nodup.sublist hpre.sublist)
        exact (hdup.2.2 x hx x (List.mem_singleton_self x) rfl).elim

theorem unique (h : IsBreadthFirst next p queue order) (h' : IsBreadthFirst next p queue order') :
    order = order' :=
  List.IsPrefix.eq_of_length_le (h.prefix_of_isBreadthFirst h' (List.prefix_refl order))
    (h'.prefix_of_isBreadthFirst h (List.prefix_refl order')).length_le

end IsBreadthFirst

section Distance

/-- A walk of `n` steps. -/
inductive StepsTo (next : α → List α) (a : α) : Nat → α → Prop
  | here : StepsTo next a 0 a
  | step {n : Nat} {b c : α} : StepsTo next a n b → c ∈ next b → StepsTo next a (n + 1) c

variable {next : α → List α} {p : α → Bool} {queue order : List α} {a : α}

theorem StepsTo.mem_order (h : IsBreadthFirst next p [a] order) (ha : p a = true)
    (hp : ∀ x ∈ order, ∀ y ∈ next x, p y = true) {n : Nat} {x : α} (hx : StepsTo next a n x) :
    x ∈ order := by
  induction hx with
  | here =>
    rw [h.listed, List.mem_eraseDups, List.mem_filter]
    exact ⟨by simp, ha⟩
  | step _ hc ih => exact h.mem_of_mem_next ih hc (hp _ ih _ hc)

/-- A place is listed no later than any place after it. -/
theorem IsBreadthFirst.listed_before (h : IsBreadthFirst next p queue order) {x y : α}
    (hxy : [x, y].Sublist order) {pre : List α} (hpre : pre <+: order)
    (hy : y ∈ queue ++ pre.flatMap next) : x ∈ queue ++ pre.flatMap next := by
  have hfirst := h.prefix_of_prefix hpre
  have hyfirst : y ∈ ((queue ++ pre.flatMap next).filter p).eraseDups := by
    rw [List.mem_eraseDups, List.mem_filter]
    exact ⟨hy, h.admitted (hxy.subset (by simp))⟩
  obtain ⟨rest, hrest⟩ := hfirst
  have hdup := List.nodup_append.mp (hrest ▸ h.nodup)
  rw [← hrest, List.sublist_append_iff] at hxy
  obtain ⟨l, l', hll, hl, hl'⟩ := hxy
  cases l with
  | nil =>
    rw [List.nil_append] at hll
    exact (hdup.2.2 y hyfirst y (hl'.subset (by simp [← hll])) rfl).elim
  | cons z l =>
    obtain ⟨rfl, _⟩ := List.cons.inj hll
    have hx := hl.subset List.mem_cons_self
    rw [List.mem_eraseDups] at hx
    exact (List.mem_filter.mp hx).1

/-- No place is farther from the start than those after it. -/
theorem IsBreadthFirst.pairwise_nearer (h : IsBreadthFirst next p [a] order) (ha : p a = true)
    (hp : ∀ x ∈ order, ∀ y ∈ next x, p y = true) :
    order.Pairwise fun x y => ∀ n, StepsTo next a n y → ∃ m ≤ n, StepsTo next a m x := by
  rw [List.pairwise_iff_forall_sublist]
  intro x y hxy n hy
  -- Along the walk: what comes before a place is listed by the place before it, or earlier.
  induction hy generalizing x with
  | here =>
    have hx := h.listed_before hxy List.nil_prefix (by simp)
    rw [List.flatMap_nil, List.append_nil, List.mem_singleton] at hx
    exact ⟨0, Nat.le_refl 0, hx ▸ .here⟩
  | @step n b c hb hc ih =>
    obtain ⟨pre, post, hsplit⟩ := List.append_of_mem (hb.mem_order h ha hp)
    have hpre : pre ++ [b] <+: order := ⟨post, by simp [hsplit]⟩
    have hx := h.listed_before hxy hpre
      (List.mem_append_right _ (List.mem_flatMap.mpr ⟨b, by simp, hc⟩))
    rcases List.mem_append.mp hx with hx | hx
    · exact ⟨0, Nat.zero_le _, List.mem_singleton.mp hx ▸ .here⟩
    · obtain ⟨w, hw, hxw⟩ := List.mem_flatMap.mp hx
      rcases List.mem_append.mp hw with hw | hw
      · have hwb : [w, b].Sublist order := by
          rw [hsplit]
          exact (List.singleton_sublist.mpr hw).append (List.singleton_sublist.mpr (by simp))
        obtain ⟨m, hm, hsteps⟩ := ih hwb
        exact ⟨m + 1, Nat.succ_le_succ hm, .step hsteps hxw⟩
      · rw [List.mem_singleton.mp hw] at hxw
        exact ⟨n + 1, Nat.le_refl _, .step hb hxw⟩

end Distance

end Winnow
