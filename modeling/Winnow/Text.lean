/-!
# Texts

Tests and cuts on texts, character by character. `Text.cut` is the basis of every
format here that is divided at the first occurrence of a mark.
-/
namespace Winnow.Text

/-- What stands before and after the first `mark`, if there is one. -/
def cut (mark : Char) : List Char → Option (List Char × List Char)
  | [] => none
  | c :: l => if c = mark then some ([], l) else (cut mark l).map fun p => (c :: p.1, p.2)

theorem eq_of_cut {mark : Char} {l a b : List Char} (h : cut mark l = some (a, b)) :
    l = a ++ mark :: b ∧ mark ∉ a := by
  induction l generalizing a b with
  | nil => simp [cut] at h
  | cons c l ih =>
    by_cases hc : c = mark
    · simp only [cut, hc, if_true, Option.some.injEq, Prod.mk.injEq] at h
      obtain ⟨rfl, rfl⟩ := h
      simp [hc]
    · simp only [cut, hc, if_false, Option.map_eq_some_iff, Prod.mk.injEq] at h
      obtain ⟨⟨u, v⟩, hp, rfl, rfl⟩ := h
      obtain ⟨rfl, hm⟩ := ih hp
      exact ⟨rfl, by simp [hm, Ne.symm hc]⟩

theorem length_of_cut {mark : Char} {l a b : List Char} (h : cut mark l = some (a, b)) :
    b.length < l.length := by
  rw [(eq_of_cut h).1, List.length_append, List.length_cons]
  omega

theorem cut_append {mark : Char} {a b : List Char} (h : mark ∉ a) :
    cut mark (a ++ mark :: b) = some (a, b) := by
  induction a with
  | nil => simp [cut]
  | cons c a ih =>
    have hc : c ≠ mark := fun e => h (by simp [e])
    simp [cut, hc, ih fun m => h (by simp [m])]

/-- The first occurrence of `mark` divides the text. -/
def divide (mark : Char) (s : String) : Option (String × String) :=
  (cut mark s.toList).map fun p => (String.ofList p.1, String.ofList p.2)

/-- `part` stands somewhere in the text. -/
def occursIn (part : List Char) : List Char → Bool
  | [] => part.isEmpty
  | c :: l => part.isPrefixOf (c :: l) || occursIn part l

theorem occursIn_iff {part l : List Char} : occursIn part l = true ↔ part <:+: l := by
  induction l with
  | nil => simp [occursIn]
  | cons c l ih =>
    simp only [occursIn, Bool.or_eq_true, List.isPrefixOf_iff_prefix, ih, List.infix_cons_iff]

def startsWith (s start : String) : Bool := start.toList.isPrefixOf s.toList

def endsWith (s ending : String) : Bool := ending.toList.isSuffixOf s.toList

def contains (s part : String) : Bool := occursIn part.toList s.toList

/-- The text without `ending`, where it ends so. -/
def withoutEnding (ending s : String) : Option String :=
  if endsWith s ending then
    some (String.ofList (s.toList.take (s.length - ending.length)))
  else none

/-- Texts one after the other with `mark` between them. -/
def joined (mark : String) (texts : List String) : String := mark.intercalate texts

/-- White space of every script: the characters at which a text falls into words. -/
def isBlank (c : Char) : Bool :=
  ('\u0009' ≤ c && c ≤ '\u000d') || c = '\u0020' || c = '\u0085' || c = '\u00a0' || c = '\u1680' ||
    ('\u2000' ≤ c && c ≤ '\u200a') || c = '\u2028' || c = '\u2029' || c = '\u202f' ||
    c = '\u205f' || c = '\u3000'

/-- The maximal runs of characters that are not blank. -/
def words (s : String) : List String :=
  ((s.toList.splitOnP isBlank).filter (· ≠ [])).map String.ofList

end Winnow.Text
