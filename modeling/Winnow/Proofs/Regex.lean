import Mathlib.Data.List.Forall2
import Winnow.Regex.Basic

/-!
# What regexes mean

What is documented of regexes, as far as it is needed here: how the items are
written, and at which places of a text they match. An engine implements this if
it gives every text that is written so its meaning, unless the regex is one that
it does not take, as an engine may refuse what becomes too large.

The engine of this library takes them all. It never divides a text: it keeps one
row of answers, one for each place, and puts the items in front from the last to
the first. So what is proved is what such a row says, and how one more item
changes it.
-/
namespace Winnow

/-- How an atom is written: a character by itself or, if it has a meaning of its own, after a
backslash; and a class, here one that lists characters without such a meaning. -/
inductive RegexAtom.Spelled : RegexAtom → List Char → Prop
  | plain {c : Char} : Regex.isMeta c = false → Spelled (.literal c) [c]
  | escaped {c : Char} : Regex.isMeta c = true → Spelled (.literal c) ['\\', c]
  | dot : Spelled .dot ['.']
  | set {chars : List Char} : chars ≠ [] → (∀ c ∈ chars, Regex.isMeta c = false) →
      Spelled (.set false (.ranges (chars.map fun c => (c, c)))) ('[' :: (chars ++ [']']))
  | except {chars : List Char} : chars ≠ [] → (∀ c ∈ chars, Regex.isMeta c = false) →
      Spelled (.set true (.ranges (chars.map fun c => (c, c)))) ('[' :: '^' :: (chars ++ [']']))

inductive RegexItem.Spelled : RegexItem → List Char → Prop
  | start : Spelled .start ['^']
  | finish : Spelled .finish ['$']
  | one {atom : RegexAtom} {text : List Char} : atom.Spelled text → Spelled (.one atom) text
  | many {atom : RegexAtom} {text : List Char} :
      atom.Spelled text → Spelled (.many atom) (text ++ ['*'])

namespace Regex

/-- The items are written one after the other. -/
def Spelled (r : Regex) (text : List Char) : Prop :=
  ∃ parts, List.Forall₂ RegexItem.Spelled r.items parts ∧ parts.flatten = text

/-- The items match where `before` is behind and `rest` is ahead. They need not go to the end. -/
def MatchesAt : List RegexItem → List Char → List Char → Prop
  | [], _, _ => True
  | .start :: items, before, rest => before = [] ∧ MatchesAt items before rest
  | .finish :: items, before, rest => rest = [] ∧ MatchesAt items before rest
  | .one atom :: items, before, rest => ∃ c rest', rest = c :: rest' ∧ atom.has c = true ∧
      MatchesAt items (before ++ [c]) rest'
  | .many atom :: items, before, rest => ∃ run rest', rest = run ++ rest' ∧
      (∀ c ∈ run, atom.has c = true) ∧ MatchesAt items (before ++ run) rest'

/-- The regex matches at some place. -/
def Matches (r : Regex) (text : List Char) : Prop :=
  ∃ before rest, text = before ++ rest ∧ MatchesAt r.items before rest

end Regex

/-- The engine does what is documented, for the regexes that it takes. -/
structure RegexEngine.Implements {α : Type} (engine : RegexEngine α) (takes : Regex → Prop) :
    Prop where
  compile_iff : ∀ (r : Regex) (text : String), r.Spelled text.toList →
    ((∃ program, engine.compile text = some program) ↔ takes r)
  isMatch_iff : ∀ (r : Regex) (text : String) (program : α), r.Spelled text.toList →
    engine.compile text = some program →
    ∀ s : String, engine.isMatch program s = true ↔ r.Matches s.toList

/-- A character without a meaning of its own is none of those that have one. -/
theorem Regex.ne_of_plain {c d : Char} (hc : isMeta c = false) (hd : isMeta d = true) : c ≠ d := by
  rintro rfl
  exact Bool.false_ne_true (hc.symm.trans hd)

namespace CharSet

variable {chars : List Char}

/-- Characters that are part of no operator and of no range stand for themselves. -/
theorem readFrom_of_plain {left : Pending} {pairs : List (Char × Char)}
    (h : ∀ c ∈ chars, Regex.isMeta c = false) :
    readFrom left pairs chars = some (complete left (pairs ++ chars.map fun c => (c, c))) := by
  have hoperator : ∀ a b : Char, Regex.isMeta a = false → operator? a b = none := by
    intro a b ha
    unfold operator?
    split
    next =>
      unfold SetOperator.ofChar?
      split
      all_goals first | rfl | cases ha
    next => rfl
  fun_induction readFrom left pairs chars with
  | case1 => simp
  | case2 => rfl
  | case3 left pairs a b op hop | case5 left pairs a b c l op hop =>
    rw [hoperator a b (h a (by simp))] at hop
    cases hop
  | case4 => rfl
  | case6 left pairs a b c l _ hdash | case7 left pairs a b c l _ hdash =>
    exact absurd hdash.1 (Regex.ne_of_plain (h b (by simp)) rfl)
  | case8 left pairs a b c l _ _ ih =>
    rw [ih fun d hd => h d (List.mem_cons_of_mem a hd)]
    simp

theorem parse_of_plain (hne : chars ≠ []) (h : ∀ c ∈ chars, Regex.isMeta c = false) :
    parse chars = some (.ranges (chars.map fun c => (c, c))) := by
  obtain ⟨c, l, rfl⟩ := List.exists_cons_of_ne_nil hne
  have hdash : c ≠ '-' := Regex.ne_of_plain (h c List.mem_cons_self) rfl
  simp [parse, hdash, readFrom_of_plain h, complete]

end CharSet

namespace Regex

section Reading

variable {atom : RegexAtom} {item : RegexItem} {text rest : List Char}

theorem cutClass_of_plain {first : Bool} {chars : List Char} (hne : first = true → chars ≠ [])
    (h : ∀ c ∈ chars, isMeta c = false) :
    cutClass first (chars ++ ']' :: rest) = some (chars, rest) := by
  induction chars generalizing first with
  | nil =>
    cases first with
    | true => exact absurd rfl (hne rfl)
    | false => rfl
  | cons c chars ih =>
    have hrest : cutClass false (chars ++ ']' :: rest) = some (chars, rest) :=
      ih nofun fun d hd => h d (List.mem_cons_of_mem c hd)
    have hc := h c List.mem_cons_self
    have hclose : c ≠ ']' := ne_of_plain hc rfl
    have hopen : c ≠ '[' := ne_of_plain hc rfl
    have hescape : c ≠ '\\' := ne_of_plain hc rfl
    simp [cutClass, hescape, hrest]

theorem readClass_of_plain {negated : Bool} {chars : List Char} (hne : chars ≠ [])
    (h : ∀ c ∈ chars, isMeta c = false) :
    readClass negated (chars ++ ']' :: rest) =
      some (.set negated (.ranges (chars.map fun c => (c, c))), rest) := by
  simp [readClass, cutClass_of_plain (fun _ => hne) h, CharSet.parse_of_plain hne h]

/-- An atom does not begin with an anchor or a star. -/
theorem head_of_spelled (h : atom.Spelled text) :
    ∃ c l, text = c :: l ∧ c ≠ '^' ∧ c ≠ '$' ∧ c ≠ '*' := by
  cases h with
  | @plain c hc => exact ⟨c, [], rfl, ne_of_plain hc rfl, ne_of_plain hc rfl, ne_of_plain hc rfl⟩
  | escaped => exact ⟨'\\', _, rfl, by decide, by decide, by decide⟩
  | dot => exact ⟨'.', _, rfl, by decide, by decide, by decide⟩
  | set | except => exact ⟨'[', _, rfl, by decide, by decide, by decide⟩

theorem readAtom_of_spelled (h : atom.Spelled text) :
    readAtom (text ++ rest) = some (atom, rest) := by
  cases h with
  | @plain c hc =>
    have hdot : c ≠ '.' := ne_of_plain hc rfl
    have hopen : c ≠ '[' := ne_of_plain hc rfl
    have hescape : c ≠ '\\' := ne_of_plain hc rfl
    simp [readAtom, hopen, hescape, hc]
  | @escaped c hc =>
    show readAtom ('\\' :: c :: rest) = _
    simp [readAtom, hc]
  | dot => rfl
  | @set chars hne hplain =>
    obtain ⟨c, l, rfl⟩ := List.exists_cons_of_ne_nil hne
    have hc : c ≠ '^' := ne_of_plain (hplain c List.mem_cons_self) rfl
    rw [← readClass_of_plain hne hplain]
    simp [readAtom, hc]
  | @except chars hne hplain =>
    rw [← readClass_of_plain hne hplain]
    simp [readAtom]

theorem repeated_of_head? (h : rest.head? ≠ some '*') : repeated atom rest = (.one atom, rest) := by
  unfold repeated
  split
  next => exact absurd rfl h
  next => rfl

theorem readItem_cons {c : Char} {l : List Char} (hstart : c ≠ '^') (hfinish : c ≠ '$') :
    readItem (c :: l) = (readAtom (c :: l)).map fun r => repeated r.1 r.2 := by
  unfold readItem
  split
  next heq => exact absurd (List.cons.inj heq).1 hstart
  next heq => exact absurd (List.cons.inj heq).1 hfinish
  next => rfl

theorem readItem_of_spelled (h : item.Spelled text) (hrest : rest.head? ≠ some '*') :
    readItem (text ++ rest) = some (item, rest) := by
  cases h with
  | start | finish => rfl
  | @one atom _ h =>
    obtain ⟨c, l, rfl, hstart, hfinish, _⟩ := head_of_spelled h
    rw [List.cons_append, readItem_cons hstart hfinish, ← List.cons_append, readAtom_of_spelled h,
      Option.map_some, repeated_of_head? hrest]
  | @many atom text h =>
    obtain ⟨c, l, rfl, hstart, hfinish, _⟩ := head_of_spelled h
    rw [List.append_assoc, List.cons_append, readItem_cons hstart hfinish, ← List.cons_append,
      readAtom_of_spelled h]
    rfl

theorem head?_of_spelled (h : item.Spelled text) : text ≠ [] ∧ text.head? ≠ some '*' := by
  cases h with
  | start | finish => simp
  | one h =>
    obtain ⟨c, l, rfl, _, _, hstar⟩ := head_of_spelled h
    simpa using hstar
  | many h =>
    obtain ⟨c, l, rfl, _, _, hstar⟩ := head_of_spelled h
    simpa using hstar

theorem readItems_of_spelled {items : List RegexItem} {parts : List (List Char)}
    (h : List.Forall₂ RegexItem.Spelled items parts) :
    readItems parts.flatten = some items ∧ parts.flatten.head? ≠ some '*' := by
  induction h with
  | nil => exact ⟨by rw [readItems]; rfl, by simp⟩
  | @cons item part items parts hitem _ ih =>
    obtain ⟨hitems, hhead⟩ := ih
    obtain ⟨hne, hstar⟩ := head?_of_spelled hitem
    rw [List.flatten_cons]
    refine ⟨?_, ?_⟩
    · rw [readItems, if_neg (by simp [hne])]
      have hread := readItem_of_spelled hitem hhead
      split
      next hnone =>
        rw [hread] at hnone
        cases hnone
      next r hr =>
        rw [hread] at hr
        cases hr
        rw [hitems]
        rfl
    · rwa [List.head?_append_of_ne_nil _ hne]

theorem compile_of_spelled {r : Regex} {s : String} (h : r.Spelled s.toList) :
    compile s = some r := by
  obtain ⟨parts, hparts, htext⟩ := h
  rw [compile, ← htext, (readItems_of_spelled hparts).1]
  rfl

end Reading

section Matching

/-- The row answers for each place of what is ahead whether it has the property. -/
inductive Row (P : List Char → List Char → Prop) : List Char → List Char → List Bool → Prop
  | nil {b : Bool} {before : List Char} : (b = true ↔ P before []) → Row P before [] [b]
  | cons {b : Bool} {before : List Char} {c : Char} {l : List Char} {row : List Bool} :
      (b = true ↔ P before (c :: l)) → Row P (before ++ [c]) l row →
        Row P before (c :: l) (b :: row)

variable {P Q : List Char → List Char → Prop} {p : Char → Bool} {before l : List Char}
  {row : List Bool}

theorem Row.headD (h : Row P before l row) : row.headD false = true ↔ P before l := by
  cases h with
  | nil hb => exact hb
  | cons hb _ => exact hb

/-- A text is divided at its beginning, or after its first character at the earliest. -/
theorem exists_cons_eq_append {Q : List Char → List Char → Prop} {c : Char} {l : List Char} :
    (∃ l₁ l₂, c :: l = l₁ ++ l₂ ∧ Q l₁ l₂) ↔
      Q [] (c :: l) ∨ ∃ l₁ l₂, l = l₁ ++ l₂ ∧ Q (c :: l₁) l₂ := by
  constructor
  · rintro ⟨l₁, l₂, hl, hQ⟩
    cases l₁ with
    | nil => exact .inl (hl ▸ hQ)
    | cons d l₁ =>
      obtain ⟨rfl, rfl⟩ := List.cons.inj hl
      exact .inr ⟨l₁, l₂, rfl, hQ⟩
  · rintro (hQ | ⟨l₁, l₂, rfl, hQ⟩)
    · exact ⟨[], c :: l, rfl, hQ⟩
    · exact ⟨c :: l₁, l₂, rfl, hQ⟩

theorem Row.any (h : Row P before l row) :
    row.any id = true ↔ ∃ l₁ l₂, l = l₁ ++ l₂ ∧ P (before ++ l₁) l₂ := by
  induction h with
  | nil hb => simp [hb]
  | cons hb _ ih =>
    rw [exists_cons_eq_append, List.any_cons, Bool.or_eq_true, ih]
    simp [hb]

theorem row_true (before l : List Char) :
    Row (fun _ _ => True) before l (true :: l.map fun _ => true) := by
  induction l generalizing before with
  | nil => exact .nil (by simp)
  | cons c l ih => exact .cons (by simp) (ih _)

theorem Row.prependOne (h : Row P before l row) :
    Row (fun before rest => ∃ c rest', rest = c :: rest' ∧ p c = true ∧ P (before ++ [c]) rest')
      before l (prependOne p l row) := by
  induction h with
  | nil => exact .nil (by simp)
  | cons _ hrow ih =>
    refine .cons ?_ ih
    rw [Bool.and_eq_true, hrow.headD]
    simp

theorem Row.prependMany (h : Row P before l row) :
    Row (fun before rest => ∃ run rest', rest = run ++ rest' ∧ (∀ c ∈ run, p c = true) ∧
      P (before ++ run) rest') before l (prependMany p l row) := by
  induction h with
  | nil hb => exact .nil (hb.trans (by simp))
  | @cons b before c l row hb hrow ih =>
    refine .cons ?_ ih
    rw [Bool.or_eq_true, Bool.and_eq_true, ih.headD, hb, exists_cons_eq_append]
    -- The run is empty, or it takes this character and goes on.
    refine or_congr (by simp) ?_
    simp only [List.forall_mem_cons, List.append_assoc, List.singleton_append, and_assoc,
      and_left_comm, exists_and_left]

theorem Row.prependFinish (h : Row P before l row) :
    Row (fun before rest => rest = [] ∧ P before rest) before l (prependFinish row) := by
  induction h with
  | nil hb => exact .nil (by simpa using hb)
  | cons _ hrow ih =>
    cases hrow with
    | nil => exact .cons (by simp) ih
    | cons => exact .cons (by simp) ih

/-- Past the beginning nothing can be tied to it. -/
theorem Row.map_false (h : Row P before l row) (hbefore : before ≠ []) :
    Row (fun before rest => before = [] ∧ P before rest) before l (row.map fun _ => false) := by
  induction h with
  | nil => exact .nil (by simp [hbefore])
  | cons _ _ ih => exact .cons (by simp [hbefore]) (ih (by simp))

theorem Row.prependStart (h : Row P [] l row) :
    Row (fun before rest => before = [] ∧ P before rest) [] l (prependStart row) := by
  cases h with
  | nil hb => exact .nil (by simpa using hb)
  | cons hb hrow => exact .cons (by simpa using hb) (hrow.map_false (by simp))

theorem row_matchRow (text : List Char) (items : List RegexItem) :
    Row (MatchesAt items) [] text (matchRow text items) := by
  induction items with
  | nil => exact row_true [] text
  | cons item items ih =>
    cases item with
    | start => exact ih.prependStart
    | finish => exact ih.prependFinish
    | one => exact ih.prependOne
    | many => exact ih.prependMany

/-- Every place of the text, and every way to divide it, is taken into account. -/
theorem isMatch_iff_matches (r : Regex) (text : String) :
    r.isMatch text = true ↔ r.Matches text.toList :=
  (row_matchRow text.toList r.items).any

end Matching

/-- The engine does what is documented, and refuses nothing. -/
theorem implements_engine : engine.Implements fun _ => True where
  compile_iff r text h := iff_of_true ⟨r, compile_of_spelled h⟩ trivial
  isMatch_iff r text program h hprogram := by
    obtain rfl := Option.some.inj ((compile_of_spelled h).symm.trans hprogram)
    exact isMatch_iff_matches r

end Regex

end Winnow
