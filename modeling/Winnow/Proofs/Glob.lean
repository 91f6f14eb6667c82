import Mathlib.Data.Char
import Winnow.Glob
import Winnow.Proofs.Regex

/-!
# What globs stand for

Each piece of a pattern stands for some texts, and a pattern matches a text just
if the text falls into parts for which the pieces stand, one after the other.
This is told of the regex that is written for the pattern, and so of whatever
engine does with regexes what is documented of them.
-/
namespace Winnow

/-- What one place of a pattern without brackets stands for. -/
inductive GlobPiece
  | literal (c : Char)
  /-- One character but a slash. -/
  | one
  /-- Any text without a slash. -/
  | segment
  /-- Any text within a line. -/
  | anything
deriving DecidableEq, Repr

namespace GlobPiece

/-- The texts that a piece stands for. -/
def StandsFor : GlobPiece → List Char → Prop
  | .literal d, l => l = [d]
  | .one, l => ∃ c, l = [c] ∧ c ≠ '/'
  | .segment, l => '/' ∉ l
  | .anything, l => '\n' ∉ l

/-- Any character but a slash. -/
def notSlash : RegexAtom := .set true (.ranges (['/'].map fun c => (c, c)))

/-- What is written for a piece. -/
def item : GlobPiece → RegexItem
  | .literal c => .one (.literal c)
  | .one => .one notSlash
  | .segment => .many notSlash
  | .anything => .many .dot

theorem has_notSlash {c : Char} : notSlash.has c = true ↔ c ≠ '/' := by
  simpa [notSlash, RegexAtom.has, CharSet.has] using ne_iff_lt_or_gt.symm

theorem has_dot {c : Char} : RegexAtom.dot.has c = true ↔ c ≠ '\n' := by
  simp [RegexAtom.has]

end GlobPiece

namespace Glob

open Regex

/-- The regex of a pattern with these pieces. -/
def regex (pieces : List GlobPiece) : Regex :=
  ⟨.start :: (pieces.map GlobPiece.item ++ [.finish])⟩

/-- The text falls into parts for which the pieces stand. -/
def Divides (pieces : List GlobPiece) (text : List Char) : Prop :=
  ∃ parts, List.Forall₂ GlobPiece.StandsFor pieces parts ∧ parts.flatten = text

theorem divides_nil {text : List Char} : Divides [] text ↔ text = [] := by
  constructor
  · rintro ⟨parts, hparts, rfl⟩
    cases hparts
    rfl
  · rintro rfl
    exact ⟨[], .nil, rfl⟩

theorem divides_cons {piece : GlobPiece} {pieces : List GlobPiece} {text : List Char} :
    Divides (piece :: pieces) text ↔
      ∃ part rest, text = part ++ rest ∧ piece.StandsFor part ∧ Divides pieces rest := by
  constructor
  · rintro ⟨parts, hparts, rfl⟩
    cases hparts with
    | @cons _ part _ parts hpart hparts =>
      exact ⟨part, parts.flatten, rfl, hpart, parts, hparts, rfl⟩
  · rintro ⟨part, _, rfl, hpart, parts, hparts, rfl⟩
    exact ⟨part :: parts, .cons hpart hparts, rfl⟩

section Meaning

variable {items : List RegexItem} {before rest : List Char}

/-- The item of a piece takes a part for which the piece stands. -/
theorem matchesAt_item (piece : GlobPiece) : MatchesAt (piece.item :: items) before rest ↔
    ∃ part rest', rest = part ++ rest' ∧ piece.StandsFor part ∧
      MatchesAt items (before ++ part) rest' := by
  have hone : ∀ atom : RegexAtom, MatchesAt (.one atom :: items) before rest ↔
      ∃ part rest', rest = part ++ rest' ∧ (∃ c, part = [c] ∧ atom.has c = true) ∧
        MatchesAt items (before ++ part) rest' := by
    intro atom
    constructor
    · rintro ⟨c, rest', rfl, hc, hrest⟩
      exact ⟨[c], rest', rfl, ⟨c, rfl, hc⟩, hrest⟩
    · rintro ⟨_, rest', rfl, ⟨c, rfl, hc⟩, hrest⟩
      exact ⟨c, rest', rfl, hc, hrest⟩
  have hmany : ∀ (atom : RegexAtom) (d : Char), (∀ c, atom.has c = true ↔ c ≠ d) →
      (MatchesAt (.many atom :: items) before rest ↔
        ∃ part rest', rest = part ++ rest' ∧ d ∉ part ∧
          MatchesAt items (before ++ part) rest') := by
    intro atom d hatom
    refine exists_congr fun run => exists_congr fun rest' => and_congr_right' <| and_congr_left' ?_
    simp only [hatom]
    exact ⟨fun hrun hd => hrun d hd rfl, fun hd c hc hcd => hd (hcd ▸ hc)⟩
  cases piece with
  | literal d =>
    refine (hone _).trans ?_
    simp [RegexAtom.has, GlobPiece.StandsFor]
  | one =>
    refine (hone _).trans ?_
    simp only [GlobPiece.has_notSlash, GlobPiece.StandsFor]
  | segment => exact hmany _ '/' fun _ => GlobPiece.has_notSlash
  | anything => exact hmany _ '\n' fun _ => GlobPiece.has_dot

theorem matchesAt_pieces (pieces : List GlobPiece) :
    MatchesAt (pieces.map GlobPiece.item ++ [.finish]) before rest ↔ Divides pieces rest := by
  induction pieces generalizing before rest with
  | nil => simp [MatchesAt, divides_nil]
  | cons piece pieces ih =>
    rw [List.map_cons, List.cons_append, matchesAt_item, divides_cons]
    simp only [ih]

/-- The anchors leave the text as a whole to the pieces. -/
theorem matches_regex (pieces : List GlobPiece) (text : List Char) :
    (regex pieces).Matches text ↔ Divides pieces text := by
  constructor
  · rintro ⟨before, rest, rfl, rfl, hpieces⟩
    exact (matchesAt_pieces pieces).mp hpieces
  · intro h
    exact ⟨[], text, rfl, rfl, (matchesAt_pieces pieces).mpr h⟩

end Meaning

/-- How a pattern without brackets is read, from the left. Two stars go together. -/
inductive Reads : List Char → List GlobPiece → Prop
  | nil : Reads [] []
  | anything {l : List Char} {pieces : List GlobPiece} :
      Reads l pieces → Reads ('*' :: '*' :: l) (.anything :: pieces)
  | segment {l : List Char} {pieces : List GlobPiece} :
      l.head? ≠ some '*' → Reads l pieces → Reads ('*' :: l) (.segment :: pieces)
  | one {l : List Char} {pieces : List GlobPiece} :
      Reads l pieces → Reads ('?' :: l) (.one :: pieces)
  | literal {c : Char} {l : List Char} {pieces : List GlobPiece} :
      c ≠ '*' → c ≠ '?' → Reads l pieces → Reads (c :: l) (.literal c :: pieces)

theorem Reads.unique {l : List Char} {pieces pieces' : List GlobPiece} (h : Reads l pieces)
    (h' : Reads l pieces') : pieces = pieces' := by
  induction h generalizing pieces' with
  | nil =>
    cases h'
    rfl
  | anything _ ih =>
    cases h' with
    | anything h' => rw [ih h']
    | segment hstar => exact (hstar rfl).elim
    | literal hstar => exact (hstar rfl).elim
  | segment hstar _ ih =>
    cases h' with
    | anything => exact (hstar rfl).elim
    | segment _ h' => rw [ih h']
    | literal hstar => exact (hstar rfl).elim
  | one _ ih =>
    cases h' with
    | one h' => rw [ih h']
    | literal _ hone => exact (hone rfl).elim
  | literal hstar hone _ ih =>
    cases h' with
    | anything => exact (hstar rfl).elim
    | segment => exact (hstar rfl).elim
    | one => exact (hone rfl).elim
    | literal _ _ h' => rw [ih h']

theorem spelled_escape (c : Char) : (RegexAtom.literal c).Spelled (escape c) := by
  unfold escape
  split
  next h => exact .escaped h
  next h => exact .plain (Bool.eq_false_iff.mpr h)

theorem spelled_notSlash : GlobPiece.notSlash.Spelled ['[', '^', '/', ']'] :=
  .except (List.cons_ne_nil _ _) (List.forall_mem_singleton.mpr rfl)

/-- One more piece in front. -/
theorem exists_reads_cons {rest : Option (List Char)} {part l l' : List Char} (piece : GlobPiece)
    (hpart : piece.item.Spelled part)
    (hl : ∀ pieces, Reads l pieces → Reads l' (piece :: pieces))
    (h : ∃ parts pieces, rest = some parts.flatten ∧ Reads l pieces ∧
      List.Forall₂ RegexItem.Spelled (pieces.map GlobPiece.item) parts) :
    ∃ parts pieces, rest.map (part ++ ·) = some parts.flatten ∧ Reads l' pieces ∧
      List.Forall₂ RegexItem.Spelled (pieces.map GlobPiece.item) parts := by
  obtain ⟨parts, pieces, rfl, hreads, hparts⟩ := h
  exact ⟨part :: parts, piece :: pieces, rfl, hl pieces hreads, .cons hpart hparts⟩

/-- Where no bracket opens a set, every pattern can be read, and its pieces are written one after
the other. -/
theorem exists_reads_of_translate {sets : Bool} {l : List Char} (h : sets = true → '[' ∉ l) :
    ∃ parts pieces, translate sets l = some parts.flatten ∧ Reads l pieces ∧
      List.Forall₂ RegexItem.Spelled (pieces.map GlobPiece.item) parts := by
  fun_induction translate sets l with
  | case1 => exact ⟨[], [], rfl, .nil, .nil⟩
  | case2 l ih =>
    exact exists_reads_cons .anything (.many .dot) (fun _ => .anything)
      (ih fun hs hmem => h hs (by simp [hmem]))
  | case3 l hstar ih =>
    have hhead : l.head? ≠ some '*' := fun hl => by
      obtain ⟨l', rfl⟩ := List.head?_eq_some_iff.mp hl
      exact hstar l' rfl
    exact exists_reads_cons .segment (.many spelled_notSlash) (fun _ => .segment hhead)
      (ih fun hs hmem => h hs (by simp [hmem]))
  | case4 l ih =>
    exact exists_reads_cons .one (.one spelled_notSlash) (fun _ => .one)
      (ih fun hs hmem => h hs (by simp [hmem]))
  | case5 c l _ _ _ hset => exact (h hset.2 (by simp [hset.1])).elim
  | case6 c l _ _ _ hset => exact (h hset.2 (by simp [hset.1])).elim
  | case7 c l _ hstar hone _ ih =>
    exact exists_reads_cons (.literal c) (.one (spelled_escape c)) (fun _ => .literal hstar hone)
      (ih fun hs hmem => h hs (by simp [hmem]))

section Engine

variable {sets : Bool} {pattern : String} {pieces : List GlobPiece}

/-- What is written for a pattern spells the regex of its pieces. -/
theorem exists_spelled_of_reads (h : sets = true → '[' ∉ pattern.toList)
    (hreads : Reads pattern.toList pieces) :
    ∃ text : String, (regex pieces).Spelled text.toList ∧
      ∀ {α : Type} (engine : RegexEngine α) (program : α),
        compile engine sets pattern = .ok program ↔ engine.compile text = some program := by
  obtain ⟨parts, pieces', htext, hreads', hparts⟩ := exists_reads_of_translate h
  obtain rfl := hreads.unique hreads'
  refine ⟨String.ofList ('^' :: parts.flatten ++ ['$']),
    ⟨['^'] :: (parts ++ [['$']]), ?_, by simp⟩, fun engine program => ?_⟩
  · exact .cons .start (List.rel_append hparts (.cons .finish .nil))
  · rw [compile, htext]
    dsimp only
    split
    next hnone =>
      rw [hnone]
      simp
    next hsome =>
      rw [hsome]
      simp

theorem compile_eq_ok_of_reads (h : sets = true → '[' ∉ pattern.toList)
    (hreads : Reads pattern.toList pieces) :
    compile Regex.engine sets pattern = .ok (regex pieces) := by
  obtain ⟨text, hspelled, hcompile⟩ := exists_spelled_of_reads h hreads
  exact (hcompile _ _).mpr (compile_of_spelled hspelled)

/-- A pattern is read in one way only and compiles to the regex of the pieces read, for names if it
has no bracket, for descriptors always. It matches the texts that fall into parts for which the
pieces stand. With any other engine that does what is documented it is the same, but that the engine
may not take the regex. -/
theorem isMatch_iff_of_reads (pattern : String) :
    (∃! pieces, Reads pattern.toList pieces) ∧ ∀ pieces, Reads pattern.toList pieces →
      ('[' ∉ pattern.toList → parse pattern = .ok (regex pieces)) ∧
      parseDescriptor pattern = .ok (regex pieces) ∧
      (∀ text : String, (regex pieces).isMatch text = true ↔
        ∃ parts, List.Forall₂ GlobPiece.StandsFor pieces parts ∧ parts.flatten = text.toList) ∧
      ∀ {α : Type} (engine : RegexEngine α) (takes : Regex → Prop), engine.Implements takes →
        ∀ sets, (sets = true → '[' ∉ pattern.toList) →
          ((∃ program, compile engine sets pattern = .ok program) ↔ takes (regex pieces)) ∧
          ∀ program, compile engine sets pattern = .ok program →
            ∀ text : String, engine.isMatch program text = true ↔
              ∃ parts, List.Forall₂ GlobPiece.StandsFor pieces parts ∧
                parts.flatten = text.toList := by
  obtain ⟨_, pieces, _, hreads, _⟩ := @exists_reads_of_translate false pattern.toList nofun
  refine ⟨⟨pieces, hreads, fun _ h => h.unique hreads⟩, fun pieces hreads => ⟨?_, ?_, ?_, ?_⟩⟩
  · exact fun h => compile_eq_ok_of_reads (fun _ => h) hreads
  · exact compile_eq_ok_of_reads nofun hreads
  · intro text
    exact (isMatch_iff_matches _ text).trans (matches_regex pieces text.toList)
  · intro α engine takes hengine sets hsets
    obtain ⟨text, hspelled, hcompile⟩ := exists_spelled_of_reads hsets hreads
    simp only [hcompile]
    refine ⟨hengine.compile_iff _ text hspelled, fun program hprogram s => ?_⟩
    exact (hengine.isMatch_iff _ text program hspelled hprogram s).trans
      (matches_regex pieces s.toList)

/-- Of three stars the first two go together: the line break can only be in the last part, and the
slash only in the part before it. -/
theorem isMatch_iff_of_reads_stars :
    '[' ∉ "a***".toList ∧
    (∃ r, parse "a***" = .ok r ∧ parseDescriptor "a***" = .ok r ∧
      r.isMatch "ab/c\nd" = true ∧ r.isMatch "a\nb/c" = false) ∧
    ∃ program, compile Regex.engine true "a***" = .ok program ∧
      Regex.engine.isMatch program "ab/c\nd" = true := by
  have hbracket : '[' ∉ "a***".toList := by decide
  have hreads : Reads "a***".toList [.literal 'a', .anything, .segment] :=
    .literal (by decide) (by decide) (.anything (.segment (by decide) .nil))
  have hanything : GlobPiece.StandsFor .anything "b/c".toList := by simp [GlobPiece.StandsFor]
  have hsegment : GlobPiece.StandsFor .segment "\nd".toList := by simp [GlobPiece.StandsFor]
  have hparts : Divides [.literal 'a', .anything, .segment] "ab/c\nd".toList :=
    ⟨["a".toList, "b/c".toList, "\nd".toList],
      .cons rfl (.cons hanything (.cons hsegment .nil)), rfl⟩
  obtain ⟨hparse, hdescriptor, hmatch, hany⟩ := (isMatch_iff_of_reads "a***").2 _ hreads
  obtain ⟨htakes, hprogram⟩ := hany Regex.engine _ implements_engine true fun _ => hbracket
  obtain ⟨program, hcompile⟩ := htakes.mpr trivial
  exact ⟨hbracket, ⟨_, hparse hbracket, hdescriptor, (hmatch _).mpr hparts, by decide⟩,
    program, hcompile, (hprogram program hcompile _).mpr hparts⟩

end Engine

end Glob

end Winnow
