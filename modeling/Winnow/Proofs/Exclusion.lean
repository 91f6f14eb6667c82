import Winnow.Config.Basic
import Winnow.Proofs.FileSystem

/-!
# What patterns for directories leave out

A path is the list of its parts between slashes. A pattern for a directory
anywhere finds it as whole parts, but only with a part before it, and so not at
the start of a relative path. A pattern for what lies in a directory tests
characters: it also finds parts that begin or end with a name.
-/
namespace Winnow

/-! ## Texts and their parts -/

namespace Path

variable {a b l x last first : List Char} {init rest parts : List (List Char)}

theorem splitOn_injective (h : a.splitOn '/' = b.splitOn '/') : a = b := by
  have htext : ['/'].intercalate (a.splitOn '/') = ['/'].intercalate (b.splitOn '/') := by rw [h]
  simpa only [List.intercalate_splitOn] using htext

/-- Where two texts meet, the last part of the one and the first of the other make one. -/
theorem intercalate_append_intercalate (sep : List Char) :
    sep.intercalate (init ++ [last]) ++ sep.intercalate (first :: rest) =
      sep.intercalate (init ++ (last ++ first) :: rest) := by
  induction init with
  | nil => cases rest <;> simp
  | cons x init ih =>
    have hcons : ∀ l : List (List Char), l ≠ [] →
        sep.intercalate (x :: l) = x ++ sep ++ sep.intercalate l :=
      fun l => List.intercalate_cons_of_ne_nil
    rw [List.cons_append, hcons _ (by simp), List.append_assoc, ih, List.cons_append,
      hcons _ (by simp)]

theorem splitOn_append (ha : a.splitOn '/' = init ++ [last]) (hb : b.splitOn '/' = first :: rest) :
    (a ++ b).splitOn '/' = init ++ (last ++ first) :: rest := by
  have htext : a ++ b = ['/'].intercalate (init ++ (last ++ first) :: rest) := by
    rw [← intercalate_append_intercalate, ← ha, ← hb, List.intercalate_splitOn,
      List.intercalate_splitOn]
  have hinit : ∀ x ∈ init ++ [last], '/' ∉ x := fun x hx => not_mem_of_mem_splitOn (ha ▸ hx)
  have hrest : ∀ x ∈ first :: rest, '/' ∉ x := fun x hx => not_mem_of_mem_splitOn (hb ▸ hx)
  rw [htext, List.splitOn_intercalate '/' _ (by simp)]
  intro x hx
  rcases List.mem_append.mp hx with hx | hx
  · exact hinit x (by simp [hx])
  rcases List.mem_cons.mp hx with rfl | hx
  · simp [hinit last (by simp), hrest first (by simp)]
  · exact hrest x (by simp [hx])

theorem exists_splitOn_eq_concat (l : List Char) : ∃ init last, l.splitOn '/' = init ++ [last] :=
  ⟨_, _, (List.dropLast_concat_getLast (List.splitOn_ne_nil '/' l)).symm⟩

theorem exists_splitOn_eq_cons (l : List Char) : ∃ first rest, l.splitOn '/' = first :: rest :=
  List.exists_cons_of_ne_nil (List.splitOn_ne_nil '/' l)

theorem mem_intercalate {sep : List Char} {c : Char} (h : c ∈ sep.intercalate parts) :
    c ∈ sep ∨ ∃ x ∈ parts, c ∈ x := by
  induction parts with
  | nil => cases h
  | cons x parts ih =>
    by_cases hne : parts = []
    · subst hne
      rw [List.intercalate_singleton] at h
      exact .inr ⟨x, List.mem_cons_self, h⟩
    · rw [List.intercalate_cons_of_ne_nil hne, List.mem_append, List.mem_append] at h
      rcases h with (h | h) | h
      · exact .inr ⟨x, List.mem_cons_self, h⟩
      · exact .inl h
      · exact (ih h).imp_right fun ⟨y, hy, hc⟩ => ⟨y, List.mem_cons_of_mem x hy, hc⟩

section Occurrence

variable {text t y : List Char} {pre post : List (List Char)}

/-- Parts without a slash are those of some text. -/
theorem exists_splitOn_eq (parts : List (List Char)) (hne : parts ≠ [])
    (hparts : ∀ x ∈ parts, '/' ∉ x) : ∃ l : List Char, l.splitOn '/' = parts :=
  ⟨_, List.splitOn_intercalate '/' hparts hne⟩

theorem splitOn_before_slash (hl : l.splitOn '/' = first :: rest) (ha : a.splitOn '/' = pre ++ [t])
    (hb : b.splitOn '/' = y :: post) :
    (a ++ (l ++ ['/']) ++ b).splitOn '/' = pre ++ ((t ++ first) :: rest ++ [y]) ++ post := by
  have hlb : (l ++ '/' :: b).splitOn '/' = first :: (rest ++ y :: post) := by
    rw [splitOn_append_cons, hl, hb, List.cons_append]
  rw [show a ++ (l ++ ['/']) ++ b = a ++ (l ++ '/' :: b) by simp, splitOn_append ha hlb]
  simp

/-- What a text begins with may end within a part. -/
theorem prefix_iff (hl : l.splitOn '/' = init ++ [last]) : l <+: text ↔
    ∃ t, init ++ [last ++ t] <+: text.splitOn '/' := by
  constructor
  · rintro ⟨b, rfl⟩
    obtain ⟨t, rest, hb⟩ := exists_splitOn_eq_cons b
    exact ⟨t, rest, by rw [splitOn_append hl hb]; simp⟩
  · rintro ⟨t, rest, hparts⟩
    have hall : ∀ z ∈ init ++ [last ++ t] ++ rest, '/' ∉ z :=
      fun z hz => not_mem_of_mem_splitOn (hparts ▸ hz)
    simp only [List.forall_mem_append, List.forall_mem_cons] at hall
    obtain ⟨⟨_, hlast, _⟩, hrest⟩ := hall
    obtain ⟨b, hb⟩ := exists_splitOn_eq (t :: rest) (by simp)
      (List.forall_mem_cons.mpr ⟨fun ht => hlast (List.mem_append_right _ ht), hrest⟩)
    refine ⟨b, splitOn_injective ?_⟩
    rw [splitOn_append hl hb, ← hparts]
    simp

/-- What stands before a slash may begin within a part. -/
theorem infix_slash_iff (hl : l.splitOn '/' = first :: rest) : l ++ ['/'] <:+: text ↔
    ∃ t y, (t ++ first) :: rest ++ [y] <:+: text.splitOn '/' := by
  constructor
  · rintro ⟨a, b, rfl⟩
    obtain ⟨pre, t, ha⟩ := exists_splitOn_eq_concat a
    obtain ⟨y, post, hb⟩ := exists_splitOn_eq_cons b
    exact ⟨t, y, pre, post, (splitOn_before_slash hl ha hb).symm⟩
  · rintro ⟨t, y, pre, post, hparts⟩
    have hall : ∀ z ∈ pre ++ ((t ++ first) :: rest ++ [y]) ++ post, '/' ∉ z :=
      fun z hz => not_mem_of_mem_splitOn (hparts ▸ hz)
    simp only [List.forall_mem_append, List.forall_mem_cons] at hall
    obtain ⟨⟨hpre, ⟨hfirst, _⟩, hy, _⟩, hpost⟩ := hall
    have ht : '/' ∉ t := fun ht => hfirst (List.mem_append_left _ ht)
    obtain ⟨a, ha⟩ := exists_splitOn_eq (pre ++ [t]) (by simp)
      (List.forall_mem_append.mpr ⟨hpre, by simpa using ht⟩)
    obtain ⟨b, hb⟩ := exists_splitOn_eq (y :: post) (by simp)
      (List.forall_mem_cons.mpr ⟨hy, hpost⟩)
    exact ⟨a, b, splitOn_injective ((splitOn_before_slash hl ha hb).trans hparts)⟩

/-- Between two slashes stand whole parts. -/
theorem infix_slashes_iff : '/' :: l ++ ['/'] <:+: text ↔
    ∃ x y, x :: l.splitOn '/' ++ [y] <:+: text.splitOn '/' := by
  rw [infix_slash_iff (splitOn_cons_slash l)]
  simp only [List.append_nil]

end Occurrence

end Path

/-! ## Patterns -/

namespace Exclusion

variable {l a : List Char}

theorem dropStars_append (hne : a ≠ []) (ha : '*' ∉ a) : dropStars (a ++ l) = a ++ l := by
  obtain ⟨c, a, rfl⟩ := List.exists_cons_of_ne_nil hne
  unfold dropStars
  split
  next h =>
    simp only [List.cons_append, List.cons.injEq] at h
    exact absurd h.1 fun hc => ha (by simp [hc])
  next => rfl

theorem splitStars_append (ha : '*' ∉ a) : splitStars (a ++ '*' :: '*' :: l) = a :: splitStars l := by
  induction a with
  | nil => rfl
  | cons c a ih =>
    have hc : c ≠ '*' := fun heq => ha (by simp [heq])
    rw [List.cons_append, splitStars, ih fun h => ha (List.mem_cons_of_mem c h)]
    simp [hc]

theorem dropTrailing_concat {p : Char → Bool} {c d : Char} (hc : p c = false) (hd : p d = true) :
    dropTrailing p (l ++ [c] ++ [d]) = l ++ [c] := by
  simp [dropTrailing, hc, hd]

end Exclusion

/-- Names of directories, one in the other, as a pattern spells them out. -/
structure Directories where
  names : List String
  nonempty : names ≠ []
  literal : ∀ s ∈ names, s ≠ "" ∧ '/' ∉ s.toList ∧ '*' ∉ s.toList

namespace Directories

open Exclusion

variable (d : Directories) {path : Path}

def chars : List Char := (Text.joined "/" d.names).toList

/-- The pattern for everything below the directories, wherever they are. -/
def anywhere : String := "**/" ++ Text.joined "/" d.names ++ "/**"

/-- The pattern for everything in the directories. -/
def within : String := Text.joined "/" d.names ++ "/**"

theorem chars_eq : d.chars = ['/'].intercalate (d.names.map String.toList) :=
  String.toList_intercalate

theorem splitOn_chars : d.chars.splitOn '/' = d.names.map String.toList := by
  rw [chars_eq, List.splitOn_intercalate '/' _ (by simpa using d.nonempty)]
  intro l hl
  obtain ⟨s, hs, rfl⟩ := List.mem_map.mp hl
  exact (d.literal s hs).2.1

theorem star_notMem_chars : '*' ∉ d.chars := by
  rw [chars_eq]
  intro h
  rcases Path.mem_intercalate h with h | ⟨l, hl, h⟩
  · exact absurd h (by decide)
  · obtain ⟨s, hs, rfl⟩ := List.mem_map.mp hl
    exact (d.literal s hs).2.2 h

/-- The text of the directories ends in a character of the last name. -/
theorem exists_chars_eq_concat : ∃ l c, d.chars = l ++ [c] ∧ c ≠ '/' := by
  obtain ⟨init, last, hnames⟩ : ∃ init last, d.names = init ++ [last] :=
    ⟨_, _, (List.dropLast_concat_getLast d.nonempty).symm⟩
  obtain ⟨hne, hslash, _⟩ := d.literal last (by simp [hnames])
  have hlast : last.toList ≠ [] := fun h => hne (String.toList_eq_nil_iff.mp h)
  obtain ⟨l, c, hl⟩ : ∃ l c, last.toList = l ++ [c] :=
    ⟨_, _, (List.dropLast_concat_getLast hlast).symm⟩
  refine ⟨['/'].intercalate (init.map String.toList ++ [l]), c, ?_, ?_⟩
  · have hjoin : ['/'].intercalate (init.map String.toList ++ [l]) ++ ['/'].intercalate [[c]] =
        ['/'].intercalate (init.map String.toList ++ [l ++ [c]]) :=
      Path.intercalate_append_intercalate ['/']
    rw [List.intercalate_singleton] at hjoin
    rw [hjoin, chars_eq, hnames, List.map_append, List.map_singleton, hl]
  · rintro rfl
    exact hslash (by simp [hl])

theorem chars_ne_nil : d.chars ≠ [] := by
  obtain ⟨l, c, hl, _⟩ := d.exists_chars_eq_concat
  simp [hl]

theorem parse_anywhere : parse d.anywhere = .below d.chars := by
  have hl : d.anywhere.toList = '*' :: '*' :: '/' :: (d.chars ++ ['/', '*', '*']) := by
    simp [anywhere, chars]
  have hstart : dropStars d.anywhere.toList = d.chars ++ ['/', '*', '*'] := by
    rw [hl]
    exact dropStars_append d.chars_ne_nil d.star_notMem_chars
  have hend : dropStars ('*' :: '*' :: '/' :: d.chars.reverse) = d.chars.reverse := by
    have hrest := dropStars_append (a := d.chars.reverse) (l := []) (by simpa using d.chars_ne_nil)
      (by simpa using d.star_notMem_chars)
    rwa [List.append_nil] at hrest
  have hslash : '/' ∈ d.anywhere.toList := by simp [hl]
  have hsuffix : ['/', '*', '*'].isSuffixOf d.anywhere.toList = true := by
    rw [List.isSuffixOf_iff_suffix, hl]
    exact ⟨'*' :: '*' :: '/' :: d.chars, by simp⟩
  have hprefix : ['*', '*', '/'].isPrefixOf d.anywhere.toList = true := by
    simp [hl, List.isPrefixOf]
  simp [parse, parseDeep, hslash, hsuffix, hprefix, hstart, hend]

theorem parse_within : parse d.within = .between d.chars [] := by
  have hl : d.within.toList = d.chars ++ ['/', '*', '*'] := by simp [within, chars]
  have hslash : '/' ∈ d.within.toList := by simp [hl]
  have hprefix : ['*', '*', '/'].isPrefixOf d.within.toList = false := by
    obtain ⟨c, rest, hc⟩ := List.exists_cons_of_ne_nil d.chars_ne_nil
    have hstar : c ≠ '*' := fun h => d.star_notMem_chars (by simp [hc, h])
    simp [hl, hc, List.isPrefixOf, Ne.symm hstar]
  have hsplit : splitStars d.within.toList = [d.chars ++ ['/'], []] := by
    rw [hl, show d.chars ++ ['/', '*', '*'] = (d.chars ++ ['/']) ++ '*' :: '*' :: [] by simp,
      splitStars_append (by simpa using d.star_notMem_chars)]
    rfl
  have htrim : dropTrailing (· = '/') (d.chars ++ ['/']) = d.chars := by
    obtain ⟨l, c, hc, hne⟩ := d.exists_chars_eq_concat
    rw [hc]
    exact dropTrailing_concat (by simpa using hne) (by simp)
  simp [parse, parseDeep, hslash, hprefix, hsplit, htrim]

theorem excludes_anywhere_iff : Config.excludes { exclude := [d.anywhere] } path = true ↔
    '/' :: d.chars ++ ['/'] <:+: path.text.toList := by
  simp [Config.excludes, parse_anywhere, covers, coversChars, Text.occursIn_iff]

theorem excludes_within_iff : Config.excludes { exclude := [d.within] } path = true ↔
    d.chars <+: path.text.toList ∨ d.chars ++ ['/'] <:+: path.text.toList := by
  obtain ⟨c, l, hl⟩ := List.exists_cons_of_ne_nil d.chars_ne_nil
  simp [Config.excludes, parse_within, covers, hl, coversChars, Text.occursIn_iff]

end Directories

namespace Path

/-- The parts of a path between its slashes. -/
def parts (p : Path) : List String := (p.text.toList.splitOn '/').map String.ofList

variable {p : Path} {l : List String}

theorem toList_surjective : Function.Surjective String.toList :=
  fun l => ⟨String.ofList l, String.toList_ofList⟩

theorem infix_parts_iff : l <:+: p.parts ↔ l.map String.toList <:+: p.text.toList.splitOn '/' := by
  constructor
  · intro h
    simpa [parts, Function.comp_def] using h.map String.toList
  · intro h
    simpa [parts, Function.comp_def] using h.map String.ofList

theorem prefix_parts_iff : l <+: p.parts ↔ l.map String.toList <+: p.text.toList.splitOn '/' := by
  constructor
  · intro h
    simpa [parts, Function.comp_def] using h.map String.toList
  · intro h
    simpa [parts, Function.comp_def] using h.map String.ofList

theorem parts_of_isAbsolute (h : p.isAbsolute = true) : ∃ rest, p.parts = "" :: rest := by
  obtain ⟨l, hl⟩ := List.isPrefixOf_iff_prefix.mp h
  refine ⟨(l.splitOn '/').map String.ofList, ?_⟩
  have hsplit : p.text.toList.splitOn '/' = [] :: l.splitOn '/' := by
    rw [← hl]
    exact splitOn_cons_slash l
  rw [parts, hsplit]
  rfl

end Path

namespace Directories

variable (d : Directories) (path : Path)

/-- The pattern for directories anywhere finds them with a part before and a part after them. -/
theorem excludes_anywhere_iff_parts : Config.excludes { exclude := [d.anywhere] } path = true ↔
    ∃ x y, x :: d.names ++ [y] <:+: path.parts := by
  rw [excludes_anywhere_iff, Path.infix_slashes_iff, splitOn_chars]
  simp only [Path.toList_surjective.exists, Path.infix_parts_iff, List.map_append, List.map_cons,
    List.map_nil]

/-- The pattern for what lies in directories finds them at the start, where the last one may go on,
and before another part, where the first one may begin earlier. -/
theorem excludes_within_iff_parts : Config.excludes { exclude := [d.within] } path = true ↔
    (∃ t, d.names.dropLast ++ [d.names.getLast d.nonempty ++ t] <+: path.parts) ∨
    ∃ t y, (t ++ d.names.head d.nonempty) :: d.names.tail ++ [y] <:+: path.parts := by
  have hlast : d.chars.splitOn '/' =
      d.names.dropLast.map String.toList ++ [(d.names.getLast d.nonempty).toList] := by
    rw [← List.map_singleton, ← List.map_append, List.dropLast_concat_getLast, splitOn_chars]
  have hfirst : d.chars.splitOn '/' =
      (d.names.head d.nonempty).toList :: d.names.tail.map String.toList := by
    rw [← List.map_cons, List.cons_head_tail, splitOn_chars]
  rw [excludes_within_iff, Path.prefix_iff hlast, Path.infix_slash_iff hfirst]
  simp only [Path.toList_surjective.exists, Path.infix_parts_iff, Path.prefix_parts_iff,
    List.map_append, List.map_cons, List.map_nil, String.toList_append]

/-- Nothing that is named stands at the very start of an absolute path. -/
theorem exists_before_of_isAbsolute (h : path.isAbsolute = true) {y : String}
    (hd : d.names ++ [y] <:+: path.parts) : ∃ x, x :: d.names ++ [y] <:+: path.parts := by
  obtain ⟨rest, hrest⟩ := Path.parts_of_isAbsolute h
  obtain ⟨pre, post, hparts⟩ := hd
  rcases List.eq_nil_or_concat pre with rfl | ⟨pre, x, rfl⟩
  · obtain ⟨s, names, hnames⟩ := List.exists_cons_of_ne_nil d.nonempty
    rw [hrest, hnames, List.nil_append] at hparts
    exact absurd (List.cons.inj hparts).1 (d.literal s (by simp [hnames])).1
  · exact ⟨x, pre, post, by rw [← hparts]; simp⟩

/-- Where no part of the path goes on after the last name or begins before the first, what lies in
the directories is all that is found. -/
theorem infix_of_excludes_within
    (hlast : ∀ t, d.names.getLast d.nonempty ++ t ∈ path.parts → t = "")
    (hfirst : ∀ t, t ++ d.names.head d.nonempty ∈ path.parts → t = "")
    (h : Config.excludes { exclude := [d.within] } path = true) : d.names <:+: path.parts := by
  rcases (d.excludes_within_iff_parts path).mp h with ⟨t, hparts⟩ | ⟨t, y, hparts⟩
  · obtain rfl := hlast t (hparts.subset (by simp))
    rw [String.append_empty, List.dropLast_concat_getLast] at hparts
    exact hparts.isInfix
  · obtain rfl := hfirst t (hparts.subset (by simp))
    rw [String.empty_append, List.cons_head_tail] at hparts
    exact (List.prefix_append _ _).isInfix.trans hparts

/-- A pattern for directories anywhere finds them as whole parts with a part before and a part after
them, and on absolute paths that is wherever a part comes after them. A pattern for what lies in
them goes by characters at either end, and finds nothing else if no part has more of them there. -/
theorem excludes_directories_iff :
    (Config.excludes { exclude := [d.anywhere] } path = true ↔
      ∃ x y, x :: d.names ++ [y] <:+: path.parts) ∧
    (path.isAbsolute = true → (Config.excludes { exclude := [d.anywhere] } path = true ↔
      ∃ y, d.names ++ [y] <:+: path.parts)) ∧
    (Config.excludes { exclude := [d.within] } path = true ↔
      (∃ t, d.names.dropLast ++ [d.names.getLast d.nonempty ++ t] <+: path.parts) ∨
      ∃ t y, (t ++ d.names.head d.nonempty) :: d.names.tail ++ [y] <:+: path.parts) ∧
    ((∀ t, d.names.getLast d.nonempty ++ t ∈ path.parts → t = "") →
      (∀ t, t ++ d.names.head d.nonempty ∈ path.parts → t = "") →
      Config.excludes { exclude := [d.within] } path = true → d.names <:+: path.parts) := by
  refine ⟨d.excludes_anywhere_iff_parts path, fun habs => ?_, d.excludes_within_iff_parts path,
    d.infix_of_excludes_within path⟩
  rw [excludes_anywhere_iff_parts]
  constructor
  · rintro ⟨x, y, h⟩
    exact ⟨y, (List.suffix_cons _ _).isInfix.trans h⟩
  · rintro ⟨y, h⟩
    obtain ⟨x, hx⟩ := d.exists_before_of_isAbsolute path habs h
    exact ⟨x, y, hx⟩

section Build

/-- The directory of what is built. -/
def build : Directories := ⟨["build"], by simp, by simp⟩

theorem excludes_directories_iff_absolute :
    (⟨"/build/A.unit.json"⟩ : Path).isAbsolute = true ∧
    Config.excludes { exclude := [build.anywhere] } ⟨"/build/A.unit.json"⟩ = true := by
  have hfacts : (⟨"/build/A.unit.json"⟩ : Path).isAbsolute = true ∧
      (⟨"/build/A.unit.json"⟩ : Path).parts = ["", "build", "A.unit.json"] := by
    decide +kernel
  obtain ⟨habs, hparts⟩ := hfacts
  refine ⟨habs, ((excludes_directories_iff build _).2.1 habs).mpr ⟨"A.unit.json", ?_⟩⟩
  rw [hparts]
  exact ⟨[""], [], rfl⟩

/-- At the start of a relative path the directory is not found, and another one is because it ends
in the same characters. -/
theorem excludes_build_misses :
    Config.excludes { exclude := [build.anywhere] } ⟨"build/A.unit.json"⟩ = false ∧
    build.names ++ ["A.unit.json"] <:+: (⟨"build/A.unit.json"⟩ : Path).parts ∧
    Config.excludes { exclude := [build.within] } ⟨"rebuild/A.unit.json"⟩ = true ∧
    ¬ build.names <:+: (⟨"rebuild/A.unit.json"⟩ : Path).parts := by
  decide +kernel

end Build

end Directories

end Winnow
