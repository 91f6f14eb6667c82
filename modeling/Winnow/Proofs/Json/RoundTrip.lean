import Mathlib.Tactic.SplitIfs
import Winnow.Json.Printer
import Winnow.Json.Reader

/-!
# JSON reads back

Between a value and its text stand the words of the value. The text falls into
exactly these words, and the reader puts them together again. What may follow a
value is anything that does not go on with a number. Pretty text has the same
words, with blanks between them.
-/
namespace Winnow

namespace Data

mutual
/-- Data that a JSON text can spell as it is: no unquoted scalar, and no number but a natural one
below 2^64. -/
def Spellable : Data → Prop
  | .natural n => n < UInt64.size
  | .number _ | .plain _ => False
  | .list items => SpellableItems items
  | .record fields => SpellableFields fields
  | _ => True

def SpellableItems : List Data → Prop
  | [] => True
  | d :: ds => d.Spellable ∧ SpellableItems ds

def SpellableFields : List (String × Data) → Prop
  | [] => True
  | (_, d) :: fs => d.Spellable ∧ SpellableFields fs
end

theorem spellableItems_iff {items : List Data} :
    SpellableItems items ↔ ∀ d ∈ items, d.Spellable := by
  induction items with
  | nil => simp [SpellableItems]
  | cons d ds ih => simp [SpellableItems, ih]

theorem spellableFields_iff {fields : List (String × Data)} :
    SpellableFields fields ↔ ∀ f ∈ fields, f.2.Spellable := by
  induction fields with
  | nil => simp [SpellableFields]
  | cons f fs ih => simp [SpellableFields, ih]

end Data

namespace Json

open Data

mutual
/-- The words that spell a value. -/
def words : Data → List Token
  | .string s | .plain s => [.text s]
  | .list items => .openList :: itemWords items ++ [.closeList]
  | .record fields => .openRecord :: fieldWords fields ++ [.closeRecord]
  | d => [.value d]

def itemWords : List Data → List Token
  | [] => []
  | [d] => words d
  | d :: ds => words d ++ .comma :: itemWords ds

def fieldWords : List (String × Data) → List Token
  | [] => []
  | [(name, d)] => .text name :: .colon :: words d
  | (name, d) :: fs => .text name :: .colon :: (words d ++ .comma :: fieldWords fs)
end

/-! ## Texts -/

theorem hexValue?_hexDigit {n : Nat} (h : n < 16) : hexValue? (hexDigit n) = some n := by
  have all : ∀ n < 16, hexValue? (hexDigit n) = some n := by decide
  exact all n h

theorem unit?_hexDigits {n : Nat} (h : n < 32) :
    unit? '0' '0' (hexDigit (n / 16)) (hexDigit (n % 16)) = some n := by
  have h0 : hexValue? '0' = some 0 := by decide
  have hq : hexValue? (hexDigit (n / 16)) = some (n / 16) := hexValue?_hexDigit (by omega)
  have hr : hexValue? (hexDigit (n % 16)) = some (n % 16) := hexValue?_hexDigit (by omega)
  simp only [unit?, h0, hq, hr]
  exact congrArg some (by omega)

/-- A character that is written is read again. -/
theorem readChar_escape (c : Char) (rest : List Char) :
    readChar (escape c ++ rest) = some (c, rest) := by
  fun_cases escape c with
  | case8 _ _ _ _ _ _ _ hlow =>
    have hu := unit?_hexDigits hlow
    have hh : isHighSurrogate c.toNat = false := by simp [isHighSurrogate]; omega
    have hl : isLowSurrogate c.toNat = false := by simp [isLowSurrogate]; omega
    simp [readChar, hu, readUnit, hh, hl]
  | case9 _ hslash _ _ _ _ _ hlow => simp [readChar, hslash, hlow]
  | _ => subst c; rfl

theorem escape_append_ne (c : Char) (rest l : List Char) : escape c ++ rest ≠ '"' :: l := by
  fun_cases escape c with
  -- only an unescaped character could be the quote
  | case9 hquote => exact fun h => hquote (List.cons.inj h).1
  | _ => exact fun h => absurd (List.cons.inj h).1 (by decide)

theorem readText_of_readChar {l rest : List Char} {c : Char} (hl : ∀ r, l ≠ '"' :: r)
    (hc : readChar l = some (c, rest)) :
    readText l = (readText rest).map fun p => (c :: p.1, p.2) := by
  rw [readText.eq_def]
  split
  next r => exact absurd rfl (hl r)
  next =>
    split
    next hn => simp [hc] at hn
    next d r hd =>
      rw [hc] at hd
      obtain ⟨rfl, rfl⟩ := by simpa using hd
      rfl

/-- Text between quotes is read up to the closing one. -/
theorem readText_escaped (s rest : List Char) :
    readText (s.flatMap escape ++ '"' :: rest) = some (s, rest) := by
  induction s with
  | nil => simp [readText]
  | cons c s ih =>
    rw [List.flatMap_cons, List.append_assoc,
      readText_of_readChar (escape_append_ne c _) (readChar_escape c _), ih]
    rfl

/-! ## Words -/

/-- What follows does not go on with a number. -/
def Breaks (rest : List Char) : Prop := ∀ c ∈ rest.head?, isNumberChar c = false

/-- The text falls into these words, whatever follows it. -/
def Spells (text : List Char) (ts : List Token) : Prop :=
  ∀ rest, Breaks rest → lex (text ++ rest) = (lex rest).map (ts ++ ·)

/-- The character is a word of its own. -/
structure IsMark (c : Char) (t : Token) : Prop where
  breaks : isNumberChar c = false
  lex_cons : ∀ l, lex (c :: l) = (lex l).map (t :: ·)

/-- The characters that are words of their own, with these words. -/
def marks : List (Char × Token) :=
  [('[', .openList), (']', .closeList), ('\x7b', .openRecord), ('\x7d', .closeRecord),
    (',', .comma), (':', .colon)]

theorem isMark_of_mem {c : Char} {t : Token} (h : (c, t) ∈ marks) : IsMark c t := by
  simp only [marks, List.mem_cons, Prod.mk.injEq, List.not_mem_nil, or_false] at h
  rcases h with ⟨rfl, rfl⟩ | ⟨rfl, rfl⟩ | ⟨rfl, rfl⟩ | ⟨rfl, rfl⟩ | ⟨rfl, rfl⟩ | ⟨rfl, rfl⟩ <;>
    exact ⟨rfl, fun _ => by rw [lex]⟩

/-- The values that are spelled by a word of letters, with this word. -/
def keywords : List (List Char × Data) :=
  [(['n', 'u', 'l', 'l'], .null), (['t', 'r', 'u', 'e'], .bool true),
    (['f', 'a', 'l', 's', 'e'], .bool false)]

theorem scalar_mem_keywords {d : Data} (h : d ∈ keywords.map Prod.snd) :
    (scalar d, d) ∈ keywords := by
  simp only [keywords, List.map_cons, List.map_nil, List.mem_cons, List.not_mem_nil, or_false] at h
  rcases h with rfl | rfl | rfl
  all_goals
    unfold scalar
    simp [keywords]

@[simp] theorem scalar_list (items : List Data) : scalar (.list items) = ['[', ']'] := by
  unfold scalar
  simp

@[simp] theorem scalar_record (fields : List (String × Data)) :
    scalar (.record fields) = ['\x7b', '\x7d'] := by
  unfold scalar
  simp

namespace Spells

theorem nil : Spells [] [] := by
  intro rest _
  cases h : lex rest <;> simp [h, Except.map]

theorem mark {c : Char} {t : Token} {text : List Char} {ts : List Token} (hc : IsMark c t)
    (h : Spells text ts) : Spells (c :: text) (t :: ts) := by
  intro rest hrest
  rw [List.cons_append, hc.lex_cons, h rest hrest]
  cases lex rest <;> rfl

/-- A mark ends the word before it. -/
theorem append_mark {c : Char} {t : Token} {text text' : List Char} {ts ts' : List Token}
    (h : Spells text ts) (hc : IsMark c t) (h' : Spells text' ts') :
    Spells (text ++ c :: text') (ts ++ t :: ts') := by
  intro rest hrest
  have hbreak : Breaks (c :: (text' ++ rest)) := by simpa [Breaks] using hc.breaks
  rw [List.append_assoc, List.cons_append, h _ hbreak, hc.lex_cons, h' rest hrest]
  cases lex rest <;> simp [Except.map]

theorem keyword {text : List Char} {d : Data} (h : (text, d) ∈ keywords) :
    Spells text [.value d] := by
  intro rest _
  simp only [keywords, List.mem_cons, Prod.mk.injEq, List.not_mem_nil, or_false] at h
  rcases h with ⟨rfl, rfl⟩ | ⟨rfl, rfl⟩ | ⟨rfl, rfl⟩
  all_goals
    simp only [List.cons_append, List.nil_append]
    rw [lex]

theorem quoted (s : String) : Spells (quoted s) [.text s] := by
  intro rest _
  have ht : readText (s.toList.flatMap escape ++ ['"'] ++ rest) = some (s.toList, rest) := by
    simpa using readText_escaped s.toList rest
  rw [Json.quoted, List.cons_append, List.cons_append, lex]
  split
  next hn =>
    rw [ht] at hn
    cases hn
  next t r hr =>
    rw [ht] at hr
    obtain ⟨rfl, rfl⟩ := by simpa using hr
    simp

end Spells

/-! ## Numbers -/

theorem head?_toDigits_ne {n : Nat} (h : 0 < n) : (Nat.toDigits 10 n).head? ≠ some '0' := by
  induction n using Nat.strongRecOn with
  | ind n ih =>
    rw [Nat.toDigits_eq_if (by omega)]
    split_ifs with hn
    · have all : ∀ n < 10, 0 < n → n.digitChar ≠ '0' := by decide
      simpa using all n hn h
    · have hd := ih (n / 10) (by omega) (by omega)
      rw [List.head?_append]
      cases hl : (Nat.toDigits 10 (n / 10)).head? with
      | none => simp [Nat.toDigits_ne_nil] at hl
      | some c => simpa [hl] using hd

theorem isWhole_toDigits (n : Nat) : isWhole (Nat.toDigits 10 n) = true := by
  rcases Nat.eq_zero_or_pos n with rfl | hn
  · rw [Nat.toDigits_zero]
    rfl
  have hd : allDigits (Nat.toDigits 10 n) = true := by
    rw [allDigits, Bool.and_eq_true]
    refine ⟨by simp [Nat.toDigits_ne_nil], List.all_eq_true.mpr fun c hc => ?_⟩
    exact Nat.isDigit_of_mem_toDigits (by omega) (by omega) hc
  have hz := head?_toDigits_ne hn
  unfold isWhole
  split
  next => rfl
  next l _ hl => simp [hl] at hz
  next => exact hd

theorem number?_toDigits {n : Nat} (h : n < UInt64.size) :
    number? (Nat.toDigits 10 n) = some (.natural n) := by
  have hv : (Nat.toDigits 10 n).foldl (fun n c => n * 10 + (c.toNat - '0'.toNat)) 0 = n := by
    have := @Nat.ofDigitChars_ten_toDigits n
    rw [Nat.ofDigitChars_eq_foldl] at this
    simpa only [Nat.mul_comm] using this
  rw [number?, if_pos (isWhole_toDigits n)]
  simp only [hv, if_pos h]

theorem isNumberChar_of_isDigit {c : Char} (h : c.isDigit = true) : isNumberChar c = true := by
  simp [isNumberChar, h]

theorem isBlank_of_isDigit {c : Char} (h : c.isDigit = true) : isBlank c = false := by
  simp only [isBlank, Bool.or_eq_false_iff, decide_eq_false_iff_not]
  refine ⟨⟨⟨?_, ?_⟩, ?_⟩, ?_⟩ <;> (rintro rfl; cases h)

/-- A word that begins with a digit is a number. -/
theorem lex_of_isDigit {c : Char} {l : List Char} {n : Data} (h : c.isDigit = true)
    (hn : number? (c :: l.takeWhile isNumberChar) = some n) :
    lex (c :: l) = (lex (l.dropWhile isNumberChar)).map (.value n :: ·) := by
  rw [lex.eq_def]
  split
  case h_12 heq =>
    obtain ⟨rfl, rfl⟩ := List.cons.inj heq
    simp only [isBlank_of_isDigit h, h, hn, true_or, if_true, Bool.false_eq_true, if_false]
  -- every other word begins with a character that is no digit
  all_goals next heq => cases heq <;> cases h

theorem Spells.natural {n : Nat} (h : n < UInt64.size) :
    Spells (Nat.toDigits 10 n) [.value (.natural n)] := by
  intro rest hrest
  have hdigits : ∀ c ∈ Nat.toDigits 10 n, isNumberChar c = true := fun c hc =>
    isNumberChar_of_isDigit (Nat.isDigit_of_mem_toDigits (by omega) (by omega) hc)
  have hnumber := number?_toDigits h
  cases hd : Nat.toDigits 10 n with
  | nil => exact absurd hd Nat.toDigits_ne_nil
  | cons c l =>
    have hc : c.isDigit = true :=
      Nat.isDigit_of_mem_toDigits (b := 10) (by omega) (by omega) (hd ▸ List.mem_cons_self)
    rw [hd] at hnumber hdigits
    have hl : ∀ a ∈ l, isNumberChar a = true := fun a ha => hdigits a (List.mem_cons_of_mem c ha)
    have htake : (l ++ rest).takeWhile isNumberChar = l := by
      rw [List.takeWhile_append_of_pos hl]
      cases rest with
      | nil => simp
      | cons r rest => simp [hrest r (by simp)]
    have hdrop : (l ++ rest).dropWhile isNumberChar = rest := by
      rw [List.dropWhile_append_of_pos hl]
      cases rest with
      | nil => simp
      | cons r rest => simp [hrest r (by simp)]
    rw [List.cons_append, lex_of_isDigit hc (htake.symm ▸ hnumber), hdrop]
    rfl

/-! ## Values -/

mutual
/-- The text of a value falls into the words of the value. -/
theorem spells_compactChars {d : Data} (h : d.Spellable) : Spells (compactChars d) (words d) := by
  match d, h with
  | .null, _ | .bool true, _ | .bool false, _ =>
    simp only [compactChars]
    exact .keyword (scalar_mem_keywords (by simp [keywords]))
  | .natural n, h => exact .natural h
  | .string s, _ => exact .quoted s
  | .list items, h =>
    exact .mark (isMark_of_mem (by simp [marks]))
      ((spells_compactItems h).append_mark (isMark_of_mem (by simp [marks])) .nil)
  | .record fields, h =>
    exact .mark (isMark_of_mem (by simp [marks]))
      ((spells_compactFields h).append_mark (isMark_of_mem (by simp [marks])) .nil)

theorem spells_compactItems {items : List Data} (h : SpellableItems items) :
    Spells (compactItems items) (itemWords items) := by
  match items, h with
  | [], _ => exact .nil
  | [d], h => exact spells_compactChars h.1
  | d :: e :: ds, h =>
    exact (spells_compactChars h.1).append_mark (isMark_of_mem (by simp [marks]))
      (spells_compactItems h.2)

theorem spells_compactFields {fields : List (String × Data)} (h : SpellableFields fields) :
    Spells (compactFields fields) (fieldWords fields) := by
  match fields, h with
  | [], _ => exact .nil
  | [(name, d)], h =>
    exact (Spells.quoted name).append_mark (isMark_of_mem (by simp [marks]))
      (spells_compactChars h.1)
  | (name, d) :: f :: fs, h =>
    exact (Spells.quoted name).append_mark (isMark_of_mem (by simp [marks]))
      ((spells_compactChars h.1).append_mark (isMark_of_mem (by simp [marks]))
        (spells_compactFields h.2))
end

/-! ## Reading -/

/-- A value may come next. -/
def Stage.AwaitsValue (s : Stage) : Prop := s = .value ∨ s = .itemOrEnd

/-- A field may come next. -/
def Stage.AwaitsName (s : Stage) : Prop := s = .name ∨ s = .nameOrEnd

namespace Reader

/-- What the reader makes of some words in turn. -/
def feed (r : Reader) (ts : List Token) : Except SyntaxError Reader := ts.foldlM step r

theorem feed_singleton (r : Reader) (t : Token) : r.feed [t] = r.step t := by
  rw [feed, List.foldlM_cons]
  exact bind_pure _

theorem feed_cons {r r' : Reader} {t : Token} (h : r.step t = .ok r') (ts : List Token) :
    r.feed (t :: ts) = r'.feed ts := by
  rw [feed, List.foldlM_cons, h]
  rfl

theorem feed_append {r r' : Reader} {ts : List Token} (h : r.feed ts = .ok r')
    (us : List Token) : r.feed (ts ++ us) = r'.feed us := by
  rw [feed] at h
  rw [feed, List.foldlM_append, h]
  rfl

theorem step_name {s : Stage} (hs : s.AwaitsName) (fields : List (String × Data))
    (frames : List Frame) (name : String) :
    step ⟨.record fields :: frames, s⟩ (.text name) = .ok ⟨.field fields name :: frames, .colon⟩ := by
  rcases hs with rfl | rfl <;> rfl

mutual
/-- The words of a value are put together again. -/
theorem feed_words {d : Data} (h : d.Spellable) (frames : List Frame) {s : Stage}
    (hs : s.AwaitsValue) : feed ⟨frames, s⟩ (words d) = complete d frames := by
  match d, h with
  | .null, _ | .bool _, _ | .natural _, _ | .string _, _ =>
    rcases hs with rfl | rfl <;> exact feed_singleton _ _
  | .list items, h =>
    have hopen : step ⟨frames, s⟩ .openList = .ok ⟨.list [] :: frames, .itemOrEnd⟩ := by
      rcases hs with rfl | rfl <;> rfl
    rw [words, List.cons_append, feed_cons hopen]
    cases items with
    | nil => exact feed_singleton _ _
    | cons e es =>
      rw [feed_append (feed_itemWords h (by simp) [] frames (.inr rfl)), feed_singleton]
      simp [step]
  | .record fields, h =>
    have hopen : step ⟨frames, s⟩ .openRecord = .ok ⟨.record [] :: frames, .nameOrEnd⟩ := by
      rcases hs with rfl | rfl <;> rfl
    rw [words, List.cons_append, feed_cons hopen]
    cases fields with
    | nil => exact feed_singleton _ _
    | cons f fs =>
      rw [feed_append (feed_fieldWords h (by simp) [] frames (.inr rfl)), feed_singleton]
      simp [step]

theorem feed_itemWords {items : List Data} (h : SpellableItems items) (hne : items ≠ [])
    (before : List Data) (frames : List Frame) {s : Stage} (hs : s.AwaitsValue) :
    feed ⟨.list before :: frames, s⟩ (itemWords items) =
      .ok ⟨.list (items.reverse ++ before) :: frames, .separator⟩ := by
  match items, h with
  | [d], h => exact feed_words h.1 (.list before :: frames) hs
  | d :: e :: ds, h =>
    rw [itemWords, feed_append (feed_words h.1 (.list before :: frames) hs), feed_cons rfl,
      feed_itemWords h.2 (by simp) (d :: before) frames (.inl rfl)]
    · simp
    · simp

theorem feed_fieldWords {fields : List (String × Data)} (h : SpellableFields fields)
    (hne : fields ≠ []) (before : List (String × Data)) (frames : List Frame) {s : Stage}
    (hs : s.AwaitsName) :
    feed ⟨.record before :: frames, s⟩ (fieldWords fields) =
      .ok ⟨.record (fields.reverse ++ before) :: frames, .separator⟩ := by
  match fields, h with
  | [(name, d)], h =>
    rw [fieldWords, feed_cons (step_name hs _ _ _), feed_cons rfl]
    exact feed_words h.1 (.field before name :: frames) (.inl rfl)
  | (name, d) :: f :: fs, h =>
    rw [fieldWords, feed_cons (step_name hs _ _ _), feed_cons rfl,
      feed_append (feed_words h.1 (.field before name :: frames) (.inl rfl)), feed_cons rfl,
      feed_fieldWords h.2 (by simp) ((name, d) :: before) frames (.inl rfl)]
    · simp
    · simp
end

end Reader

/-- A text that falls into the words of a value is read as that value. -/
theorem parse_of_spells {d : Data} {text : List Char} (h : d.Spellable)
    (ht : Spells text (words d)) : parse (String.ofList text) = .ok d := by
  have hlex : lex text = .ok (words d) := by
    have := ht [] (by simp [Breaks])
    simpa [lex, Except.map] using this
  have hread : (words d).foldlM Reader.step .start = .ok ⟨[], .finished d⟩ :=
    Reader.feed_words h [] (.inl rfl)
  rw [parse, String.toList_ofList, hlex]
  show (words d).foldlM Reader.step .start >>= Reader.result = _
  rw [hread]
  rfl

theorem parseBytes_toUTF8 (text : String) : parseBytes text.toUTF8 = parse text := by
  have hs : String.fromUTF8? text.toUTF8 = some text := dif_pos text.isValidUTF8
  rw [parseBytes, hs]

theorem parseBytes_compact {d : Data} (h : d.Spellable) :
    parseBytes (compact d).toUTF8 = .ok d := by
  rw [parseBytes_toUTF8]
  exact parse_of_spells h (spells_compactChars h)

/-! ## Pretty text -/

theorem lex_blank {c : Char} (h : isBlank c = true) (l : List Char) : lex (c :: l) = lex l := by
  rw [lex.eq_def]
  split
  case h_12 heq =>
    obtain ⟨rfl, rfl⟩ := List.cons.inj heq
    rw [if_pos h]
  -- every other word begins with a character that is no blank
  all_goals next heq => cases heq <;> cases h

theorem isNumberChar_of_isBlank {c : Char} (h : isBlank c = true) : isNumberChar c = false := by
  simp only [isBlank, Bool.or_eq_true, decide_eq_true_eq] at h
  rcases h with ((rfl | rfl) | rfl) | rfl <;> rfl

namespace Spells

/-- A blank ends the word before it. -/
theorem append_blank {c : Char} {text text' : List Char} {ts ts' : List Token}
    (h : Spells text ts) (hc : isBlank c = true) (h' : Spells text' ts') :
    Spells (text ++ c :: text') (ts ++ ts') := by
  intro rest hrest
  have hbreak : Breaks (c :: (text' ++ rest)) := by
    simpa [Breaks] using isNumberChar_of_isBlank hc
  rw [List.append_assoc, List.cons_append, h _ hbreak, lex_blank hc, h' rest hrest]
  cases lex rest <;> simp [Except.map]

theorem blank {c : Char} {text : List Char} {ts : List Token} (hc : isBlank c = true)
    (h : Spells text ts) : Spells (c :: text) ts := nil.append_blank hc h

/-- A new line ends the word before it. -/
theorem append_newline {text text' : List Char} {ts ts' : List Token} (h : Spells text ts)
    (depth : Nat) (h' : Spells text' ts') : Spells (text ++ newline depth ++ text') (ts ++ ts') := by
  have hindent : ∀ n, Spells (List.replicate n ' ' ++ text') ts' := by
    intro n
    induction n with
    | zero => exact h'
    | succ n ih => exact ih.blank rfl
  rw [newline, List.append_assoc, List.cons_append]
  exact h.append_blank rfl (hindent _)

theorem newline {text : List Char} {ts : List Token} (depth : Nat) (h : Spells text ts) :
    Spells (newline depth ++ text) ts := nil.append_newline depth h

end Spells

mutual
/-- Pretty text falls into the same words. -/
theorem spells_prettyChars {d : Data} (h : d.Spellable) (depth : Nat) :
    Spells (prettyChars depth d) (words d) := by
  match d, h with
  | .null, _ | .bool true, _ | .bool false, _ =>
    simp only [prettyChars]
    exact .keyword (scalar_mem_keywords (by simp [keywords]))
  | .natural n, h => exact .natural h
  | .string s, _ => exact .quoted s
  | .list [], _ =>
    rw [show prettyChars depth (.list []) = ['[', ']'] by simp [prettyChars]]
    exact .mark (isMark_of_mem (by simp [marks])) (.mark (isMark_of_mem (by simp [marks])) .nil)
  | .record [], _ =>
    rw [show prettyChars depth (.record []) = ['\x7b', '\x7d'] by simp [prettyChars]]
    exact .mark (isMark_of_mem (by simp [marks])) (.mark (isMark_of_mem (by simp [marks])) .nil)
  | .list (d :: ds), h =>
    have hclose : Spells [']'] [.closeList] := .mark (isMark_of_mem (by simp [marks])) .nil
    exact .mark (isMark_of_mem (by simp [marks]))
      ((spells_prettyItems h (depth + 1)).append_newline depth hclose)
  | .record (f :: fs), h =>
    have hclose : Spells ['\x7d'] [.closeRecord] := .mark (isMark_of_mem (by simp [marks])) .nil
    exact .mark (isMark_of_mem (by simp [marks]))
      ((spells_prettyFields h (depth + 1)).append_newline depth hclose)

theorem spells_prettyItems {items : List Data} (h : SpellableItems items) (depth : Nat) :
    Spells (prettyItems depth items) (itemWords items) := by
  match items, h with
  | [], _ => exact .nil
  | [d], h => exact (spells_prettyChars h.1 depth).newline depth
  | d :: e :: ds, h =>
    exact ((spells_prettyChars h.1 depth).newline depth).append_mark
      (isMark_of_mem (by simp [marks])) (spells_prettyItems h.2 depth)

theorem spells_prettyFields {fields : List (String × Data)} (h : SpellableFields fields)
    (depth : Nat) : Spells (prettyFields depth fields) (fieldWords fields) := by
  match fields, h with
  | [], _ => exact .nil
  | [(name, d)], h =>
    exact ((Spells.quoted name).newline depth).append_mark (isMark_of_mem (by simp [marks]))
      ((spells_prettyChars h.1 depth).blank rfl)
  | (name, d) :: f :: fs, h =>
    exact ((Spells.quoted name).newline depth).append_mark (isMark_of_mem (by simp [marks]))
      (((spells_prettyChars h.1 depth).append_mark (isMark_of_mem (by simp [marks]))
        (spells_prettyFields h.2 depth)).blank rfl)
end

theorem parseBytes_pretty {d : Data} (h : d.Spellable) :
    parseBytes (pretty d).toUTF8 = .ok d := by
  rw [parseBytes_toUTF8]
  exact parse_of_spells h (spells_prettyChars h 0)

end Json

end Winnow
