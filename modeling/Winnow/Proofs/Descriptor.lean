import Mathlib.Data.List.Infix
import Winnow.Descriptor

/-!
# Descriptors are read as they are printed

A reader of descriptors takes from the front of a text what is printed for a
valid type, and nothing else; where that fails it is stuck between two characters
of the text. Both facts are said once, for a reader with its printer, and then
proved of types, of parameters, of results and of methods in turn.
-/
namespace Winnow

/-- Reading undoes printing, whatever follows, and succeeds on nothing but what is printed. -/
structure ReadsPrinted {α : Type} (read : List Char → Except (List Char) (α × List Char))
    (valid : α → Prop) (print : α → List Char) : Prop where
  ok_iff : ∀ {l rest : List Char} {a : α}, read l = .ok (a, rest) ↔ valid a ∧ l = print a ++ rest
  stuck : ∀ {l rest : List Char}, read l = .error rest → rest <:+ l

theorem BaseType.ofLetter?_eq_some_iff {c : Char} {type : BaseType} :
    ofLetter? c = some type ↔ c = type.letter := by
  constructor
  · fun_cases ofLetter? c <;> rintro ⟨⟩ <;> rfl
  · rintro rfl
    cases type <;> rfl

namespace FieldType

variable {l rest : List Char} {type : FieldType}

theorem read_chars_append (h : type.Valid) (rest : List Char) :
    read (type.chars ++ rest) = .ok (type, rest) := by
  induction type with
  | base type =>
    have hmarks : type.letter ≠ '[' ∧ type.letter ≠ 'L' := by cases type <;> decide
    simp [chars, read, hmarks, BaseType.ofLetter?_eq_some_iff.mpr rfl]
  | object name =>
    obtain ⟨hne, hname⟩ := h
    have hmark : ';' ∉ name.toList := fun hmem => by simpa [nameChar] using hname ';' hmem
    have hcut := Text.cut_append (b := rest) hmark
    simp [chars, read, hcut, hne, List.all_eq_true.mpr hname]
  | array element ih => simp [chars, read, ih h]

theorem valid_of_read (h : read l = .ok (type, rest)) : type.Valid ∧ l = type.chars ++ rest := by
  fun_induction read l generalizing type rest with
  | case1 => nomatch h
  | case2 l element rest' hread ih =>
    obtain ⟨rfl, rfl⟩ : FieldType.array element = type ∧ rest' = rest := by simpa using h
    obtain ⟨hvalid, hl⟩ := ih hread
    exact ⟨hvalid, congrArg ('[' :: ·) hl⟩
  | case3 => nomatch h
  | case4 l name rest' hcut hname =>
    obtain ⟨rfl, rfl⟩ : FieldType.object (String.ofList name) = type ∧ rest' = rest := by
      simpa using h
    refine ⟨⟨by simpa using hname.1, ?_⟩, by simp [chars, (Text.eq_of_cut hcut).1]⟩
    rw [String.toList_ofList]
    exact List.all_eq_true.mp hname.2
  | case5 => nomatch h
  | case6 => nomatch h
  | case7 c l _ _ base hbase =>
    obtain ⟨rfl, rfl⟩ : FieldType.base base = type ∧ l = rest := by simpa using h
    exact ⟨trivial, by rw [BaseType.ofLetter?_eq_some_iff.mp hbase]; rfl⟩
  | case8 => nomatch h

theorem readsPrinted_read : ReadsPrinted read Valid chars where
  ok_iff {l rest type} := by
    constructor
    · exact valid_of_read
    · rintro ⟨hvalid, rfl⟩
      exact read_chars_append hvalid rest
  stuck {l rest} h := by
    fun_induction read l with
    | case1 => cases h; exact List.suffix_refl []
    | case2 => nomatch h
    | case3 l stuck hread ih =>
      cases h
      exact (ih hread).trans (List.suffix_cons '[' l)
    | case4 => nomatch h
    | case5 => cases h; exact List.suffix_refl _
    | case6 => cases h; exact List.suffix_refl _
    | case7 => nomatch h
    | case8 => cases h; exact List.suffix_refl _

/-- No type is printed with one of the marks of a method at its beginning. -/
theorem exists_chars_eq_cons (type : FieldType) :
    ∃ c l, type.chars = c :: l ∧ c ≠ '(' ∧ c ≠ ')' ∧ c ≠ 'V' := by
  cases type with
  | base type => exact ⟨type.letter, [], rfl, by cases type <;> decide⟩
  | object name => exact ⟨'L', _, rfl, by decide⟩
  | array element => exact ⟨'[', _, rfl, by decide⟩

theorem filterMap_className_cons (type : FieldType) (types : List FieldType) :
    (type :: types).filterMap className = type.className.toList ++ types.filterMap className := by
  cases hclass : type.className <;> simp [hclass]

end FieldType

namespace MethodType

theorem readParams_chars_append {types : List FieldType} (h : ∀ type ∈ types, type.Valid)
    (rest : List Char) :
    readParams (types.flatMap FieldType.chars ++ ')' :: rest) = .ok (types, rest) := by
  induction types with
  | nil => rw [List.flatMap_nil, List.nil_append, readParams]
  | cons type types ih =>
    obtain ⟨htype, htypes⟩ := List.forall_mem_cons.mp h
    have hread := FieldType.read_chars_append htype (types.flatMap FieldType.chars ++ ')' :: rest)
    obtain ⟨c, l, hl, -, hc, -⟩ := type.exists_chars_eq_cons
    rw [List.flatMap_cons, List.append_assoc]
    rw [hl, List.cons_append] at hread ⊢
    rw [readParams]
    · split
      next hread' => rw [hread] at hread'; cases hread'
      next hread' =>
        rw [hread] at hread'
        cases hread'
        rw [ih htypes]
    · exact hc

theorem readsPrinted_readParams :
    ReadsPrinted readParams (fun types => ∀ type ∈ types, type.Valid)
      fun types => types.flatMap FieldType.chars ++ [')'] where
  ok_iff {l rest types} := by
    constructor
    · intro h
      fun_induction readParams l generalizing types rest with
      | case1 => nomatch h
      | case2 rest' =>
        cases h
        exact ⟨nofun, rfl⟩
      | case3 => nomatch h
      | case4 c l _ type rest' hread _ types' rest'' hparams ih =>
        cases h
        obtain ⟨htypes, rfl⟩ := ih hparams
        obtain ⟨htype, hl⟩ := FieldType.valid_of_read hread
        exact ⟨List.forall_mem_cons.mpr ⟨htype, htypes⟩, by simp [hl]⟩
      | case5 => nomatch h
    · rintro ⟨htypes, rfl⟩
      rw [List.append_assoc]
      exact readParams_chars_append htypes rest
  stuck {l rest} h := by
    fun_induction readParams l with
    | case1 => cases h; exact List.suffix_refl []
    | case2 => nomatch h
    | case3 c l _ stuck hread =>
      cases h
      exact FieldType.readsPrinted_read.stuck hread
    | case4 => nomatch h
    | case5 c l _ type rest' hread _ stuck hparams ih =>
      cases h
      rw [(FieldType.valid_of_read hread).2]
      exact (ih hparams).trans (List.suffix_append _ _)

/-- How a result is printed. -/
def resultChars : Option FieldType → List Char
  | none => ['V']
  | some type => type.chars

theorem readsPrinted_readResult :
    ReadsPrinted readResult (fun result => ∀ type ∈ result, type.Valid) resultChars where
  ok_iff {l rest result} := by
    constructor
    · intro h
      unfold readResult at h
      split at h
      next =>
        cases h
        exact ⟨nofun, rfl⟩
      next =>
        split at h
        next hread =>
          cases h
          obtain ⟨htype, hl⟩ := FieldType.valid_of_read hread
          exact ⟨by simpa using htype, hl⟩
        next => nomatch h
    · rintro ⟨hresult, rfl⟩
      cases result with
      | none => rfl
      | some type =>
        have hread := FieldType.read_chars_append (hresult type rfl) rest
        obtain ⟨c, l, hl, -, -, hc⟩ := type.exists_chars_eq_cons
        rw [resultChars]
        rw [hl, List.cons_append] at hread ⊢
        rw [readResult, hread]
        simpa using hc
  stuck {l rest} h := by
    unfold readResult at h
    split at h
    next => nomatch h
    next =>
      split at h
      next => nomatch h
      next hread =>
        cases h
        exact FieldType.readsPrinted_read.stuck hread

theorem chars_eq (type : MethodType) :
    type.chars =
      '(' :: (type.params.flatMap FieldType.chars ++ [')'] ++ resultChars type.result) := by
  rw [chars, List.append_assoc]
  rfl

theorem readsPrinted_read :
    ReadsPrinted read (fun type => ∀ t ∈ type.types, t.Valid) chars where
  ok_iff {l rest type} := by
    constructor
    · intro h
      unfold read at h
      split at h
      next l =>
        split at h
        next => nomatch h
        next hparams =>
          split at h
          next => nomatch h
          next hresult =>
            cases h
            obtain ⟨hvalid, rfl⟩ := readsPrinted_readParams.ok_iff.mp hparams
            obtain ⟨hvalid', rfl⟩ := readsPrinted_readResult.ok_iff.mp hresult
            exact ⟨List.forall_mem_append.mpr ⟨hvalid, by simpa using hvalid'⟩, by simp [chars_eq]⟩
      next => nomatch h
    · rintro ⟨hvalid, rfl⟩
      obtain ⟨hparams, hresult⟩ := List.forall_mem_append.mp hvalid
      rw [chars_eq, List.cons_append, List.append_assoc, read,
        readsPrinted_readParams.ok_iff.mpr ⟨hparams, rfl⟩]
      have hresult' : ∀ t ∈ type.result, t.Valid := fun t ht => hresult t (by simpa using ht)
      simp only [readsPrinted_readResult.ok_iff.mpr ⟨hresult', rfl⟩]
  stuck {l rest} h := by
    unfold read at h
    split at h
    next l =>
      split at h
      next hparams =>
        cases h
        exact (readsPrinted_readParams.stuck hparams).trans (List.suffix_cons '(' l)
      next hparams =>
        split at h
        next hresult =>
          cases h
          rw [(readsPrinted_readParams.ok_iff.mp hparams).2]
          exact ((readsPrinted_readResult.stuck hresult).trans (List.suffix_append _ _)).trans
            (List.suffix_cons '(' _)
        next => nomatch h
    next =>
      cases h
      exact List.suffix_refl l

end MethodType

namespace Descriptor

variable {α : Type} {read : List Char → Except (List Char) (α × List Char)} {valid : α → Prop}
  {print : α → List Char} {text : String}

theorem whole_eq_ok_iff (h : ReadsPrinted read valid print) {a : α} :
    whole read text = .ok a ↔ valid a ∧ print a = text.toList := by
  have hread : whole read text = .ok a ↔ read text.toList = .ok (a, []) := by
    unfold whole
    split <;> simp_all
  rw [hread, h.ok_iff, List.append_nil, eq_comm]

/-- The place of a fault lies between two characters of the text. -/
theorem isValid_fault {rest : List Char} (h : rest <:+ text.toList) :
    (⟨(fault text rest).offset⟩ : String.Pos.Raw).IsValid text := by
  obtain ⟨l, hl⟩ := h
  have htext : text = String.ofList l ++ String.ofList rest := by
    rw [← String.ofList_append, hl, String.ofList_toList]
  refine String.Pos.Raw.isValid_iff_exists_append.mpr ⟨_, _, htext, ?_⟩
  rw [fault, htext, String.utf8ByteSize_append, Nat.add_sub_cancel]
  rfl

theorem whole_eq_error (h : ReadsPrinted read valid print) {e : DescriptorError}
    (he : whole read text = .error e) :
    e.descriptor = text ∧ (⟨e.offset⟩ : String.Pos.Raw).IsValid text := by
  unfold whole at he
  split at he
  next => nomatch he
  next hread =>
    cases he
    exact ⟨rfl, isValid_fault ⟨_, (h.ok_iff.mp hread).2.symm⟩⟩
  next hread =>
    cases he
    exact ⟨rfl, isValid_fault (h.stuck hread)⟩

/-- The names in a text, in order of appearance: each stands between an `L` and the next semicolon,
and there is no `L` apart from these. -/
inductive Names : List Char → List String → Prop
  | nil {gap : List Char} : 'L' ∉ gap → Names gap []
  | cons {gap rest : List Char} {name : String} {names : List String} :
      'L' ∉ gap → ';' ∉ name.toList → Names rest names →
      Names (gap ++ 'L' :: (name.toList ++ ';' :: rest)) (name :: names)

section Names

variable {l rest : List Char} {names names' : List String}

theorem Names.prepend {c : Char} (hc : c ≠ 'L') (h : Names l names) : Names (c :: l) names := by
  cases h with
  | nil hgap => exact .nil (by simp [hgap, hc.symm])
  | @cons gap rest name names hgap hname h =>
    exact @Names.cons (c :: gap) rest name names (by simp [hgap, hc.symm]) hname h

theorem Names.unique (h : Names l names) (h' : Names l names') : names = names' := by
  -- The first `L` and the semicolon after it are where they are.
  induction h generalizing names' with
  | nil hgap =>
    cases h' with
    | nil => rfl
    | cons => simp at hgap
  | @cons gap rest name names hgap hname _ ih =>
    generalize hl : gap ++ 'L' :: (name.toList ++ ';' :: rest) = l at h'
    cases h' with
    | nil hgap' => simp [← hl] at hgap'
    | @cons gap' rest' name' names' hgap' hname' h' =>
      have hfirst := congrArg (Text.cut 'L') hl
      rw [Text.cut_append hgap, Text.cut_append hgap', Option.some.injEq, Prod.mk.injEq] at hfirst
      have hsecond := congrArg (Text.cut ';') hfirst.2
      rw [Text.cut_append hname, Text.cut_append hname', Option.some.injEq,
        Prod.mk.injEq] at hsecond
      rw [String.toList_inj.mp hsecond.1, ih (hsecond.2 ▸ h')]

theorem names_chars_append {type : FieldType} (ht : type.Valid) (h : Names rest names) :
    Names (type.chars ++ rest) (type.className.toList ++ names) := by
  induction type with
  | base type => exact h.prepend (by cases type <;> decide)
  | object name =>
    have hname : ';' ∉ name.toList := fun hmem => by
      simpa [FieldType.nameChar] using ht.2 ';' hmem
    have hcons := @Names.cons [] rest name names (by simp) hname h
    simpa [FieldType.chars, FieldType.className] using hcons
  | array element ih => exact (ih ht).prepend (by decide)

theorem names_flatMap_append {types : List FieldType} (ht : ∀ type ∈ types, type.Valid)
    (h : Names rest names) :
    Names (types.flatMap FieldType.chars ++ rest)
      (types.filterMap FieldType.className ++ names) := by
  induction types with
  | nil => exact h
  | cons type types ih =>
    obtain ⟨htype, htypes⟩ := List.forall_mem_cons.mp ht
    rw [List.flatMap_cons, List.append_assoc, FieldType.filterMap_className_cons,
      List.append_assoc]
    exact names_chars_append htype (ih htypes)

end Names

theorem parseField_eq_ok_iff {type : FieldType} :
    parseField text = .ok type ↔ type.Valid ∧ type.chars = text.toList :=
  whole_eq_ok_iff FieldType.readsPrinted_read

theorem parseMethod_eq_ok_iff {type : MethodType} :
    parseMethod text = .ok type ↔ (∀ t ∈ type.types, t.Valid) ∧ type.chars = text.toList :=
  whole_eq_ok_iff MethodType.readsPrinted_read

theorem names_of_parseField {type : FieldType} (h : parseField text = .ok type) :
    Text.startsWith text "(" = false ∧
      Names text.toList ([type].filterMap FieldType.className) := by
  obtain ⟨hvalid, hchars⟩ := parseField_eq_ok_iff.mp h
  constructor
  · obtain ⟨c, l, hl, hc, -⟩ := type.exists_chars_eq_cons
    simp [Text.startsWith, ← hchars, hl, List.isPrefixOf, hc.symm]
  · rw [← hchars, FieldType.filterMap_className_cons, ← List.append_nil type.chars]
    exact names_chars_append hvalid (.nil List.not_mem_nil)

theorem names_of_parseMethod {type : MethodType} (h : parseMethod text = .ok type) :
    Text.startsWith text "(" = true ∧
      Names text.toList (type.types.filterMap FieldType.className) := by
  obtain ⟨hvalid, hchars⟩ := parseMethod_eq_ok_iff.mp h
  obtain ⟨hparams, hresult⟩ := List.forall_mem_append.mp hvalid
  have hresultNames : Names (MethodType.resultChars type.result)
      (type.result.toList.filterMap FieldType.className) := by
    cases hr : type.result with
    | none => exact .nil (by decide)
    | some result =>
      rw [Option.toList_some, FieldType.filterMap_className_cons, MethodType.resultChars,
        ← List.append_nil result.chars]
      exact names_chars_append (hresult result (by simp [hr])) (.nil List.not_mem_nil)
  constructor
  · simp [Text.startsWith, ← hchars, MethodType.chars_eq]
  · rw [← hchars, MethodType.chars_eq, List.append_assoc, MethodType.types,
      List.filterMap_append]
    exact .prepend (by decide) (names_flatMap_append hparams (hresultNames.prepend (by decide)))

theorem classes_eq_ok_iff {names : List String} :
    classes text = .ok names ↔
      ((∃ type, parseField text = .ok type) ∨ ∃ type, parseMethod text = .ok type) ∧
        Names text.toList names := by
  constructor
  · intro h
    unfold classes at h
    split at h
    · cases hm : parseMethod text with
      | error e => simp [hm, Except.map] at h
      | ok type =>
        rw [hm] at h
        cases h
        exact ⟨.inr ⟨type, rfl⟩, (names_of_parseMethod hm).2⟩
    · cases hf : parseField text with
      | error e => simp [hf, Except.map] at h
      | ok type =>
        rw [hf] at h
        cases h
        exact ⟨.inl ⟨type, rfl⟩, (names_of_parseField hf).2⟩
  · rintro ⟨⟨type, hf⟩ | ⟨type, hm⟩, hnames⟩
    · obtain ⟨hstart, hnames'⟩ := names_of_parseField hf
      rw [classes, hstart, hf, hnames.unique hnames']
      rfl
    · obtain ⟨hstart, hnames'⟩ := names_of_parseMethod hm
      rw [classes, hstart, hm, hnames.unique hnames']
      rfl

theorem classes_eq_error {e : DescriptorError} (h : classes text = .error e) :
    parseField text = .error e ∨ parseMethod text = .error e := by
  unfold classes at h
  split at h
  · cases hm : parseMethod text with
    | error e' => rw [hm] at h; cases h; exact .inr rfl
    | ok type => rw [hm] at h; cases h
  · cases hf : parseField text with
    | error e' => rw [hf] at h; cases h; exact .inl rfl
    | ok type => rw [hf] at h; cases h

/-- Descriptors are exactly what is printed for valid types, the classes are those named in the
text, and a fault lies between two characters of it. -/
theorem parse_iff_printed (text : String) :
    (∀ type, parseField text = .ok type ↔ type.Valid ∧ type.chars = text.toList) ∧
    (∀ type, parseMethod text = .ok type ↔
      (∀ t ∈ type.types, t.Valid) ∧ type.chars = text.toList) ∧
    (∀ names, classes text = .ok names ↔
      ((∃ type, parseField text = .ok type) ∨ ∃ type, parseMethod text = .ok type) ∧
        Names text.toList names) ∧
    ∀ e, parseField text = .error e ∨ parseMethod text = .error e ∨ classes text = .error e →
      e.descriptor = text ∧ e.offset ≤ text.utf8ByteSize ∧
        (⟨e.offset⟩ : String.Pos.Raw).IsValid text := by
  refine ⟨fun _ => parseField_eq_ok_iff, fun _ => parseMethod_eq_ok_iff,
    fun _ => classes_eq_ok_iff, fun e he => ?_⟩
  have hparse : parseField text = .error e ∨ parseMethod text = .error e := by
    rcases he with he | he | he
    · exact .inl he
    · exact .inr he
    · exact classes_eq_error he
  have hfault : e.descriptor = text ∧ (⟨e.offset⟩ : String.Pos.Raw).IsValid text := by
    rcases hparse with he | he
    · exact whole_eq_error FieldType.readsPrinted_read he
    · exact whole_eq_error MethodType.readsPrinted_read he
  exact ⟨hfault.1, hfault.2.le_utf8ByteSize, hfault.2⟩

end Descriptor

end Winnow
