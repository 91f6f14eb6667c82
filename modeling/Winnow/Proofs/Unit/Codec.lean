import Winnow.Proofs.Data.Decode
import Winnow.Proofs.UnitFile

/-!
# Units read back from their data

What the data of a unit leaves out, the reader takes for what it was. The fields stand in the order
in which they were written, so this is about records as they come from a text and not about their
sorted form.
-/
namespace Winnow

open Data

namespace Data

mutual
/-- Only an unquoted scalar can stand for something other than itself. -/
theorem resolve_of_spellable {d : Data} (h : d.Spellable) : d.resolve = d := by
  match d, h with
  | .null, _ | .bool _, _ | .natural _, _ | .string _, _ => rfl
  | .list items, h => rw [resolve, resolveItems_of_spellable h]
  | .record fields, h => rw [resolve, resolveFields_of_spellable h]

theorem resolveItems_of_spellable {items : List Data} (h : SpellableItems items) :
    resolveItems items = items := by
  match items, h with
  | [], _ => rfl
  | d :: ds, h => rw [resolveItems, resolve_of_spellable h.1, resolveItems_of_spellable h.2]

theorem resolveFields_of_spellable {fields : List (String × Data)} (h : SpellableFields fields) :
    resolveFields fields = fields := by
  match fields, h with
  | [], _ => rfl
  | (name, d) :: fs, h => rw [resolveFields, resolve_of_spellable h.1, resolveFields_of_spellable h.2]
end

end Data

/-- What a reader makes of a field that may be left out. -/
def Data.Stands {α : Type} (read : Decoder α) (default : α) (d? : Option Data) (a : α) : Prop :=
  (d?.map read).getD (.ok default) = .ok a

namespace Data.Stands

variable {α : Type} {read : Decoder α} {f : α → Data}

theorem bool {default : Bool} (b : Bool) : Stands asBool default (some (.bool b)) b := rfl

theorem ofString? {default : Option String} (s : Option String) :
    Stands (asOptional asString) default (some (.ofString? s)) s := by
  cases s <;> rfl

theorem string? (s : Option String) : Stands (asOptional asString) none (s.map .string) s := by
  cases s <;> rfl

theorem list {default : List α} (h : ∀ a, read (f a) = .ok a) (l : List α) :
    Stands (asList read) default (some (.list (l.map f))) l := by
  refine mapM_eq_ok_iff.mpr ?_
  rw [List.forall₂_map_left_iff, List.forall₂_same]
  exact fun a _ => h a

/-- A list that is left out is empty. -/
theorem list? (h : ∀ a, read (f a) = .ok a) (l : List α) :
    Stands (asList read) [] (unlessEmpty (l.map f)) l := by
  cases l with
  | nil => rfl
  | cons a l => exact list h (a :: l)

theorem strings? (l : List String) : Stands (asList asString) [] (unlessEmpty (l.map .string)) l :=
  list? (f := Data.string) (fun _ => rfl) l

end Data.Stands

namespace Fields

/-- The fields that are not left out. -/
def present (fields : List (String × Option Data)) : List (String × Data) :=
  fields.filterMap fun (name, d) => d.map (name, ·)

/-- Every field has the value that is given for it, or is left out. -/
structure Offer (fs : Fields) (fields : List (String × Option Data)) : Prop where
  get?_eq : ∀ {name d?}, (name, d?) ∈ fields → fs.get? name = d?

theorem mem_present {fields : List (String × Option Data)} {name : String} {d : Data} :
    (name, d) ∈ present fields ↔ (name, some d) ∈ fields := by
  simp [present, List.mem_filterMap]

theorem nodup_present {fields : List (String × Option Data)} (h : (fields.map (·.1)).Nodup) :
    ((present fields).map (·.1)).Nodup := by
  refine List.Sublist.nodup ?_ h
  clear h
  induction fields with
  | nil => exact .slnil
  | cons f fields ih =>
    obtain ⟨name, d?⟩ := f
    cases d? with
    | none => exact ih.cons _
    | some d => exact ih.cons_cons _

theorem of_ofFields (fields : List (String × Option Data)) (h : (fields.map (·.1)).Nodup)
    (names : List String) : ∃ fs, Fields.of names (.ofFields fields) = .ok fs ∧ fs.Offer fields := by
  have hd := nodup_present h
  have hone : names.find? (fun name => 1 < ((present fields).filter (·.1 = name)).length) = none := by
    rw [List.find?_eq_none]
    intro name _
    have := length_filter_le_one hd name
    simpa using this
  refine ⟨⟨false, present fields⟩, ?_, ⟨fun {name d?} hf => ?_⟩⟩
  · rw [show Data.ofFields fields = .record (present fields) from rfl, Fields.of, hone]
  · cases d? with
    | some d => exact (lookup_eq_some_iff_mem hd).mpr (mem_present.mpr hf)
    | none =>
      refine List.lookup_eq_none_iff.mpr ?_
      rintro ⟨name', d⟩ he
      rw [bne_iff_ne]
      rintro rfl
      -- One name stands for one field only, and that one is left out.
      cases List.inj_on_of_nodup_map h hf (mem_present.mp he) rfl

/-- A record that leaves nothing out. -/
theorem of_record (fields : List (String × Data)) (h : (fields.map (·.1)).Nodup)
    (names : List String) : ∃ fs, Fields.of names (.record fields) = .ok fs ∧
      fs.Offer (fields.map fun f => (f.1, some f.2)) := by
  have hfields : Data.ofFields (fields.map fun f => (f.1, some f.2)) = .record fields := by
    simp [Data.ofFields, List.filterMap_map]
  rw [← hfields]
  exact of_ofFields _ (by simpa [Function.comp_def] using h) names

namespace Offer

variable {α : Type} {fs : Fields} {fields : List (String × Option Data)} {name : String}
  {read : Decoder α} {a : α}

theorem required_eq (h : fs.Offer fields) {d : Data} (hm : (name, some d) ∈ fields)
    (hd : read d = .ok a) : fs.required name read = .ok a := by
  rw [required, h.get?_eq hm]
  exact hd

theorem required_string (h : fs.Offer fields) {s : String} (hm : (name, some (.string s)) ∈ fields) :
    fs.required name asString = .ok s := h.required_eq hm rfl

theorem withDefault_eq (h : fs.Offer fields) {d? : Option Data} {default : α}
    (hm : (name, d?) ∈ fields) (hv : Data.Stands read default d? a) :
    fs.withDefault name read default = .ok a := by
  rw [withDefault, h.get?_eq hm]
  cases d? with
  | none => exact hv
  | some d => exact hv

end Offer

end Fields

/-! ## The parts of a unit -/

theorem Modifiers.ofData_toData (m : Modifiers) : ofData m.toData = .ok m := by
  have h : asBelow UInt32.size m.toData = .ok m.bits.toNat := if_pos m.bits.toNat_lt
  simp [ofData, asUInt32, h, bind, Except.bind, pure, Except.pure]

theorem Modifiers.stands (m default : Modifiers) :
    Stands ofData default (some m.toData) m := m.ofData_toData

theorem AnnotationUse.ofData_toData (a : AnnotationUse) : ofData a.toData = .ok a := by
  obtain ⟨fs, hfs, h⟩ := Fields.of_ofFields [
    ("type", some (.string a.type)),
    ("references", Data.unlessEmpty (a.references.map .string)),
    ("visible", some (.bool a.visible))] (by simp) ["type", "references", "visible"]
  have e₁ : fs.required "type" asString = .ok a.type := h.required_string (by simp)
  have e₂ : fs.withDefault "references" (asList asString) [] = .ok a.references :=
    h.withDefault_eq (by simp) (.strings? _)
  have e₃ : fs.withDefault "visible" asBool true = .ok a.visible :=
    h.withDefault_eq (by simp) (.bool _)
  simp only [ofData, toData, hfs, e₁, e₂, e₃, bind, Except.bind, pure, Except.pure]

theorem InnerClass.ofData_toData (r : InnerClass) : ofData r.toData = .ok r := by
  obtain ⟨fs, hfs, h⟩ := Fields.of_record [
    ("inner", .string r.inner),
    ("outer", .ofString? r.outer),
    ("simple_name", .ofString? r.simpleName),
    ("modifiers", r.modifiers.toData)] (by simp) ["inner", "outer", "simple_name", "modifiers"]
  have e₁ : fs.required "inner" asString = .ok r.inner := h.required_string (by simp)
  have e₂ : fs.withDefault "outer" (asOptional asString) none = .ok r.outer :=
    h.withDefault_eq (by simp) (.ofString? _)
  have e₃ : fs.withDefault "simple_name" (asOptional asString) none = .ok r.simpleName :=
    h.withDefault_eq (by simp) (.ofString? _)
  have e₄ : fs.withDefault "modifiers" Modifiers.ofData .none = .ok r.modifiers :=
    h.withDefault_eq (by simp) (r.modifiers.stands _)
  simp only [ofData, toData, hfs, e₁, e₂, e₃, e₄, bind, Except.bind, pure, Except.pure]

theorem Dispatch.ofData_name (d : Dispatch) : ofData (.string d.name) = .ok d := by
  cases d <;> rfl

namespace Instruction

/-- The fields of a reference to a member. -/
def targetFields (r : MemberRef) : List (String × Data) :=
  [("owner", .string r.owner), ("name", .string r.name), ("descriptor", .string r.descriptor)]

theorem readTarget_eq {fs : Fields} {fields : List (String × Option Data)} {r : MemberRef}
    (h : fs.Offer fields) (hr : ∀ f ∈ targetFields r, (f.1, some f.2) ∈ fields) :
    readTarget fs = .ok r := by
  simp only [targetFields, List.forall_mem_cons] at hr
  simp only [readTarget, h.required_string hr.1, h.required_string hr.2.1,
    h.required_string hr.2.2.1, bind, Except.bind, pure, Except.pure]

theorem readClass_eq (c : String) : readClass (.record [("class", .string c)]) = .ok c := by
  obtain ⟨fs, hfs, h⟩ := Fields.of_record [("class", .string c)] (by simp) ["class"]
  have e : fs.required "class" asString = .ok c := h.required_string (by simp)
  simp only [readClass, hfs, e, bind, Except.bind]

/-- The fields besides the operation. -/
def operands : Instruction → List (String × Data)
  | .invoke dispatch r => ("dispatch", .string dispatch.name) :: targetFields r
  | .field r => targetFields r
  | .new c | .type c | .classLiteral c => [("class", .string c)]
  | .reflect c member descriptor =>
    [("class", .string c), ("member", .ofString? member), ("descriptor", .ofString? descriptor)]

theorem tagged_toData (i : Instruction) :
    i.toData.resolve.tagged "op" = .ok (.string i.op, .record i.operands) := by
  rw [Data.resolve_of_spellable i.spellable_toData]
  cases i <;> simp [toData, Data.tagged, operands, targetFields]

theorem ofData_toData (i : Instruction) : ofData i.toData = .ok i := by
  have htag := i.tagged_toData
  cases i with
  | invoke dispatch r =>
    obtain ⟨fs, hfs, h⟩ := Fields.of_record (operands (.invoke dispatch r))
      (by simp [operands, targetFields]) ["dispatch", "owner", "name", "descriptor"]
    have e₁ : fs.required "dispatch" Dispatch.ofData = .ok dispatch :=
      h.required_eq (by simp [operands]) (Dispatch.ofData_name dispatch)
    have e₂ : readTarget fs = .ok r := readTarget_eq h (by simp [operands, targetFields])
    simp only [ofData, htag, asString, op, hfs, e₁, e₂, bind, Except.bind, pure, Except.pure]
  | field r =>
    obtain ⟨fs, hfs, h⟩ := Fields.of_record (operands (.field r))
      (by simp [operands, targetFields]) ["owner", "name", "descriptor"]
    have e : readTarget fs = .ok r := readTarget_eq h (by simp [operands, targetFields])
    simp only [ofData, htag, asString, op, hfs, e, bind, Except.bind, pure, Except.pure]
  | new c | type c | classLiteral c =>
    simp only [ofData, htag, asString, op, operands, readClass_eq, bind, Except.bind, pure,
      Except.pure]
  | reflect c member descriptor =>
    obtain ⟨fs, hfs, h⟩ := Fields.of_record (operands (.reflect c member descriptor))
      (by simp [operands]) ["class", "member", "descriptor"]
    have e₁ : fs.required "class" asString = .ok c := h.required_string (by simp [operands])
    have e₂ : fs.withDefault "member" (asOptional asString) none = .ok member :=
      h.withDefault_eq (by simp [operands]) (.ofString? _)
    have e₃ : fs.withDefault "descriptor" (asOptional asString) none = .ok descriptor :=
      h.withDefault_eq (by simp [operands]) (.ofString? _)
    simp only [ofData, htag, asString, op, hfs, e₁, e₂, e₃, bind, Except.bind, pure, Except.pure]

end Instruction

theorem Method.ofData_toData (m : Method) : ofData m.toData = .ok m := by
  obtain ⟨fs, hfs, h⟩ := Fields.of_ofFields [
    ("name", some (.string m.name)),
    ("descriptor", some (.string m.descriptor)),
    ("modifiers", some m.modifiers.toData),
    ("annotations", Data.unlessEmpty (m.annotations.map AnnotationUse.toData)),
    ("exceptions", Data.unlessEmpty (m.exceptions.map .string)),
    ("signature", m.signature.map .string),
    ("annotation_default", Data.unlessEmpty (m.annotationDefault.map .string)),
    ("body", some (.list (m.body.map Instruction.toData)))] (by simp)
    ["name", "descriptor", "modifiers", "annotations", "exceptions", "signature",
      "annotation_default", "body"]
  have e₁ : fs.required "name" asString = .ok m.name := h.required_string (by simp)
  have e₂ : fs.required "descriptor" asString = .ok m.descriptor := h.required_string (by simp)
  have e₃ : fs.withDefault "modifiers" Modifiers.ofData .none = .ok m.modifiers :=
    h.withDefault_eq (by simp) (m.modifiers.stands _)
  have e₄ : fs.withDefault "annotations" (asList AnnotationUse.ofData) [] = .ok m.annotations :=
    h.withDefault_eq (by simp) (.list? AnnotationUse.ofData_toData _)
  have e₅ : fs.withDefault "exceptions" (asList asString) [] = .ok m.exceptions :=
    h.withDefault_eq (by simp) (.strings? _)
  have e₆ : fs.withDefault "signature" (asOptional asString) none = .ok m.signature :=
    h.withDefault_eq (by simp) (.string? _)
  have e₇ : fs.withDefault "annotation_default" (asList asString) [] = .ok m.annotationDefault :=
    h.withDefault_eq (by simp) (.strings? _)
  have e₈ : fs.withDefault "body" (asList Instruction.ofData) [] = .ok m.body :=
    h.withDefault_eq (by simp) (.list Instruction.ofData_toData _)
  simp only [ofData, toData, hfs, e₁, e₂, e₃, e₄, e₅, e₆, e₇, e₈, bind, Except.bind, pure,
    Except.pure]

theorem Field.ofData_toData (f : Field) : ofData f.toData = .ok f := by
  obtain ⟨fs, hfs, h⟩ := Fields.of_ofFields [
    ("name", some (.string f.name)),
    ("descriptor", some (.string f.descriptor)),
    ("modifiers", some f.modifiers.toData),
    ("annotations", Data.unlessEmpty (f.annotations.map AnnotationUse.toData)),
    ("signature", f.signature.map .string)] (by simp)
    ["name", "descriptor", "modifiers", "annotations", "signature"]
  have e₁ : fs.required "name" asString = .ok f.name := h.required_string (by simp)
  have e₂ : fs.required "descriptor" asString = .ok f.descriptor := h.required_string (by simp)
  have e₃ : fs.withDefault "modifiers" Modifiers.ofData .none = .ok f.modifiers :=
    h.withDefault_eq (by simp) (f.modifiers.stands _)
  have e₄ : fs.withDefault "annotations" (asList AnnotationUse.ofData) [] = .ok f.annotations :=
    h.withDefault_eq (by simp) (.list? AnnotationUse.ofData_toData _)
  have e₅ : fs.withDefault "signature" (asOptional asString) none = .ok f.signature :=
    h.withDefault_eq (by simp) (.string? _)
  simp only [ofData, toData, hfs, e₁, e₂, e₃, e₄, e₅, bind, Except.bind, pure, Except.pure]

/-- Every unit is read back from its data. -/
theorem CompiledUnit.ofData_toData (u : CompiledUnit) : ofData u.toData = .ok u := by
  obtain ⟨fs, hfs, h⟩ := Fields.of_ofFields [
    ("name", some (.string u.name)),
    ("modifiers", some u.modifiers.toData),
    ("superclass", some (.ofString? u.superclass)),
    ("interfaces", Data.unlessEmpty (u.interfaces.map .string)),
    ("annotations", Data.unlessEmpty (u.annotations.map AnnotationUse.toData)),
    ("signature", u.signature.map .string),
    ("inner_classes", Data.unlessEmpty (u.innerClasses.map InnerClass.toData)),
    ("library", if u.library then some (.bool true) else none),
    ("methods", some (.list (u.methods.map Method.toData))),
    ("fields", some (.list (u.fields.map Field.toData)))] (by simp)
    ["name", "modifiers", "superclass", "interfaces", "annotations", "signature", "inner_classes",
      "library", "methods", "fields"]
  have hlibrary : Stands asBool false (if u.library then some (.bool true) else none) u.library := by
    cases u.library <;> rfl
  have e₁ : fs.required "name" asString = .ok u.name := h.required_string (by simp)
  have e₂ : fs.withDefault "modifiers" Modifiers.ofData .none = .ok u.modifiers :=
    h.withDefault_eq (by simp) (u.modifiers.stands _)
  have e₃ : fs.withDefault "superclass" (asOptional asString) none = .ok u.superclass :=
    h.withDefault_eq (by simp) (.ofString? _)
  have e₄ : fs.withDefault "interfaces" (asList asString) [] = .ok u.interfaces :=
    h.withDefault_eq (by simp) (.strings? _)
  have e₅ : fs.withDefault "annotations" (asList AnnotationUse.ofData) [] = .ok u.annotations :=
    h.withDefault_eq (by simp) (.list? AnnotationUse.ofData_toData _)
  have e₆ : fs.withDefault "signature" (asOptional asString) none = .ok u.signature :=
    h.withDefault_eq (by simp) (.string? _)
  have e₇ : fs.withDefault "inner_classes" (asList InnerClass.ofData) [] = .ok u.innerClasses :=
    h.withDefault_eq (by simp) (.list? InnerClass.ofData_toData _)
  have e₈ : fs.withDefault "library" asBool false = .ok u.library :=
    h.withDefault_eq (by simp) hlibrary
  have e₉ : fs.withDefault "methods" (asList Method.ofData) [] = .ok u.methods :=
    h.withDefault_eq (by simp) (.list Method.ofData_toData _)
  have e₁₀ : fs.withDefault "fields" (asList Field.ofData) [] = .ok u.fields :=
    h.withDefault_eq (by simp) (.list Field.ofData_toData _)
  simp only [ofData, toData, hfs, e₁, e₂, e₃, e₄, e₅, e₆, e₇, e₈, e₉, e₁₀, bind, Except.bind, pure,
    Except.pure]

end Winnow
