import Mathlib.Data.List.Basic
import Winnow.Discovery
import Winnow.Proofs.Fingerprint
import Winnow.Proofs.Json.RoundTrip

/-!
# Unit files found and read

A text can spell every unit, and a file that holds the text of one is read as that unit. Which unit
files a run finds depends only on the files below the directories it searches, so files that are
written elsewhere make no difference to it.
-/
namespace Winnow

open FileSystem

/-! ## Texts of units -/

namespace Data

theorem spellableItems_map {α : Type} {f : α → Data} (h : ∀ a, (f a).Spellable) (l : List α) :
    SpellableItems (l.map f) := by
  refine spellableItems_iff.mpr fun d hd => ?_
  obtain ⟨a, _, rfl⟩ := List.mem_map.mp hd
  exact h a

theorem spellable_ofString? (s : Option String) : (Data.ofString? s).Spellable := by
  cases s <;> trivial

/-- A value that may be missing, spellable if it is there. -/
def SpellableIf (d? : Option Data) : Prop := ∀ d, d? = some d → d.Spellable

theorem spellableIf_some {d : Data} : SpellableIf (some d) ↔ d.Spellable := by
  simp [SpellableIf]

theorem spellableIf_string (s : Option String) : SpellableIf (s.map .string) := by
  cases s with
  | none => nofun
  | some s => exact spellableIf_some.mpr trivial

theorem spellableIf_unlessEmpty {α : Type} {f : α → Data} (h : ∀ a, (f a).Spellable)
    (l : List α) : SpellableIf (unlessEmpty (l.map f)) := by
  cases l with
  | nil => nofun
  | cons a l => exact spellableIf_some.mpr (spellableItems_map h (a :: l))

theorem spellable_ofFields {fields : List (String × Option Data)}
    (h : ∀ f ∈ fields, SpellableIf f.2) : (ofFields fields).Spellable := by
  refine spellableFields_iff.mpr fun f hf => ?_
  obtain ⟨⟨name, d?⟩, hmem, hd⟩ := List.mem_filterMap.mp hf
  obtain ⟨d, rfl, rfl⟩ := Option.map_eq_some_iff.mp hd
  exact h _ hmem d rfl

end Data

section Units

open Data

theorem Modifiers.spellable_toData (m : Modifiers) : m.toData.Spellable :=
  Nat.lt_trans m.bits.toNat_lt (by decide)

theorem AnnotationUse.spellable_toData (a : AnnotationUse) : a.toData.Spellable :=
  spellable_ofFields (by
    simp [spellableIf_some, Spellable, spellableIf_unlessEmpty (f := Data.string) fun _ => trivial])

theorem InnerClass.spellable_toData (r : InnerClass) : r.toData.Spellable :=
  spellableFields_iff.mpr (by
    simp [Spellable, spellable_ofString?, r.modifiers.spellable_toData])

theorem Instruction.spellable_toData (i : Instruction) : i.toData.Spellable := by
  refine spellableFields_iff.mpr ?_
  cases i <;> simp [Spellable, spellable_ofString?]

theorem Method.spellable_toData (m : Method) : m.toData.Spellable :=
  spellable_ofFields (by
    simp [spellableIf_some, Spellable, spellableIf_string, m.modifiers.spellable_toData,
      spellableIf_unlessEmpty (f := Data.string) fun _ => trivial,
      spellableIf_unlessEmpty AnnotationUse.spellable_toData,
      spellableItems_map Instruction.spellable_toData])

theorem Field.spellable_toData (f : Field) : f.toData.Spellable :=
  spellable_ofFields (by
    simp [spellableIf_some, Spellable, spellableIf_string, f.modifiers.spellable_toData,
      spellableIf_unlessEmpty AnnotationUse.spellable_toData])

/-- A text can spell every unit. -/
theorem CompiledUnit.spellable_toData (u : CompiledUnit) : u.toData.Spellable := by
  have hlibrary : SpellableIf (if u.library then some (.bool true) else none) := by
    cases u.library <;> simp [SpellableIf, Spellable]
  exact spellable_ofFields (by
    simp [spellableIf_some, Spellable, spellableIf_string, spellable_ofString?, hlibrary,
      u.modifiers.spellable_toData, spellableIf_unlessEmpty (f := Data.string) fun _ => trivial,
      spellableIf_unlessEmpty AnnotationUse.spellable_toData,
      spellableIf_unlessEmpty InnerClass.spellable_toData,
      spellableItems_map Method.spellable_toData, spellableItems_map Field.spellable_toData])

end Units

theorem Json.size_toUTF8_compact_le (d : Data) :
    (compact d).toUTF8.size ≤ 4 * (compactChars d).length := by
  show (compactChars d).utf8Encode.size ≤ _
  induction compactChars d with
  | nil => decide
  | cons c l ih =>
    have hc := Char.utf8Size_le_four c
    rw [List.utf8Encode_cons, ByteArray.size_append, List.utf8Encode_singleton, List.length_cons,
      List.size_toByteArray, String.length_utf8EncodeChar]
    omega

/-! ## Reading -/

namespace UnitFile

variable {fs : FileSystem} {p : Path} {u : CompiledUnit} {mtime : Nat}

/-- A unit that can be told from its data is read back from the text of it. -/
theorem read_of_compact
    (hentry : fs.entry p = .ok (.file (Json.compact u.toData).toUTF8 mtime))
    (hjson : p.extension = some "json") (hdata : CompiledUnit.ofData u.toData = .ok u)
    (hcheck : u.check = .ok ()) : read fs p = .ok u := by
  have hread : fs.read p = .ok (Json.compact u.toData).toUTF8 :=
    read_eq_ok_iff_entry.mpr ⟨mtime, hentry⟩
  have hparse : parse p (fs.read p) = .ok u.toData := by
    simp only [parse, hjson, hread, Json.parseBytes_compact u.spellable_toData]
    rfl
  simp only [read, hentry, hparse, hdata, hcheck, bind, Except.bind]
  rfl

theorem parse_error (p : Path) (e : FileError) : ∃ e', parse p (.error e) = .error e' := by
  unfold parse
  dsimp only
  split <;> exact ⟨_, rfl⟩

/-- What is read as a unit is a file. -/
theorem exists_entry_of_read (h : read fs p = .ok u) :
    ∃ content mtime, fs.entry p = .ok (.file content mtime) := by
  cases hr : fs.read p with
  | ok content => exact ⟨content, read_eq_ok_iff_entry.mp hr⟩
  | error e =>
    obtain ⟨e', hparse⟩ := parse_error p e
    unfold read at h
    rw [hr, hparse] at h
    cases he : fs.entry p <;> rw [he] at h <;> cases h

end UnitFile

/-! ## Finding -/

namespace FileSystem

variable {fs fs' : FileSystem} {p : Path} {places : List Place}

theorem Touches.entry_directory (h : Touches fs fs' places) (hd : fs.entry p = .ok .directory) :
    fs'.entry p = .ok .directory := by
  obtain ⟨hlocate, hentry⟩ := entry_eq_directory_iff.mp hd
  obtain ⟨htext, hnul, hwalks, _⟩ := locate_eq_ok_iff.mp hlocate
  exact entry_eq_directory_iff.mpr
    ⟨locate_eq_ok_iff.mpr ⟨htext, hnul, h.walks hwalks, rfl⟩, h.directories _ hentry⟩

/-- A file at a place or below it. -/
def isFileBelow (place key : Place) : FileEntry → Bool
  | .directory => false
  | .file _ _ => place.holds key

theorem isFileBelow_iff {place key : Place} {e : FileEntry} : isFileBelow place key e = true ↔
    place.holds key = true ∧ ∃ content mtime, e = .file content mtime := by
  cases e <;> simp [isFileBelow]

theorem filesBelow_eq (h : fs.entry p = .ok .directory) : fs.filesBelow p =
    (fs.entries.filter (isFileBelow p.place)).toList.map (·.1.drop p.place.length) := by
  have hfilter : (fs.entries.filter (isFileBelow p.place)).toList =
      fs.entries.toList.filter fun e => isFileBelow p.place e.1 e.2 := rfl
  rw [hfilter, ← List.filterMap_eq_map, List.filterMap_filter]
  unfold filesBelow
  rw [(entry_eq_directory_iff.mp h).1, h]
  refine List.filterMap_congr fun ⟨key, e⟩ _ => ?_
  cases e <;> rfl

/-- What is written elsewhere makes no difference to the files below a directory. -/
theorem Touches.filesBelow_eq (h : Touches fs fs' places) (hd : fs.entry p = .ok .directory)
    (hroot : p.place ≠ []) (hout : ∀ q ∈ places, ¬ p.place <+: q) :
    fs'.filesBelow p = fs.filesBelow p := by
  rw [FileSystem.filesBelow_eq hd, FileSystem.filesBelow_eq (h.entry_directory hd)]
  congr 2
  have hfiles : ∀ key content mtime, p.place.holds key = true →
      (fs'.entries.get? key = some (.file content mtime) ↔
        fs.entries.get? key = some (.file content mtime)) := by
    intro key content mtime hholds
    have hbelow := Place.prefix_of_holds hholds
    have hkey : key ≠ [] := fun hnil => hroot (List.prefix_nil.mp (hnil ▸ hbelow))
    have hiff := h.files key (fun hmem => hout key hmem hbelow) content mtime
    simpa only [entryAt, if_neg hkey] using hiff
  refine SortedMap.ext_get? fun key => Option.ext fun e => ?_
  simp only [SortedMap.get?_filter, Option.filter_eq_some_iff, isFileBelow_iff]
  constructor
  · rintro ⟨he, hbelow, content, mtime, rfl⟩
    exact ⟨(hfiles key content mtime hbelow).mp he, hbelow, content, mtime, rfl⟩
  · rintro ⟨he, hbelow, content, mtime, rfl⟩
    exact ⟨(hfiles key content mtime hbelow).mpr he, hbelow, content, mtime, rfl⟩

end FileSystem

namespace Config

variable {c : Config} {fs fs' : FileSystem} {directories : List Path} {places : List Place}

/-- Paths that come in order and without repetition are left as they are. -/
theorem dropRepeated_of_increasing {paths : List Path}
    (h : paths.Pairwise fun p q => compare p q = .lt) : dropRepeated paths = paths := by
  induction paths with
  | nil => simp [dropRepeated]
  | cons p paths ih =>
    cases paths with
    | nil => simp [dropRepeated]
    | cons q paths =>
      obtain ⟨hp, hrest⟩ := List.pairwise_cons.mp h
      have hpq : p.same q = false := by
        refine decide_eq_false fun hsame => ?_
        cases (Path.compare_eq_iff.mpr hsame).symm.trans (hp q List.mem_cons_self)
      rw [dropRepeated, hpq, ih hrest]
      rfl

theorem unitFiles_of_increasing
    (h : (directories.flatMap (c.unitFilesIn fs)).Pairwise fun p q => compare p q = .lt) :
    c.unitFiles fs directories = directories.flatMap (c.unitFilesIn fs) := by
  rw [unitFiles, Path.sorted, List.mergeSort_of_pairwise (h.imp fun hlt => by rw [hlt]; rfl),
    dropRepeated_of_increasing h]

theorem unitFiles_of_touches (h : Touches fs fs' places)
    (hd : ∀ d ∈ directories, fs.entry d = .ok .directory ∧ d.place ≠ [] ∧
      ∀ q ∈ places, ¬ d.place <+: q) :
    c.unitFiles fs' directories = c.unitFiles fs directories := by
  have hin : directories.flatMap (c.unitFilesIn fs') = directories.flatMap (c.unitFilesIn fs) := by
    refine List.flatMap_congr fun d hmem => ?_
    obtain ⟨hentry, hroot, hout⟩ := hd d hmem
    rw [unitFilesIn, h.filesBelow_eq hentry hroot hout, unitFilesIn]
  rw [unitFiles, hin, unitFiles]

end Config

end Winnow
