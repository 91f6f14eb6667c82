import Mathlib.Data.List.Nodup
import Mathlib.Data.List.Perm.Basic
import Winnow.Data.Decode
import Winnow.Proofs.Except
import Winnow.Proofs.Json.RoundTrip
import Winnow.Proofs.Sorted

/-!
# Data that carries a value

What is stored has its records sorted by name before it is read. A record whose
names are distinct loses nothing by that, so a reader that asks for fields by
name does not notice. Data carries a value when a text can spell it and its
reader gets the value back from the sorted form.
-/
namespace Winnow

namespace Data

theorem normalizeItems_eq (items : List Data) : normalizeItems items = items.map normalize := by
  induction items with
  | nil => rfl
  | cons d ds ih => simp [normalizeItems, ih]

theorem normalizeFields_eq (fields : List (String × Data)) :
    normalizeFields fields = fields.map fun f => (f.1, f.2.normalize) := by
  induction fields with
  | nil => rfl
  | cons f fs ih => simp [normalizeFields, ih]

theorem depthItems_le_iff {items : List Data} {k : Nat} :
    depthItems items ≤ k ↔ ∀ d ∈ items, d.depth ≤ k := by
  induction items with
  | nil => simp [depthItems]
  | cons d ds ih => rw [depthItems, Nat.max_le, ih, List.forall_mem_cons]

theorem depthFields_le_iff {fields : List (String × Data)} {k : Nat} :
    depthFields fields ≤ k ↔ ∀ f ∈ fields, f.2.depth ≤ k := by
  induction fields with
  | nil => simp [depthFields]
  | cons f fs ih => rw [depthFields, Nat.max_le, ih, List.forall_mem_cons]

/-- A text can spell the data, and no more than `k` lists and records are nested in it. -/
structure Writable (k : Nat) (d : Data) : Prop where
  spellable : d.Spellable
  depth_le : d.depth ≤ k

namespace Writable

variable {k : Nat}

@[simp] theorem string (s : String) : Writable k (.string s) := ⟨trivial, Nat.zero_le k⟩

@[simp] theorem bool (b : Bool) : Writable k (.bool b) := ⟨trivial, Nat.zero_le k⟩

theorem natural {n : Nat} (h : n < UInt64.size) : Writable k (.natural n) := ⟨h, Nat.zero_le k⟩

@[simp] theorem ofString? (s : Option String) : Writable k (.ofString? s) := by
  cases s with
  | none => exact ⟨trivial, Nat.zero_le k⟩
  | some s => exact .string s

theorem list {items : List Data} (h : ∀ d ∈ items, Writable k d) :
    Writable (k + 1) (.list items) where
  spellable := spellableItems_iff.mpr fun d hd => (h d hd).spellable
  depth_le := Nat.succ_le_succ (depthItems_le_iff.mpr fun d hd => (h d hd).depth_le)

theorem record {fields : List (String × Data)} (h : ∀ f ∈ fields, Writable k f.2) :
    Writable (k + 1) (.record fields) where
  spellable := spellableFields_iff.mpr fun f hf => (h f hf).spellable
  depth_le := Nat.succ_le_succ (depthFields_le_iff.mpr fun f hf => (h f hf).depth_le)

theorem mono {d : Data} {j : Nat} (h : Writable k d) (hk : k ≤ j) : Writable j d :=
  ⟨h.spellable, Nat.le_trans h.depth_le hk⟩

end Writable

/-! ## Records in any order -/

/-- A record with these fields in any order, their values in sorted form. -/
structure Holds (d : Data) (fields : List (String × Data)) : Prop where
  distinct : (fields.map (·.1)).Nodup
  perm : ∃ entries, d = .record entries ∧
    entries.Perm (fields.map fun f => (f.1, f.2.normalize))

theorem holds_normalize {fields : List (String × Data)} (h : (fields.map (·.1)).Nodup) :
    (Data.record fields).normalize.Holds fields := by
  refine ⟨h, _, rfl, ?_⟩
  have hne : (normalizeFields fields).Pairwise fun a b => compare a.1 b.1 ≠ .eq := by
    rw [normalizeFields_eq, List.pairwise_map]
    refine (List.pairwise_map.mp h).imp ?_
    intro a b hab heq
    exact hab (Std.LawfulEqCmp.eq_of_compare heq)
  rw [← normalizeFields_eq]
  exact SortedMap.foldl_insert_perm (m := ∅) hne

namespace Holds

variable {d : Data} {fields : List (String × Data)}

theorem entries (h : d.Holds fields) : ∃ entries, d = .record entries ∧
    (entries.map (·.1)).Nodup ∧ entries.Perm (fields.map fun f => (f.1, f.2.normalize)) := by
  obtain ⟨entries, rfl, hp⟩ := h.perm
  refine ⟨entries, rfl, (hp.map (·.1)).nodup_iff.mpr ?_, hp⟩
  simpa [Function.comp_def] using h.distinct

/-- The value of a field is found by its name, wherever it stands. -/
theorem field?_eq (h : d.Holds fields) {name : String} {value : Data}
    (hm : (name, value) ∈ fields) : d.field? name = some value.normalize := by
  obtain ⟨entries, rfl, hd, hp⟩ := h.entries
  have hr : (entries.reverse.map (·.1)).Nodup := by
    rw [List.map_reverse]
    exact List.nodup_reverse.mpr hd
  refine (lookup_eq_some_iff_mem hr).mpr (List.mem_reverse.mpr (hp.mem_iff.mpr ?_))
  exact List.mem_map.mpr ⟨(name, value), hm, rfl⟩

/-- Whatever is read from the fields in turn comes out in some order. -/
theorem mapM_perm {α : Type} (h : d.Holds fields)
    (read : String × Data → Except DecodeError α) (values : List α)
    (hv : List.Forall₂ (fun f a => read (f.1, f.2.normalize) = .ok a) fields values) :
    ∃ entries r, d = .record entries ∧ entries.mapM read = .ok r ∧ r.Perm values := by
  obtain ⟨entries, rfl, -, hp⟩ := h.entries
  have hv' : List.Forall₂ (fun e a => read e = .ok a)
      (fields.map fun f => (f.1, f.2.normalize)) values := List.forall₂_map_left_iff.mpr hv
  obtain ⟨r, hr, hperm⟩ := List.perm_comp_forall₂ hp hv'
  exact ⟨entries, r, rfl, mapM_eq_ok_iff.mpr hr, hperm⟩

/-- Entries with arbitrary names are all read, in some order. -/
theorem asEntries_perm {α β : Type} {read : Decoder α} {l : List β} {key : β → String}
    {write : β → Data} {value : β → α} (h : d.Holds (l.map fun b => (key b, write b)))
    (hv : ∀ b ∈ l, read (write b).normalize = .ok (value b)) :
    ∃ r, d.asEntries read = .ok r ∧ r.Perm (l.map fun b => (key b, value b)) := by
  obtain ⟨entries, r, rfl, hr, hp⟩ := h.mapM_perm (fun e => return (e.1, ← read e.2))
    (l.map fun b => (key b, value b)) (by
      rw [List.forall₂_map_left_iff, List.forall₂_map_right_iff, List.forall₂_same]
      intro b hb
      simp only [hv b hb, bind, Except.bind, pure, Except.pure])
  exact ⟨r, hr, hp⟩

/-- The variant of a value is taken from its field, and the other fields are left. -/
theorem tagged {tag : String} {t : Data} (h : d.Holds ((tag, t) :: fields)) :
    ∃ d', d.tagged tag = .ok (t.normalize, d') ∧ d'.Holds fields := by
  obtain ⟨entries, rfl, -, hp⟩ := h.entries
  have hd := List.nodup_cons.mp h.distinct
  have hne : ∀ e ∈ fields.map (fun f => (f.1, f.2.normalize)), e.1 ≠ tag := by
    intro e he
    obtain ⟨f, hf, rfl⟩ := List.mem_map.mp he
    exact fun h => hd.1 (List.mem_map.mpr ⟨f, hf, h⟩)
  have htag : entries.filter (·.1 = tag) = [(tag, t.normalize)] := by
    refine List.perm_singleton.mp ((hp.filter _).trans (.of_eq ?_))
    rw [List.map_cons, List.filter_cons_of_pos (by simp), List.filter_eq_nil_iff.mpr]
    exact fun e he => by simpa using hne e he
  have hrest : (entries.filter (·.1 ≠ tag)).Perm (fields.map fun f => (f.1, f.2.normalize)) := by
    refine (hp.filter _).trans (.of_eq ?_)
    rw [List.map_cons, List.filter_cons_of_neg (by simp), List.filter_eq_self.mpr]
    exact fun e he => by simpa using hne e he
  exact ⟨.record (entries.filter (·.1 ≠ tag)), by simp only [Data.tagged, htag],
    hd.2, _, rfl, hrest⟩

end Holds

end Data

namespace Fields

/-- The fields of a record, by name and in sorted form. -/
structure Give (fs : Fields) (fields : List (String × Data)) : Prop where
  get?_eq : ∀ {name value}, (name, value) ∈ fields → fs.get? name = some value.normalize

theorem length_filter_le_one {entries : List (String × Data)} (h : (entries.map (·.1)).Nodup)
    (name : String) : (entries.filter (·.1 = name)).length ≤ 1 := by
  have hc := List.nodup_iff_count_le_one.mp h name
  rw [List.count_eq_countP, List.countP_map, List.countP_eq_length_filter] at hc
  exact hc

theorem of_holds {d : Data} {fields : List (String × Data)} (h : d.Holds fields)
    (names : List String) : ∃ fs, Fields.of names d = .ok fs ∧ fs.Give fields := by
  obtain ⟨entries, rfl, hd, hp⟩ := h.entries
  have hone : names.find? (fun name => 1 < (entries.filter (·.1 = name)).length) = none := by
    rw [List.find?_eq_none]
    intro name _
    have := length_filter_le_one hd name
    simpa using this
  refine ⟨⟨false, entries⟩, by simp only [Fields.of, hone], ⟨fun {name value} hm => ?_⟩⟩
  refine (lookup_eq_some_iff_mem hd).mpr (hp.mem_iff.mpr ?_)
  exact List.mem_map.mpr ⟨(name, value), hm, rfl⟩

end Fields

/-! ## Values -/

/-- The data can be written, and its reader gets the value back from the sorted form. -/
structure Data.Carries {α : Type} (read : Decoder α) (k : Nat) (d : Data) (a : α) : Prop where
  writable : d.Writable k
  read_eq : read d.normalize = .ok a

namespace Data.Carries

variable {α β : Type} {k : Nat}

theorem string (s : String) : Carries asString 0 (.string s) s := ⟨.string s, rfl⟩

theorem bool (b : Bool) : Carries asBool 0 (.bool b) b := ⟨.bool b, rfl⟩

theorem natural {n : Nat} (h : n < UInt64.size) : Carries asNatural k (.natural n) n :=
  ⟨.natural h, rfl⟩

theorem below {n bound : Nat} (h : n < bound) (hb : bound ≤ UInt64.size) :
    Carries (asBelow bound) k (.natural n) n := by
  refine ⟨.natural (Nat.lt_of_lt_of_le h hb), ?_⟩
  exact if_pos h

theorem ofString? (s : Option String) : Carries (asOptional asString) 0 (.ofString? s) s := by
  refine ⟨.ofString? s, ?_⟩
  cases s <;> rfl

theorem mono {read : Decoder α} {d : Data} {a : α} {j : Nat} (h : Carries read k d a)
    (hk : k ≤ j) : Carries read j d a := ⟨h.writable.mono hk, h.read_eq⟩

theorem list {read : Decoder α} {f : α → Data} {l : List α}
    (h : ∀ a ∈ l, Carries read k (f a) a) : Carries (asList read) (k + 1) (.list (l.map f)) l := by
  constructor
  · refine .list fun d hd => ?_
    obtain ⟨a, ha, rfl⟩ := List.mem_map.mp hd
    exact (h a ha).writable
  · rw [normalize, normalizeItems_eq, asList, List.map_map]
    refine mapM_eq_ok_iff.mpr ?_
    rw [List.forall₂_map_left_iff, List.forall₂_same]
    exact fun a ha => (h a ha).read_eq

theorem strings (l : List String) : Carries (asList asString) (k + 1) (.strings l) l :=
  list fun s _ => (string s).mono (Nat.zero_le k)

theorem pair {first : Decoder α} {second : Decoder β} {d e : Data} {a : α} {b : β}
    (hd : Carries first k d a) (he : Carries second k e b) :
    Carries (asPair first second) (k + 1) (.list [d, e]) (a, b) := by
  constructor
  · refine .list ?_
    simp [hd.writable, he.writable]
  · show asPair first second (.list [d.normalize, e.normalize]) = _
    simp [asPair, hd.read_eq, he.read_eq, bind, Except.bind, pure, Except.pure]

end Data.Carries

namespace Fields.Give

variable {α : Type} {fs : Fields} {fields : List (String × Data)} {k : Nat} {name : String}
  {read : Decoder α} {value : Data} {a : α}

theorem required_eq (h : fs.Give fields) (hm : (name, value) ∈ fields)
    (hv : Data.Carries read k value a) : fs.required name read = .ok a := by
  rw [required, h.get?_eq hm]
  exact hv.read_eq

theorem withDefault_eq (h : fs.Give fields) (hm : (name, value) ∈ fields)
    (hv : Data.Carries read k value a) (default : α) :
    fs.withDefault name read default = .ok a := by
  rw [withDefault, h.get?_eq hm]
  exact hv.read_eq

theorem optional_eq {a : Option α} (h : fs.Give fields) (hm : (name, value) ∈ fields)
    (hv : Data.Carries (Data.asOptional read) k value a) : fs.optional name read = .ok a := by
  rw [optional, h.get?_eq hm]
  exact hv.read_eq

end Fields.Give

end Winnow
