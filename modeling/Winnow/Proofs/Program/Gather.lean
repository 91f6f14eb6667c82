import Mathlib.Data.List.Nodup
import Winnow.Proofs.Except
import Winnow.Proofs.Program.Outline
import Winnow.Proofs.Program.Skeleton

/-!
# Programs from lists of units

A list of units and a list of library units make a program exactly if each unit
is valid and no two of the program declare one class. Such a program is built
exactly if nothing in its hierarchy comes back to itself; otherwise the class
that is named does.
-/
namespace Winnow

/-- The unit becomes part of the program itself. -/
def SourcedUnit.isOwn (s : SourcedUnit) : Bool := s.unit.name ≠ objectClass && !s.unit.library

/-- The unit says that it belongs to a library. -/
def SourcedUnit.isForeign (s : SourcedUnit) : Bool := s.unit.name ≠ objectClass && s.unit.library

namespace Program

variable {p q : Program} {platform : Platform} {units : List SourcedUnit}
  {libraries : List CompiledUnit}

/-- Adds the units of a program, and then those of its libraries. -/
def gather (platform : Platform) (units : List SourcedUnit) (libraries : List CompiledUnit) :
    Except BuildError Program := do
  let p ← units.foldlM (fun p s => p.addUnit s.unit s.source) { platform }
  libraries.foldlM addLibrary p

/-- The program with more units, each where it belongs. -/
def withUnits (p : Program) (units : List SourcedUnit) : Program :=
  { p with
    units := p.units ++ units.filter SourcedUnit.isOwn
    libraries := p.libraries ++ (units.filter SourcedUnit.isForeign).map (·.unit) }

/-- The program with more library units. -/
def withLibraries (p : Program) (libraries : List CompiledUnit) : Program :=
  { p with libraries := p.libraries ++ libraries.filter (·.name ≠ objectClass) }

theorem names_withUnits : (p.withUnits units).names =
    p.names ++ (units.filter SourcedUnit.isOwn).map (·.unit.name) := List.map_append

theorem withUnits_cons (s : SourcedUnit) :
    (p.withUnits [s]).withUnits units = p.withUnits (s :: units) := by
  simp only [withUnits, List.append_assoc, ← List.map_append, ← List.filter_append,
    List.singleton_append]

theorem addUnit_eq_ok_iff_withUnits {s : SourcedUnit} (hp : p.names.Nodup) :
    p.addUnit s.unit s.source = .ok q ↔
      s.unit.check = .ok () ∧ (p.withUnits [s]).names.Nodup ∧ q = p.withUnits [s] := by
  rw [addUnit_eq_ok_iff, names_withUnits]
  refine and_congr_right fun _ => ?_
  by_cases hn : s.unit.name = objectClass
  · simp [withUnits, hn, SourcedUnit.isOwn, SourcedUnit.isForeign, hp]
  · by_cases hl : s.unit.library = true
    · simp [withUnits, hn, hl, SourcedUnit.isOwn, SourcedUnit.isForeign, hp]
    · have hnodup : (p.names ++ [s.unit.name]).Nodup ↔ s.unit.name ∉ p.names := by
        rw [← List.concat_eq_append, List.nodup_concat]
        exact and_iff_left hp
      simp [withUnits, hn, hl, SourcedUnit.isOwn, SourcedUnit.isForeign, hnodup]

theorem foldlM_addUnit_eq_ok_iff (hp : p.names.Nodup) :
    units.foldlM (fun p s => p.addUnit s.unit s.source) p = .ok q ↔
      (∀ s ∈ units, s.unit.check = .ok ()) ∧ (p.withUnits units).names.Nodup ∧
        q = p.withUnits units := by
  induction units generalizing p with
  | nil => simp [withUnits, hp, pure, Except.pure, eq_comm]
  | cons s units ih =>
    rw [List.foldlM_cons, bind_eq_ok_iff, List.forall_mem_cons, ← withUnits_cons]
    constructor
    · rintro ⟨p', hstep, hrest⟩
      obtain ⟨hc, hnodup, rfl⟩ := (addUnit_eq_ok_iff_withUnits hp).mp hstep
      obtain ⟨hcs, hall, hq⟩ := (ih hnodup).mp hrest
      exact ⟨⟨hc, hcs⟩, hall, hq⟩
    · rintro ⟨⟨hc, hcs⟩, hall, hq⟩
      have hnodup : (p.withUnits [s]).names.Nodup := (names_withUnits ▸ hall).of_append_left
      exact ⟨_, (addUnit_eq_ok_iff_withUnits hp).mpr ⟨hc, hnodup, rfl⟩,
        (ih hnodup).mpr ⟨hcs, hall, hq⟩⟩

theorem foldlM_addLibrary_eq_ok_iff : libraries.foldlM addLibrary p = .ok q ↔
    (∀ u ∈ libraries, u.check = .ok ()) ∧ q = p.withLibraries libraries := by
  induction libraries generalizing p with
  | nil => simp [withLibraries, pure, Except.pure, eq_comm]
  | cons u libraries ih =>
    have hstep : (if u.name = objectClass then p else { p with libraries := p.libraries ++ [u] }) =
        p.withLibraries [u] := by
      by_cases hu : u.name = objectClass <;> simp [withLibraries, hu]
    have hcons : (p.withLibraries [u]).withLibraries libraries = p.withLibraries (u :: libraries) := by
      simp only [withLibraries, List.append_assoc, ← List.filter_append, List.singleton_append]
    rw [List.foldlM_cons, bind_eq_ok_iff, List.forall_mem_cons, ← hcons]
    simp only [addLibrary_eq_ok_iff, hstep, ih]
    constructor
    · rintro ⟨_, ⟨hc, rfl⟩, hcs, hq⟩
      exact ⟨⟨hc, hcs⟩, hq⟩
    · rintro ⟨⟨hc, hcs⟩, hq⟩
      exact ⟨_, ⟨hc, rfl⟩, hcs, hq⟩

/-- Units are accepted exactly if each is valid and the classes of the program are distinct. -/
theorem gather_eq_ok_iff : gather platform units libraries = .ok p ↔
    (∀ s ∈ units, s.unit.check = .ok ()) ∧ (∀ u ∈ libraries, u.check = .ok ()) ∧
      ((units.filter SourcedUnit.isOwn).map (·.unit.name)).Nodup ∧
      p = (withUnits { platform } units).withLibraries libraries := by
  unfold gather
  simp only [bind_eq_ok_iff, foldlM_addLibrary_eq_ok_iff,
    foldlM_addUnit_eq_ok_iff (p := { platform }) List.nodup_nil, names_withUnits]
  constructor
  · rintro ⟨_, ⟨hc, hnodup, rfl⟩, hcs, hq⟩
    exact ⟨hc, hcs, hnodup, hq⟩
  · rintro ⟨hc, hcs, hnodup, hq⟩
    exact ⟨_, ⟨hc, hnodup, rfl⟩, hcs, hq⟩

section Cycles

open Graph

/-- One class is directly below another just if its unit says so. -/
theorem directlyBelow_skeleton_iff {id above : NodeId} : p.skeleton.DirectlyBelow id above ↔
    ∃ u ∈ p.roster, ∃ e ∈ u.supertypeEdges, e.source = id ∧ e.target = above := by
  unfold DirectlyBelow
  rw [mem_parents]
  constructor
  · rintro ⟨e, he, _, hs, ht⟩
    obtain ⟨u, hu, he⟩ := mem_edges_skeleton.mp he
    exact ⟨u, hu, e, he, hs, ht⟩
  · rintro ⟨u, hu, e, he, hs, ht⟩
    have he := mem_edges_skeleton.mpr ⟨u, hu, he⟩
    exact ⟨e, he, (of_mem_edges_skeleton he).1, hs, ht⟩

theorem eq_class_of_onCycle {id : NodeId} (h : p.skeleton.OnCycle id) :
    id = .class_ id.className := by
  obtain ⟨_, habove, _⟩ := Relation.TransGen.head'_iff.mp h
  obtain ⟨u, _, e, he, rfl, _⟩ := directlyBelow_skeleton_iff.mp habove
  rw [(CompiledUnit.of_mem_supertypeEdges he).1]
  rfl

theorem build_eq_error_iff {e : BuildError} : p.build = .error e ↔
    ∃ name, p.skeleton.cycle? = some name ∧ e = .cyclicHierarchy name := by
  unfold build
  cases p.skeleton.cycle? with
  | none => simp
  | some name => simp [eq_comm]

/-- Valid units of distinct classes are gathered. The program fails to be built exactly if a way up
its hierarchy comes back to where it starts, and the class that is named is on such a way. -/
theorem build_eq_error_iff_onCycle (platform : Platform) (units : List SourcedUnit)
    (libraries : List CompiledUnit)
    (hvalid : ∀ u ∈ units.map (·.unit) ++ libraries, u.check = .ok ())
    (hdistinct : ((units.filter SourcedUnit.isOwn).map (·.unit.name)).Nodup) :
    ∃ p, gather platform units libraries = .ok p ∧
      (∀ id above, p.skeleton.DirectlyBelow id above ↔
        ∃ u ∈ p.roster, ∃ e ∈ u.supertypeEdges, e.source = id ∧ e.target = above) ∧
      ((∃ name, p.build = .error (.cyclicHierarchy name)) ↔ ∃ id, p.skeleton.OnCycle id) ∧
      (∀ name, p.build = .error (.cyclicHierarchy name) → p.skeleton.OnCycle (.class_ name)) ∧
      ((¬ ∃ id, p.skeleton.OnCycle id) → ∃ g, p.build = .ok g ∧
        ∀ id above, g.DirectlyBelow id above ↔ p.skeleton.DirectlyBelow id above) := by
  refine ⟨_, gather_eq_ok_iff.mpr ⟨fun s hs => hvalid _ ?_, fun u hu => hvalid u ?_, hdistinct, rfl⟩, ?_⟩
  · exact List.mem_append_left _ (List.mem_map_of_mem hs)
  · exact List.mem_append_right _ hu
  generalize (withUnits { platform } units).withLibraries libraries = p
  have hnamed : ∀ name, p.build = .error (.cyclicHierarchy name) →
      p.skeleton.OnCycle (.class_ name) := by
    intro name herror
    obtain ⟨_, hcycle, ⟨⟩⟩ := build_eq_error_iff.mp herror
    obtain ⟨id, hid, rfl⟩ := Option.map_eq_some_iff.mp hcycle
    have hon := p.wellFormed_skeleton.onCycle_of_cycleNode? hid
    exact eq_class_of_onCycle hon ▸ hon
  have hrejected : (∃ name, p.build = .error (.cyclicHierarchy name)) ↔
      ∃ id, p.skeleton.OnCycle id := by
    refine ⟨fun ⟨name, herror⟩ => ⟨_, hnamed name herror⟩, fun ⟨id, hon⟩ => ?_⟩
    cases hcycle : p.skeleton.cycle? with
    | some name => exact ⟨name, build_eq_error_iff.mpr ⟨name, hcycle, rfl⟩⟩
    | none =>
      obtain ⟨rank, hrank⟩ := p.wellFormed_skeleton.cycle?_eq_none_iff.mp hcycle
      exact (hrank.not_onCycle id hon).elim
  refine ⟨fun _ _ => directlyBelow_skeleton_iff, hrejected, hnamed, fun hnone => ?_⟩
  cases hbuild : p.build with
  | error e =>
    obtain ⟨name, _, rfl⟩ := build_eq_error_iff.mp hbuild
    exact (hnone (hrejected.mp ⟨name, hbuild⟩)).elim
  | ok g =>
    refine ⟨g, rfl, fun id above => ?_⟩
    unfold DirectlyBelow
    rw [parents_congr (linked_of_build hbuild).ladder]

/-- Two classes that extend each other, and a third one below them. -/
def loop : List SourcedUnit :=
  [⟨{ CompiledUnit.blank "a/Leaf" with superclass := some "a/Left" }, ⟨"in/Leaf.json"⟩⟩,
    ⟨{ CompiledUnit.blank "a/Left" with superclass := some "a/Right" }, ⟨"in/Left.json"⟩⟩,
    ⟨{ CompiledUnit.blank "a/Right" with superclass := some "a/Left" }, ⟨"in/Right.json"⟩⟩]

theorem build_eq_error_iff_onCycle_loop :
    (∀ u ∈ loop.map (·.unit) ++ [], u.check = .ok ()) ∧
    ((loop.filter SourcedUnit.isOwn).map (·.unit.name)).Nodup ∧
    ∃ p, gather {} loop [] = .ok p ∧ ∃ name, p.build = .error (.cyclicHierarchy name) ∧
      p.skeleton.OnCycle (.class_ name) := by
  have hvalid : ∀ u ∈ loop.map (·.unit) ++ [], u.check = .ok () := by decide +kernel
  have hdistinct : ((loop.filter SourcedUnit.isOwn).map (·.unit.name)).Nodup := by decide
  obtain ⟨p, hp, hbelow, hrejected, hnamed, _⟩ :=
    build_eq_error_iff_onCycle {} loop [] hvalid hdistinct
  obtain rfl := (gather_eq_ok_iff.mp hp).2.2.2
  have hleft := (hbelow (.class_ "a/Left") (.class_ "a/Right")).mpr (by decide +kernel)
  have hright := (hbelow (.class_ "a/Right") (.class_ "a/Left")).mpr (by decide +kernel)
  obtain ⟨name, herror⟩ := hrejected.mpr ⟨_, .tail (.single hleft) hright⟩
  exact ⟨hvalid, hdistinct, _, hp, name, herror, hnamed name herror⟩

end Cycles

end Program

end Winnow
