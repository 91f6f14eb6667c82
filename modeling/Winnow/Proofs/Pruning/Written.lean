import Winnow.Proofs.Output
import Winnow.Proofs.Program.Build
import Winnow.Proofs.Pruning.Emitted
import Winnow.Proofs.Unit.Codec

/-!
# What is written is read again

Both texts of a unit read back as the unit. Pruning takes from a unit and adds nothing, so what is
left of a well-formed unit is well formed, and the file that it is written to gives it back to
whoever reads units.
-/
namespace Winnow

open FileSystem

namespace Path

variable {p : Path} {l t : List Char}

theorem fileName_append (hp : p.text.toList = l ++ t) (ht : '/' ∉ t)
    (hname : ∀ y, IsName (y ++ t)) : ∃ y, p.fileName = some (String.ofList (y ++ t)) := by
  obtain ⟨init, y, hy⟩ := exists_splitOn_append l ht
  refine ⟨y, ?_⟩
  suffices hlast : p.components.getLast? = some (.name (String.ofList (y ++ t))) by
    rw [fileName, hlast]
  rw [← hp] at hy
  cases init with
  | nil =>
    have hnames : ∀ x ∈ p.text.toList.splitOn '/', IsName x := by
      rw [hy]
      exact fun x hx => List.mem_singleton.mp hx ▸ hname y
    rw [(components_of_isName hnames).2, hy]
    rfl
  | cons first init =>
    have hrest : (init ++ [y ++ t]).filterMap inner? =
        init.filterMap inner? ++ [.name (String.ofList (y ++ t))] := by
      rw [List.filterMap_append, List.filterMap_cons_some (inner?_of_isName (hname y))]
      rfl
    unfold components
    rw [hy, List.cons_append]
    dsimp only
    rw [hrest]
    split
    · rw [← List.cons_append, List.getLast?_concat]
    · split
      · rw [← List.cons_append, List.getLast?_concat]
      · rw [← List.append_assoc, List.getLast?_concat]

end Path

namespace OutputDirectory

variable {o : OutputDirectory} {u : CompiledUnit} {fs fs' : FileSystem} {path : Path}

/-- Whatever the class is called, its file is one of JSON. -/
theorem extension_path (o : OutputDirectory) (name : String) :
    (o.path name).extension = some "json" := by
  obtain ⟨l, hl⟩ := o.exists_text_path name
  obtain ⟨y, hy⟩ := Path.fileName_append hl (by decide) isName_ending
  have hreverse : (String.ofList (y ++ ".unit.json".toList)).toList.reverse =
      ['n', 'o', 's', 'j'] ++ '.' :: (y ++ ['.', 'u', 'n', 'i', 't']).reverse := by
    simp
  have hcut : Text.cut '.' (String.ofList (y ++ ".unit.json".toList)).toList.reverse =
      some (['n', 'o', 's', 'j'], (y ++ ['.', 'u', 'n', 'i', 't']).reverse) := by
    rw [hreverse]
    exact Text.cut_append (by decide)
  simp only [Path.extension, hy, hcut, bind, Option.bind]
  simp

/-- What is written of any unit spells the data of the unit. -/
theorem parseBytes_content (o : OutputDirectory) (u : CompiledUnit) :
    Json.parseBytes (o.content u).toUTF8 = .ok u.toData := by
  unfold content
  split
  · exact Json.parseBytes_pretty u.spellable_toData
  · exact Json.parseBytes_compact u.spellable_toData

/-- A well-formed unit that is written is read back. -/
theorem read_of_write (hw : o.write u fs = .ok path fs') (hu : u.check = .ok ()) :
    UnitFile.read fs' path = .ok u := by
  obtain ⟨_, _, hread⟩ := write_spec hw
  obtain rfl : o.path u.name = path := path_of_write hw
  obtain ⟨mtime, hentry⟩ := read_eq_ok_iff_entry.mp hread
  have hparse : UnitFile.parse (o.path u.name) (fs'.read (o.path u.name)) = .ok u.toData := by
    simp only [UnitFile.parse, o.extension_path, hread, o.parseBytes_content]
    rfl
  simp only [UnitFile.read, hentry, hparse, u.ofData_toData, hu, bind, Except.bind]
  rfl

end OutputDirectory

/-- A mask leaves a well-formed unit well formed, if it does not make it an interface of itself. -/
theorem KeepMask.check_apply {m : KeepMask} {u : CompiledUnit} (hu : u.check = .ok ())
    (hm : u.name ∉ m.interfaces) : (m.apply u).check = .ok () := by
  refine CompiledUnit.check_of_sublist hu rfl rfl hm ?_ ?_
  · rw [apply, List.map_map]
    exact List.filter_sublist.map _
  · rw [apply, List.map_map]
    exact List.filter_sublist.map _

namespace Program

open Graph

variable {p : Program} {g : Graph} {π : Pruning} {name : String} {mask : KeepMask}

/-- A mask names interfaces of the unit of its class only. -/
theorem interfaces_of_mask? (hp : p.Admissible) (hl : p.Linked π.graph)
    (hm : π.mask? name = some mask) :
    ∃ s ∈ p.units, s.unit.name = name ∧ mask.interfaces.Sublist s.unit.interfaces := by
  obtain ⟨c, hc, hm⟩ := Option.bind_eq_some_iff.mp hm
  obtain ⟨hc, hprog⟩ := Option.filter_eq_some_iff.mp hc
  obtain ⟨state, _, hm⟩ := Option.bind_eq_some_iff.mp hm
  obtain rfl := Option.some.inj hm
  obtain ⟨s, hs, rfl⟩ := List.mem_map.mp (hl.mem_names_of_isProgram hc hprog)
  obtain ⟨d, hd, hbare⟩ := hl.class?_unit hp hs
  obtain rfl := Option.some.inj (hc.symm.trans hd)
  refine ⟨s, hs, rfl, ?_⟩
  rw [show s.unit.interfaces = c.interfaces from (ClassNode.profile_of_bare_eq hbare).interfaces.symm]
  exact List.filter_sublist

/-- Every unit is told from either of its texts. What a mask that is computed in the graph of a
program leaves of a well-formed unit is well formed again, and it is read back from the file that
it is written to. -/
theorem written_reads_back (hp : p.Gathered) (hb : p.build = .ok g) (table : CounterTable)
    (omitEmptyShells : Bool) :
    (∀ (o : OutputDirectory) (u : CompiledUnit), ∃ d,
      Json.parseBytes (o.content u).toUTF8 = .ok d ∧ CompiledUnit.ofData d = .ok u) ∧
    ∀ (u : CompiledUnit) mask, u.check = .ok () →
      Pruning.mask? ⟨g, table, omitEmptyShells⟩ u.name = some mask →
      (mask.apply u).check = .ok () ∧
      ∀ (o : OutputDirectory) fs path fs', o.write (mask.apply u) fs = .ok path fs' →
        UnitFile.read fs' path = .ok (mask.apply u) := by
  refine ⟨fun o u => ⟨u.toData, o.parseBytes_content u, u.ofData_toData⟩, fun u mask hu hm => ?_⟩
  obtain ⟨s, hs, hname, hsub⟩ := interfaces_of_mask? hp.admissible (linked_of_build hb) hm
  have hcheck : (mask.apply u).check = .ok () := by
    refine KeepMask.check_apply hu fun hmem => ?_
    exact CompiledUnit.not_mem_interfaces (hp.admissible.units s hs).1 (hname ▸ hsub.mem hmem)
  exact ⟨hcheck, fun o fs path fs' hw => OutputDirectory.read_of_write hw hcheck⟩

theorem written_reads_back_shapes : ∃ g, shapes.build = .ok g ∧
    ∃ s ∈ shapes.units, ∃ mask, s.unit.check = .ok () ∧
      Pruning.mask? ⟨g, g.mark g.hierarchy (·.id = shapesMain), true⟩ s.unit.name = some mask ∧
      (mask.apply s.unit).check = .ok () ∧
      ∀ (o : OutputDirectory) fs path fs', o.write (mask.apply s.unit) fs = .ok path fs' →
        UnitFile.read fs' path = .ok (mask.apply s.unit) := by
  obtain ⟨g, hb⟩ := exists_build_shapes
  have hkept : ∃ s ∈ shapes.units,
      (Pruning.mask? ⟨g, g.mark g.hierarchy (·.id = shapesMain), true⟩ s.unit.name).isSome = true := by
    obtain ⟨_, rfl⟩ := build_eq_ok_iff.mp hb
    decide +kernel
  obtain ⟨s, hs, hmask⟩ := hkept
  obtain ⟨mask, hmask⟩ := Option.isSome_iff_exists.mp hmask
  have hcheck := (gathered_shapes.admissible.units s hs).1
  exact ⟨g, hb, s, hs, mask, hcheck, hmask,
    (written_reads_back gathered_shapes hb _ _).2 s.unit mask hcheck hmask⟩

end Program

end Winnow
