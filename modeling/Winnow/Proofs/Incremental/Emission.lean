import Mathlib.Data.List.Nodup
import Winnow.Incremental
import Winnow.Proofs.Output
import Winnow.Proofs.Program.Skeleton

/-!
# Incremental emission equals full emission

After an edit only the files of classes that come out differently are written or deleted. If the
output directory held what a full emission before the edit leaves, it then holds what a full
emission after it leaves, and no other file was touched.
-/
namespace Winnow

open FileSystem Disk

namespace Pruning

variable {p : Pruning} {name : String} {mask : KeepMask} {u : CompiledUnit}

/-- The mask of a class is listed under its name. -/
theorem get?_masks (hg : p.graph.WellFormed) (name : String) : p.masks.get? name = p.mask? name := by
  have hkeys : ((p.graph.programClasses.filterMap fun c =>
      (p.table.state? c.id).map fun state => (c.name, p.buildMask c state)).map (·.1)).Nodup := by
    have hnames := hg.nodup_classNames
    rw [List.Nodup, List.pairwise_map] at hnames ⊢
    refine List.pairwise_filterMap.mpr ((hnames.sublist List.filter_sublist).imp ?_)
    rintro c d hne _ hc _ hd heq
    obtain ⟨_, _, rfl⟩ := Option.map_eq_some_iff.mp hc
    obtain ⟨_, _, rfl⟩ := Option.map_eq_some_iff.mp hd
    exact hne heq
  refine Option.ext fun mask => ?_
  rw [← SortedMap.mem_toList_iff, masks, SortedMap.mem_toList_ofList hkeys, List.mem_filterMap]
  constructor
  · rintro ⟨c, hc, hmask⟩
    obtain ⟨state, hstate, heq⟩ := Option.map_eq_some_iff.mp hmask
    cases heq
    obtain ⟨hc, hprogram⟩ := List.mem_filter.mp hc
    have hclass : p.graph.class? c.name = some c :=
      Graph.class?_of_node? (hg.node?_of_mem (Graph.mem_classes.mp hc))
    simp [mask?, hclass, hprogram, hstate, Option.filter]
  · intro hmask
    obtain ⟨c, hc, hmask⟩ := Option.bind_eq_some_iff.mp hmask
    obtain ⟨hclass, hprogram⟩ := Option.filter_eq_some_iff.mp hc
    obtain ⟨state, hstate, heq⟩ := Option.bind_eq_some_iff.mp hmask
    obtain ⟨hnode, rfl⟩ := Graph.class?_eq_some hclass
    obtain rfl := Option.some.inj heq
    refine ⟨c, List.mem_filter.mpr ⟨Graph.mem_classes.mpr (Graph.mem_of_node? hnode), hprogram⟩, ?_⟩
    rw [hstate]
    rfl

/-- The units are those of the program classes, one for each. -/
structure Covers (p : Pruning) (units : List SourcedUnit) : Prop where
  wellFormed : p.graph.WellFormed
  distinct : (units.map (·.unit.name)).Nodup
  origin : ∀ s ∈ units, ∃ c, p.graph.class? s.unit.name = some c ∧ c.origin = .program s.source
  unit : ∀ c ∈ p.graph.programClasses, ∃ s ∈ units, s.unit.name = c.name

theorem Covers.eq_of_name {units : List SourcedUnit} (hc : p.Covers units) {s t : SourcedUnit}
    (hs : s ∈ units) (ht : t ∈ units) (h : s.unit.name = t.unit.name) : s = t :=
  List.inj_on_of_nodup_map hc.distinct hs ht h

theorem Covers.same {units : List SourcedUnit} (hc : p.Covers units) :
    ∀ u ∈ units.map (·.unit), ∀ v ∈ units.map (·.unit), u.name = v.name → u = v := by
  intro u hu v hv h
  obtain ⟨s, hs, rfl⟩ := List.mem_map.mp hu
  obtain ⟨t, ht, rfl⟩ := List.mem_map.mp hv
  rw [hc.eq_of_name hs ht h]

/-- A class that is written has a unit, and a file to read it from. -/
theorem Covers.exists_unit {units : List SourcedUnit} (hc : p.Covers units)
    (h : p.emits (p.mask? name) = true) :
    ∃ s ∈ units, s.unit.name = name ∧ p.graph.sourceOf name = some s.source := by
  obtain ⟨mask, hmask, _⟩ := emits_eq_true_iff.mp h
  obtain ⟨c, hclass, _⟩ := Option.bind_eq_some_iff.mp hmask
  obtain ⟨hclass, hprogram⟩ := Option.filter_eq_some_iff.mp hclass
  obtain ⟨hnode, rfl⟩ := Graph.class?_eq_some hclass
  obtain ⟨s, hs, hname⟩ := hc.unit c
    (List.mem_filter.mpr ⟨Graph.mem_classes.mpr (Graph.mem_of_node? hnode), hprogram⟩)
  obtain ⟨d, hd, horigin⟩ := hc.origin s hs
  refine ⟨s, hs, hname, ?_⟩
  rw [← hname, Graph.sourceOf, hd]
  simp [horigin]

end Pruning

namespace IncrementalRun

variable {old new : Pruning} {before after : List SourcedUnit} {modified : List CompiledUnit}
  {source : UnitSource} {plan : EmitPlan} {o : OutputDirectory} {fs fs' : FileSystem}
  {stats : EmitStats} {name : String}

/-- The same classes before and after an edit; the units that changed are listed, and the others
can be read again. -/
structure Revision (old new : Pruning) (before after : List SourcedUnit)
    (modified : List CompiledUnit) (source : UnitSource) : Prop where
  coversBefore : old.Covers before
  coversAfter : new.Covers after
  omits : old.omitEmptyShells = new.omitEmptyShells
  classes : ∀ name, name ∈ before.map (·.unit.name) ↔ name ∈ after.map (·.unit.name)
  internal : ∀ s ∈ after, IsInternalName s.unit.name
  listed : ∀ u ∈ modified, ∃ s ∈ after, s.unit = u
  unlisted : ∀ s ∈ after, s.unit ∉ modified → ∃ t ∈ before, t.unit = s.unit
  source : ∀ s ∈ after, ∀ u, source s.source = .ok u → u = s.unit

theorem Revision.writes_eq (hr : Revision old new before after modified source) :
    old.writes = new.writes := by
  funext mask
  rw [Pruning.writes, Pruning.writes, hr.omits]

theorem mem_staleFiles (hg : old.graph.WellFormed) (hg' : new.graph.WellFormed) :
    name ∈ staleFiles new old.masks modified ↔ new.emits (new.mask? name) = true ∧
      ((∃ u ∈ modified, u.name = name) ∨ old.mask? name ≠ new.mask? name) := by
  simp only [staleFiles, SortedSet.mem_ofList, List.mem_append, List.mem_map, List.mem_filter,
    new.get?_masks hg', old.get?_masks hg]
  constructor
  · rintro (⟨u, ⟨hu, hemits⟩, rfl⟩ | ⟨⟨_, mask⟩, ⟨hmem, hstale⟩, rfl⟩)
    · exact ⟨hemits, .inl ⟨u, hu, rfl⟩⟩
    · rw [SortedMap.mem_toList_iff, new.get?_masks hg'] at hmem
      simp only [Bool.and_eq_true, decide_eq_true_eq] at hstale
      refine ⟨Pruning.emits_eq_true_iff.mpr ⟨mask, hmem, hstale.1⟩, .inr ?_⟩
      rw [hmem]
      exact hstale.2
  · rintro ⟨hemits, ⟨u, hu, rfl⟩ | hne⟩
    · exact .inl ⟨u, ⟨hu, hemits⟩, rfl⟩
    · obtain ⟨mask, hmask, hwrites⟩ := Pruning.emits_eq_true_iff.mp hemits
      refine .inr ⟨(name, mask), ⟨?_, ?_⟩, rfl⟩
      · rw [SortedMap.mem_toList_iff, new.get?_masks hg', hmask]
      · rw [hmask] at hne
        simpa [hwrites] using hne

/-- The classes with files to write whose units have to be read again. -/
def unread (p : Pruning) (old : SortedMap String KeepMask) (modified : List CompiledUnit) :
    List String :=
  (staleFiles p old modified).toList.filter fun name => modified.all (·.name ≠ name)

theorem planEmit_eq_ok_iff {masks : SortedMap String KeepMask} :
    planEmit new masks modified source = .ok plan ↔
      ∃ loaded, ((unread new masks modified).filterMap new.graph.sourceOf).mapM source = .ok loaded ∧
        plan = {
          pruning := new
          refreshed := (staleFiles new masks modified).toList
          units := modified.filter (·.name ∈ (staleFiles new masks modified).toList) ++ loaded
          retracted := (masks.toList.filter fun (name, mask) =>
            new.writes mask && !new.emits (new.masks.get? name)).map (·.1) } := by
  unfold planEmit
  show (((unread new masks modified).filterMap new.graph.sourceOf).mapM source >>= _) = _ ↔ _
  cases ((unread new masks modified).filterMap new.graph.sourceOf).mapM source with
  | error e => simp [bind, Except.bind]
  | ok loaded => simp [bind, Except.bind, pure, Except.pure, eq_comm]

theorem nodup_retracted (h : planEmit new old.masks modified source = .ok plan) :
    plan.retracted.Nodup := by
  obtain ⟨_, _, rfl⟩ := planEmit_eq_ok_iff.mp h
  exact (List.filter_sublist.map _).nodup old.masks.nodup_keys

section Plan

variable (hr : Revision old new before after modified source)
  (h : planEmit new old.masks modified source = .ok plan)
include hr h

theorem mem_refreshed : name ∈ plan.refreshed ↔ new.emits (new.mask? name) = true ∧
    ((∃ u ∈ modified, u.name = name) ∨ old.mask? name ≠ new.mask? name) := by
  obtain ⟨_, _, rfl⟩ := planEmit_eq_ok_iff.mp h
  exact mem_staleFiles hr.coversBefore.wellFormed hr.coversAfter.wellFormed

/-- What the plan deletes was written before and is not written any more. -/
theorem mem_retracted : name ∈ plan.retracted ↔
    old.emits (old.mask? name) = true ∧ new.emits (new.mask? name) = false := by
  obtain ⟨_, _, rfl⟩ := planEmit_eq_ok_iff.mp h
  simp only [List.mem_map, List.mem_filter, Bool.and_eq_true, Bool.not_eq_true',
    new.get?_masks hr.coversAfter.wellFormed, ← hr.writes_eq, Pruning.emits_eq_true_iff (p := old)]
  constructor
  · rintro ⟨⟨_, mask⟩, ⟨hmem, hw, hnot⟩, rfl⟩
    rw [SortedMap.mem_toList_iff, old.get?_masks hr.coversBefore.wellFormed] at hmem
    exact ⟨⟨mask, hmem, hw⟩, hnot⟩
  · rintro ⟨⟨mask, hmask, hw⟩, hnot⟩
    refine ⟨(name, mask), ⟨?_, hw, hnot⟩, rfl⟩
    rw [SortedMap.mem_toList_iff, old.get?_masks hr.coversBefore.wellFormed, hmask]

/-- The units of the plan are those of the classes whose files are written. -/
theorem mem_planEmit_units :
    (∀ u ∈ plan.units, u.name ∈ plan.refreshed ∧ ∃ s ∈ after, s.unit = u) ∧
      ∀ name ∈ plan.refreshed, ∃ u ∈ plan.units, u.name = name := by
  obtain ⟨loaded, hload, rfl⟩ := planEmit_eq_ok_iff.mp h
  obtain ⟨hfrom, hto⟩ := mem_of_mapM_eq_ok hload
  have hunit : ∀ name ∈ (staleFiles new old.masks modified).toList,
      ∃ s ∈ after, s.unit.name = name ∧ new.graph.sourceOf name = some s.source := by
    intro name hname
    rw [SortedSet.mem_toList, mem_staleFiles hr.coversBefore.wellFormed hr.coversAfter.wellFormed]
      at hname
    exact hr.coversAfter.exists_unit hname.1
  dsimp only
  constructor
  · intro u hu
    rcases List.mem_append.mp hu with hu | hu
    · obtain ⟨hu, hname⟩ := List.mem_filter.mp hu
      exact ⟨of_decide_eq_true hname, hr.listed u hu⟩
    · obtain ⟨path, hpath, hsource⟩ := hfrom u hu
      obtain ⟨name, hname, hpath⟩ := List.mem_filterMap.mp hpath
      have hstale := (List.mem_filter.mp hname).1
      obtain ⟨s, hs, rfl, hs'⟩ := hunit name hstale
      obtain rfl := Option.some.inj (hs'.symm.trans hpath)
      obtain rfl := hr.source s hs u hsource
      exact ⟨hstale, s, hs, rfl⟩
  · intro name hname
    by_cases hmod : ∃ u ∈ modified, u.name = name
    · obtain ⟨u, hu, rfl⟩ := hmod
      exact ⟨u, List.mem_append_left _ (List.mem_filter.mpr ⟨hu, decide_eq_true hname⟩), rfl⟩
    · obtain ⟨s, hs, rfl, hs'⟩ := hunit name hname
      have hunread : s.unit.name ∈ unread new old.masks modified := by
        refine List.mem_filter.mpr ⟨hname, List.all_eq_true.mpr fun u hu => ?_⟩
        exact decide_eq_true fun heq => hmod ⟨u, hu, heq⟩
      obtain ⟨u, hu, hsource⟩ := hto s.source (List.mem_filterMap.mpr ⟨_, hunread, hs'⟩)
      obtain rfl := hr.source s hs u hsource
      exact ⟨s.unit, List.mem_append_right _ hu, rfl⟩

end Plan

section Names

variable (hr : Revision old new before after modified source)
include hr

theorem Revision.isInternalName : ∀ u ∈ after.map (·.unit), IsInternalName u.name := by
  intro u hu
  obtain ⟨s, hs, rfl⟩ := List.mem_map.mp hu
  exact hr.internal s hs

theorem Revision.isInternalName_before : ∀ u ∈ before.map (·.unit), IsInternalName u.name := by
  intro u hu
  obtain ⟨t, ht, rfl⟩ := List.mem_map.mp hu
  obtain ⟨s, hs, hname⟩ := List.mem_map.mp ((hr.classes _).mp (List.mem_map_of_mem ht))
  exact hname ▸ hr.internal s hs

/-- Classes that are written, before or after, have proper names. -/
theorem Revision.isPlainName_of_emits
    (h : old.emits (old.mask? name) = true ∨ new.emits (new.mask? name) = true) :
    OutputDirectory.IsPlainName name := by
  refine OutputDirectory.isPlainName_of_isInternalName ?_
  rcases h with h | h
  · obtain ⟨t, ht, rfl, _⟩ := hr.coversBefore.exists_unit h
    exact hr.isInternalName_before _ (List.mem_map_of_mem ht)
  · obtain ⟨s, hs, rfl, _⟩ := hr.coversAfter.exists_unit h
    exact hr.internal s hs

end Names

section CarryOut

variable (hr : Revision old new before after modified source)
  (h : planEmit new old.masks modified source = .ok plan)
  (hheld : o.Holds old (before.map (·.unit)) fs)
include hr h

/-- Nothing is both written and deleted. -/
theorem place_ne_of_retracted {name' : String} (hname : name ∈ plan.refreshed)
    (hname' : name' ∈ plan.retracted) : (o.path name).place ≠ (o.path name').place := by
  rw [mem_refreshed hr h] at hname
  rw [mem_retracted hr h] at hname'
  intro heq
  have := OutputDirectory.place_inj (hr.isPlainName_of_emits (.inr hname.1))
    (hr.isPlainName_of_emits (.inl hname'.1)) heq
  rw [this, hname'.2] at hname
  cases hname.1

theorem mem_of_place_mem (hn : IsInternalName name) (hmem : (o.path name).place ∈
    (plan.refreshed ++ plan.retracted).map fun name => (o.path name).place) :
    name ∈ plan.refreshed ∨ name ∈ plan.retracted := by
  obtain ⟨name', hname', heq⟩ := List.mem_map.mp hmem
  rw [List.mem_append] at hname'
  have hn' : OutputDirectory.IsPlainName name' := by
    rw [mem_refreshed hr h, mem_retracted hr h] at hname'
    exact hr.isPlainName_of_emits (hname'.elim (fun h => .inr h.1) fun h => .inl h.1)
  rwa [OutputDirectory.place_inj hn' (OutputDirectory.isPlainName_of_isInternalName hn) heq]
    at hname'

include hheld

/-- What carrying out the plan does to the files. -/
theorem carryOut_spec (hdone : EmitPlan.carryOut plan o fs = .ok stats fs') :
    Touches fs fs' ((plan.refreshed ++ plan.retracted).map fun name => (o.path name).place) ∧
      (∀ u ∈ plan.units, ∀ text, o.text? new u = some text →
        fs'.entryAt (o.path u.name).place = some (.file text.toUTF8 fs.now) ∧
          fs'.read (o.path u.name) = .ok text.toUTF8) ∧
      ∀ name ∈ plan.retracted, fs'.NoFile (o.path name).place := by
  obtain ⟨hunits, hnames⟩ := mem_planEmit_units hr h
  have hpruning : plan.pruning = new := by
    obtain ⟨_, _, rfl⟩ := planEmit_eq_ok_iff.mp h
    rfl
  obtain ⟨stats₁, fs₁, hemit, hdone⟩ := Disk.bind_eq_ok_iff.mp hdone
  obtain ⟨deleted, _, hretract, hdone⟩ := Disk.bind_eq_ok_iff.mp hdone
  cases hdone
  rw [hpruning] at hemit
  have hafter : ∀ u ∈ plan.units, u ∈ after.map (·.unit) := fun u hu =>
    let ⟨_, s, hs, hsu⟩ := hunits u hu
    List.mem_map.mpr ⟨s, hs, hsu⟩
  have hprepared : o.Prepared new plan.units fs := by
    refine ⟨fun u hu => OutputDirectory.isPlainName_of_isInternalName (hr.isInternalName u (hafter u hu)),
      fun u hu v hv => hr.coversAfter.same u (hafter u hu) v (hafter v hv), fun u hu hnone => ?_⟩
    obtain ⟨text, htext⟩ := Pruning.exists_text?_iff.mpr ((mem_refreshed hr h).mp (hunits u hu).1).1
    rw [htext] at hnone
    cases hnone
  obtain ⟨htouches, hsettled⟩ := OutputDirectory.foldlM_emitUnit_spec hprepared hemit
  have hplaces : ∀ q ∈ o.unitPlaces plan.units,
      ∃ name ∈ plan.refreshed, (o.path name).place = q := by
    intro q hq
    obtain ⟨u, hu, rfl⟩ := List.mem_map.mp hq
    exact ⟨u.name, (hunits u hu).1, rfl⟩
  have hread : ∀ name ∈ plan.retracted, ∃ content, fs₁.read (o.path name) = .ok content := by
    intro name hname
    obtain ⟨t, ht, rfl, _⟩ := hr.coversBefore.exists_unit ((mem_retracted hr h).mp hname).1
    obtain ⟨text, htext⟩ := Pruning.exists_text?_iff.mpr ((mem_retracted hr h).mp hname).1
    refine ⟨_, htouches.read (fun hmem => ?_) (hheld.stored t.unit (List.mem_map_of_mem ht) text htext)⟩
    obtain ⟨name, hname', heq⟩ := hplaces _ hmem
    exact place_ne_of_retracted hr h hname' hname heq
  obtain ⟨htouches', hgone, _⟩ := OutputDirectory.retract_spec
    (fun name hname => hr.isPlainName_of_emits (.inl ((mem_retracted hr h).mp hname).1))
    (nodup_retracted h) (fun name hname _ => hread name hname) hretract
  refine ⟨?_, fun u hu text htext => ?_, hgone⟩
  · refine (htouches.mono fun q hq => ?_).trans (htouches'.mono fun q hq => ?_)
    · obtain ⟨name, hname, rfl⟩ := hplaces q hq
      exact List.mem_map.mpr ⟨name, List.mem_append_left _ hname, rfl⟩
    · obtain ⟨name, hname, rfl⟩ := List.mem_map.mp hq
      exact List.mem_map.mpr ⟨name, List.mem_append_right _ hname, rfl⟩
  · have hother : (o.path u.name).place ∉ plan.retracted.map fun name => (o.path name).place := by
      intro hmem
      obtain ⟨name, hname, heq⟩ := List.mem_map.mp hmem
      exact place_ne_of_retracted hr h (hunits u hu).1 hname heq.symm
    obtain ⟨hentry, hread⟩ := (hsettled u hu).stored text htext
    rw [htouches.now] at hentry
    exact ⟨(htouches'.files _ hother _ _).mpr hentry, htouches'.read hother hread⟩

/-- The directory holds what the units come to after the edit. -/
theorem holds_carryOut (hdone : EmitPlan.carryOut plan o fs = .ok stats fs') :
    o.Holds new (after.map (·.unit)) fs' := by
  obtain ⟨htouches, hwritten, hgone⟩ := carryOut_spec hr h hheld hdone
  obtain ⟨hunits, hnames⟩ := mem_planEmit_units hr h
  constructor
  · intro u hu text htext
    obtain ⟨s, hs, rfl⟩ := List.mem_map.mp hu
    have hemits := Pruning.exists_text?_iff.mp ⟨text, htext⟩
    by_cases hfresh : s.unit.name ∈ plan.refreshed
    · obtain ⟨v, hv, hname⟩ := hnames _ hfresh
      obtain ⟨_, t, ht, rfl⟩ := hunits v hv
      obtain rfl := hr.coversAfter.eq_of_name ht hs hname
      exact (hwritten _ hv text htext).2
    · -- The unit and its mask are what they were, so the file is right already.
      have hsame : s.unit ∉ modified ∧ old.mask? s.unit.name = new.mask? s.unit.name := by
        rw [mem_refreshed hr h, not_and, not_or, not_not] at hfresh
        exact ⟨fun hmem => (hfresh hemits).1 ⟨s.unit, hmem, rfl⟩, (hfresh hemits).2⟩
      obtain ⟨t, ht, htu⟩ := hr.unlisted s hs hsame.1
      have hold : o.text? old t.unit = some text := by
        rw [htu, ← htext, OutputDirectory.text?, OutputDirectory.text?, hsame.2, hr.writes_eq]
      have hread := hheld.stored t.unit (List.mem_map_of_mem ht) text hold
      rw [htu] at hread
      refine htouches.read (fun hmem => ?_) hread
      rcases mem_of_place_mem hr h (hr.internal s hs) hmem with hname | hname
      · exact hfresh hname
      · rw [mem_retracted hr h, hemits] at hname
        cases hname.2
  · intro place content mtime hroot hfile
    rw [OutputDirectory.mem_writtenPlaces]
    by_cases hmem : place ∈ (plan.refreshed ++ plan.retracted).map fun name => (o.path name).place
    · obtain ⟨name, hname, rfl⟩ := List.mem_map.mp hmem
      rcases List.mem_append.mp hname with hname | hname
      · obtain ⟨s, hs, rfl, _⟩ := hr.coversAfter.exists_unit ((mem_refreshed hr h).mp hname).1
        exact ⟨s.unit, List.mem_map_of_mem hs,
          Pruning.exists_text?_iff.mpr ((mem_refreshed hr h).mp hname).1, rfl⟩
      · exact (hgone name hname content mtime hfile).elim
    · -- A file that was not touched is one of before, and its class is still written.
      have hplace := hheld.only place content mtime hroot ((htouches.files _ hmem _ _).mp hfile)
      obtain ⟨_, ht, htext, rfl⟩ := OutputDirectory.mem_writtenPlaces.mp hplace
      obtain ⟨t, _, rfl⟩ := List.mem_map.mp ht
      have hemits : new.emits (new.mask? t.unit.name) = true := by
        rw [← Bool.not_eq_false]
        refine fun hnot => hmem (List.mem_map_of_mem (f := fun name => (o.path name).place) ?_)
        exact List.mem_append_right _
          ((mem_retracted hr h).mpr ⟨Pruning.exists_text?_iff.mp htext, hnot⟩)
      obtain ⟨s, hs, hname, _⟩ := hr.coversAfter.exists_unit hemits
      refine ⟨s.unit, List.mem_map_of_mem hs, Pruning.exists_text?_iff.mpr ?_, by rw [hname]⟩
      rw [hname, hemits]

end CarryOut

/-- An edit changes some units of a program, the graph and what is kept. If the output directory
holds what a full emission leaves before the edit, then bringing it up to date makes it hold what
a full emission leaves after it. No file is touched but those of classes that are listed as
written or as written before and not any more, and a class is on neither list if neither its unit
nor its mask changed. -/
theorem carryOut_eq_emitAll (hr : Revision old new before after modified source)
    (hplan : planEmit new old.masks modified source = .ok plan)
    (hheld : o.Holds old (before.map (·.unit)) fs)
    (hdone : EmitPlan.carryOut plan o fs = .ok stats fs') :
    (∀ fs₀ stats₀ fs₁, o.IsBare fs₀ → o.emitAll old (before.map (·.unit)) fs₀ = .ok stats₀ fs₁ →
      o.Holds old (before.map (·.unit)) fs₁) ∧
    (∀ fs₀ stats₀ fs₁, o.IsBare fs₀ → o.emitAll new (after.map (·.unit)) fs₀ = .ok stats₀ fs₁ →
      o.Holds new (after.map (·.unit)) fs₁) ∧
    o.Holds new (after.map (·.unit)) fs' ∧
    Touches fs fs' ((plan.refreshed ++ plan.retracted).map fun name => (o.path name).place) ∧
    (∀ s ∈ after, s.unit ∉ modified → old.mask? s.unit.name = new.mask? s.unit.name →
      s.unit.name ∉ plan.refreshed ∧ s.unit.name ∉ plan.retracted ∧
      ∀ content mtime, fs'.entryAt (o.path s.unit.name).place = some (.file content mtime) ↔
        fs.entryAt (o.path s.unit.name).place = some (.file content mtime)) ∧
    (∀ name ∈ plan.refreshed, ∃ s ∈ after, s.unit.name = name ∧
      ∃ text, o.text? new s.unit = some text ∧
        fs'.entryAt (o.path name).place = some (.file text.toUTF8 fs.now)) ∧
    ∀ name, name ∈ plan.retracted ↔
      (∃ s ∈ before, s.unit.name = name ∧ (o.text? old s.unit).isSome = true) ∧
        ∀ s ∈ after, s.unit.name = name → o.text? new s.unit = none := by
  obtain ⟨htouches, hwritten, hgone⟩ := carryOut_spec hr hplan hheld hdone
  obtain ⟨hunits, hnames⟩ := mem_planEmit_units hr hplan
  refine ⟨fun fs₀ stats₀ fs₁ hbare => OutputDirectory.holds_emitAll hr.isInternalName_before
      hr.coversBefore.same hbare, fun fs₀ stats₀ fs₁ hbare =>
      OutputDirectory.holds_emitAll hr.isInternalName hr.coversAfter.same hbare,
    holds_carryOut hr hplan hheld hdone, htouches, fun s hs hmod hmask => ?_, fun name hname => ?_,
    fun name => ?_⟩
  · have hfresh : s.unit.name ∉ plan.refreshed := by
      rw [mem_refreshed hr hplan]
      rintro ⟨_, ⟨u, hu, hname⟩ | hne⟩
      · obtain ⟨t, ht, rfl⟩ := hr.listed u hu
        obtain rfl := hr.coversAfter.eq_of_name ht hs hname
        exact hmod hu
      · exact hne hmask
    have hkept : s.unit.name ∉ plan.retracted := by
      rw [mem_retracted hr hplan, hmask, Pruning.emits, Pruning.emits, hr.writes_eq]
      rintro ⟨hyes, hno⟩
      rw [hno] at hyes
      cases hyes
    refine ⟨hfresh, hkept, htouches.files _ fun hmem => ?_⟩
    exact (mem_of_place_mem hr hplan (hr.internal s hs) hmem).elim hfresh hkept
  · obtain ⟨u, hu, rfl⟩ := hnames name hname
    obtain ⟨_, s, hs, rfl⟩ := hunits u hu
    obtain ⟨text, htext⟩ := Pruning.exists_text?_iff.mpr ((mem_refreshed hr hplan).mp hname).1
    exact ⟨s, hs, rfl, text, htext, (hwritten _ hu text htext).1⟩
  · rw [mem_retracted hr hplan]
    constructor
    · rintro ⟨hyes, hno⟩
      obtain ⟨s, hs, rfl, _⟩ := hr.coversBefore.exists_unit hyes
      refine ⟨⟨s, hs, rfl, Option.isSome_iff_exists.mpr (Pruning.exists_text?_iff.mpr hyes)⟩, ?_⟩
      intro t _ hname
      refine Option.eq_none_iff_forall_ne_some.mpr fun text htext => ?_
      have hyes' := Pruning.exists_text?_iff.mp ⟨text, htext⟩
      rw [hname, hno] at hyes'
      cases hyes'
    · rintro ⟨⟨s, hs, rfl, htext⟩, hnone⟩
      refine ⟨Pruning.exists_text?_iff.mp (Option.isSome_iff_exists.mp htext), ?_⟩
      rw [← Bool.not_eq_true]
      intro hyes
      obtain ⟨t, ht, hname, _⟩ := hr.coversAfter.exists_unit hyes
      have hnot := hnone t ht hname
      rw [← hname] at hyes
      obtain ⟨text, htext⟩ := Pruning.exists_text?_iff.mpr hyes
      rw [hnot] at htext
      cases htext

section Parts

def partsEdited (later : Bool) : CompiledUnit :=
  { CompiledUnit.blank "a/Edited" with
    methods := [if later then (Method.blank "run" "()V").extend (.new "a/Same")
      else .blank "run" "()V"] }

/-- Four classes, one of them with another body later. -/
def parts (later : Bool) : List SourcedUnit := [
  ⟨.blank "a/Dropped", ⟨"in/Dropped.json"⟩⟩,
  ⟨.blank "a/Reduced", ⟨"in/Reduced.json"⟩⟩,
  ⟨partsEdited later, ⟨"in/Edited.json"⟩⟩,
  ⟨.blank "a/Same", ⟨"in/Same.json"⟩⟩]

/-- All classes are kept in full, and later one is dropped and another reduced to a shell. -/
def partsTable (later : Bool) : CounterTable where
  retention := .ofList ((if later then [] else [(.class_ "a/Dropped", ⟨1, .full⟩)]) ++ [
    (.class_ "a/Reduced", ⟨1, if later then .shell else .full⟩),
    (.class_ "a/Edited", ⟨1, .full⟩),
    (.method ⟨"a/Edited", "run", "()V"⟩, ⟨1, .full⟩),
    (.class_ "a/Same", ⟨1, .full⟩)])

def partsPruning (later : Bool) : Pruning where
  graph := (Program.mk {} (parts later) []).declared
  table := partsTable later

def partsSource : UnitSource := fun path =>
  match (parts true).find? (·.source = path) with
  | some s => .ok s.unit
  | none => .error (.unsupportedFormat path)

def partsOutput : OutputDirectory := ⟨⟨"out"⟩, true⟩

/-- The files of the first emission. -/
def partsDisk : FileSystem :=
  outcome (partsOutput.emit (partsPruning false) ((parts false).map (·.unit))) {}

theorem covers_parts (later : Bool) : (partsPruning later).Covers (parts later) := by
  have hunits : ∀ later, ∀ s ∈ parts later,
      ((partsPruning later).graph.class? s.unit.name).map (·.origin) = some (.program s.source) := by
    decide +kernel
  have hclasses : ∀ later, ∀ c ∈ (partsPruning later).graph.programClasses,
      ∃ s ∈ parts later, s.unit.name = c.name := by
    decide +kernel
  have hnames : ∀ later, ((parts later).map (·.unit.name)).Nodup := by decide
  exact ⟨Program.wellFormed_declared _, hnames later,
    fun s hs => Option.map_eq_some_iff.mp (hunits later s hs), hclasses later⟩

theorem revision_parts : Revision (partsPruning false) (partsPruning true) (parts false) (parts true)
    [partsEdited true] partsSource where
  coversBefore := covers_parts false
  coversAfter := covers_parts true
  omits := rfl
  classes := fun _ => Iff.rfl
  internal := by decide +kernel
  listed := by decide +kernel
  unlisted := by decide +kernel
  source := by
    have hfind : ∀ s ∈ parts true, (parts true).find? (·.source = s.source) = some s := by
      decide +kernel
    intro s hs u hu
    rw [partsSource, hfind s hs] at hu
    exact (Except.ok.inj hu).symm

/-- The plan for the parts. -/
def partsPlan : EmitPlan where
  pruning := partsPruning true
  refreshed := (staleFiles (partsPruning true) (partsPruning false).masks [partsEdited true]).toList
  units := [partsEdited true].filter
    (·.name ∈ (staleFiles (partsPruning true) (partsPruning false).masks [partsEdited true]).toList) ++
      [.blank "a/Reduced"]
  retracted := ((partsPruning false).masks.toList.filter fun (name, mask) =>
    (partsPruning true).writes mask &&
      !(partsPruning true).emits ((partsPruning true).masks.get? name)).map (·.1)

theorem planEmit_parts : planEmit (partsPruning true) (partsPruning false).masks [partsEdited true]
    partsSource = .ok partsPlan := by
  have hunread : (unread (partsPruning true) (partsPruning false).masks
      [partsEdited true]).filterMap (partsPruning true).graph.sourceOf = [⟨"in/Reduced.json"⟩] := by
    decide +kernel
  refine planEmit_eq_ok_iff.mpr ⟨[.blank "a/Reduced"], ?_, rfl⟩
  rw [hunread]
  rfl

theorem holds_parts :
    partsOutput.Holds (partsPruning false) ((parts false).map (·.unit)) partsDisk := by
  have hok : succeeds (partsOutput.emit (partsPruning false) ((parts false).map (·.unit))) {} = true := by
    decide +kernel
  obtain ⟨stats, hemit⟩ := exists_ok_of_succeeds hok
  refine OutputDirectory.holds_emit revision_parts.isInternalName_before
    revision_parts.coversBefore.same (fun place _ content mtime hfile => ?_) hemit
  rw [entryAt] at hfile
  split at hfile <;> cases hfile

theorem carryOut_eq_emitAll_parts :
    Revision (partsPruning false) (partsPruning true) (parts false) (parts true)
      [partsEdited true] partsSource ∧
    planEmit (partsPruning true) (partsPruning false).masks [partsEdited true] partsSource =
      .ok partsPlan ∧
    partsOutput.Holds (partsPruning false) ((parts false).map (·.unit)) partsDisk ∧
    partsPlan.refreshed = ["a/Edited", "a/Reduced"] ∧ partsPlan.retracted = ["a/Dropped"] ∧
    ∃ stats fs, EmitPlan.carryOut partsPlan partsOutput partsDisk = .ok stats fs ∧
      partsOutput.Holds (partsPruning true) ((parts true).map (·.unit)) fs := by
  have hok : succeeds (EmitPlan.carryOut partsPlan partsOutput) partsDisk = true := by decide +kernel
  obtain ⟨stats, hdone⟩ := exists_ok_of_succeeds hok
  refine ⟨revision_parts, planEmit_parts, holds_parts, by decide +kernel, by decide +kernel, stats, _,
    hdone, ?_⟩
  exact (carryOut_eq_emitAll revision_parts planEmit_parts holds_parts hdone).2.2.1

end Parts

end IncrementalRun

end Winnow
