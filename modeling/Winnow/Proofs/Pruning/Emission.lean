import Mathlib.Data.List.Nodup
import Winnow.Proofs.Output
import Winnow.Proofs.Program.Build
import Winnow.Proofs.Pruning.Emitted
import Winnow.Proofs.UnitFile

/-!
# What a full emission leaves

The units that are emitted are written, the files of the other units of the program are deleted,
and the files of classes that are not in the program are swept away. Whatever unit files lay in
the output directory before, each of them is left to exactly one of the three. So the directory
comes to hold the emitted units and nothing else, and the counts tell what was done.

The path of the directory has to lead there from the start. A path that leads through a directory
yet to be made does not, and the first unit that is written opens it too late for the units before.
-/
namespace Winnow

open FileSystem

namespace FileSystem

variable {fs : FileSystem} {place names : Place}

/-- A name that a directory can list. -/
def IsFileName (s : String) : Prop := Path.IsName s.toList ∧ '/' ∉ s.toList ∧ '\x00' ∉ s.toList

instance (s : String) : Decidable (IsFileName s) := inferInstanceAs (Decidable (_ ∧ _ ∧ _))

theorem IsFileName.isSegment {s : String} (h : IsFileName s) : Path.IsSegment s := ⟨h.1, h.2.1⟩

/-- What lies below the place has names and lies in directories. -/
def IsTreeBelow (fs : FileSystem) (place : Place) : Prop :=
  ∀ key ∈ fs.entries.keys, place.holds key = true →
    (∀ s ∈ key.drop place.length, IsFileName s) ∧
      (key = place ∨ fs.entryAt key.dropLast = some .directory)

instance (fs : FileSystem) (place : Place) : Decidable (fs.IsTreeBelow place) :=
  inferInstanceAs (Decidable (∀ key ∈ fs.entries.keys, _))

theorem mem_keys_of_entryAt (hne : place ≠ []) (h : fs.entryAt place ≠ none) :
    place ∈ fs.entries.keys := by
  obtain ⟨e, he⟩ := Option.ne_none_iff_exists'.mp h
  rw [entryAt, if_neg hne] at he
  exact List.mem_map.mpr ⟨(place, e), SortedMap.mem_toList_iff.mpr he, rfl⟩

theorem entryAt_of_hasFile (h : fs.hasFile place = true) : fs.entryAt place ≠ none := by
  obtain ⟨content, mtime, hentry⟩ := hasFile_iff.mp h
  rw [hentry]
  nofun

theorem mem_keys_of_hasFile (h : fs.hasFile place = true) : place ∈ fs.entries.keys := by
  refine mem_keys_of_entryAt ?_ (entryAt_of_hasFile h)
  rintro rfl
  cases h

theorem IsTreeBelow.spec (ht : fs.IsTreeBelow place) (hne : names ≠ [])
    (hheld : place.holds (place ++ names) = true) (h : fs.entryAt (place ++ names) ≠ none) :
    (∀ s ∈ names, IsFileName s) ∧ fs.entryAt (place ++ names.dropLast) = some .directory := by
  have hkey := mem_keys_of_entryAt (List.append_ne_nil_of_right_ne_nil place hne) h
  obtain ⟨hnames, hparent⟩ := ht _ hkey hheld
  rw [List.drop_left] at hnames
  rw [List.dropLast_append_of_ne_nil hne] at hparent
  exact ⟨hnames, hparent.resolve_left fun heq => hne (List.append_right_eq_self.mp heq)⟩

/-- One gets to whatever lies below the place. -/
theorem IsTreeBelow.walks (ht : fs.IsTreeBelow place)
    (hheld : place.holds (place ++ names) = true) (h : fs.entryAt (place ++ names) ≠ none) :
    fs.Walks place (names.map Component.name) := by
  induction names using List.reverseRecOn with
  | nil => trivial
  | append_singleton names s ih =>
    obtain ⟨_, hparent⟩ := ht.spec (List.concat_ne_nil s names) hheld h
    rw [List.dropLast_concat] at hparent
    rw [List.map_append, walks_append, OutputDirectory.foldl_step_names]
    exact ⟨ih (Place.holds_of_holds_append hheld) (by rw [hparent]; nofun), hparent, trivial⟩

theorem nodup_filesBelow (fs : FileSystem) (p : Path) : (fs.filesBelow p).Nodup := by
  unfold filesBelow
  split
  next place e _ _ =>
    have hkeys := fs.entries.nodup_keys
    rw [List.Nodup, List.pairwise_map] at hkeys
    refine List.pairwise_filterMap.mpr (hkeys.imp fun {a b} hne names ha names' hb heq => hne ?_)
    obtain ⟨key, _ | _⟩ := a
    · cases ha
    obtain ⟨key', _ | _⟩ := b
    · cases hb
    obtain ⟨hkey, hnames⟩ := Option.ite_none_right_eq_some.mp ha
    obtain ⟨hkey', hnames'⟩ := Option.ite_none_right_eq_some.mp hb
    rw [← Option.some.inj hnames, ← Option.some.inj hnames'] at heq
    show key = key'
    rw [← List.prefix_iff_eq_append.mp (Place.prefix_of_holds hkey), heq,
      List.prefix_iff_eq_append.mp (Place.prefix_of_holds hkey')]
  next => exact List.nodup_nil

end FileSystem

namespace OutputDirectory

variable {o : OutputDirectory} {p : Pruning} {u : CompiledUnit} {units : List CompiledUnit}
  {fs fs' : FileSystem} {name : String} {names : Place} {stats stats' : EmitStats}

section Names

/-- The last of the names is that of a unit file. -/
def isUnitFile (names : Place) : Bool := names.getLast?.any (Text.endsWith · ".unit.json")

theorem isUnitFile_segments (name : String) : isUnitFile (segments name) = true := by
  obtain ⟨init, y, hy⟩ := Path.exists_splitOn_append (t := ".unit.json".toList) name.toList (by decide)
  rw [isUnitFile, segments, String.toList_append, hy, List.map_append, List.map_singleton,
    List.getLast?_concat, Option.any_some, Text.endsWith, List.isSuffixOf_iff_suffix]
  exact ⟨y, String.toList_ofList.symm⟩

theorem isUnitFile_ne_nil (h : isUnitFile names = true) : names ≠ [] := by
  rintro rfl
  cases h

/-- Names without slashes are told from their text. -/
theorem segments_of_joined (hslash : ∀ s ∈ names, '/' ∉ s.toList)
    (h : Text.joined "/" names = name ++ ".unit.json") : segments name = names := by
  have hsplit : (Text.joined "/" names).toList.splitOn '/' = names.map String.toList := by
    rw [Text.joined, String.toList_intercalate]
    refine List.splitOn_intercalate '/' (fun l hl => ?_) (by simpa using ne_nil_of_joined h)
    obtain ⟨s, hs, rfl⟩ := List.mem_map.mp hl
    exact hslash s hs
  rw [segments, ← h, hsplit, List.map_map]
  have hid : String.ofList ∘ String.toList = id := funext fun s => String.ofList_toList
  rw [hid, List.map_id]

theorem exists_joined (h : isUnitFile names = true) :
    ∃ l, (Text.joined "/" names).toList = l ++ ".unit.json".toList := by
  rw [Text.joined, String.toList_intercalate]
  induction names with
  | nil => cases h
  | cons s names ih =>
    cases names with
    | nil =>
      obtain ⟨l, hl⟩ := List.isSuffixOf_iff_suffix.mp (show Text.endsWith s ".unit.json" = true from h)
      exact ⟨l, by simpa using hl.symm⟩
    | cons t names =>
      obtain ⟨l, hl⟩ := ih h
      rw [List.map_cons, List.map_cons, List.intercalate_cons_cons, ← List.map_cons, hl]
      exact ⟨_, (List.append_assoc _ _ _).symm⟩

/-- Every unit file is that of some class. -/
theorem exists_segments (hslash : ∀ s ∈ names, '/' ∉ s.toList) (h : isUnitFile names = true) :
    ∃ name, segments name = names := by
  obtain ⟨l, hl⟩ := exists_joined h
  refine ⟨String.ofList l, segments_of_joined hslash (String.toList_inj.mp ?_)⟩
  rw [hl, String.toList_append]
  exact congrArg (· ++ _) String.toList_ofList.symm

theorem exists_mem_splitOn {l : List Char} {c : Char} (h : c ∈ l) (hc : c ≠ '/') :
    ∃ x ∈ l.splitOn '/', c ∈ x := by
  induction l with
  | nil => cases h
  | cons d l ih =>
    rw [List.splitOn_cons_eq_if_modifyHead]
    split
    next hd =>
      have hne : c ≠ d := fun heq => hc (heq.trans (eq_of_beq hd))
      obtain ⟨x, hx, hmem⟩ := ih (List.mem_of_ne_of_mem hne h)
      exact ⟨x, List.mem_cons_of_mem _ hx, hmem⟩
    next =>
      obtain ⟨first, rest, hsplit⟩ := List.exists_cons_of_ne_nil (List.splitOn_ne_nil '/' l)
      rw [hsplit] at ih ⊢
      rcases List.mem_cons.mp h with rfl | h
      · exact ⟨c :: first, List.mem_cons_self, List.mem_cons_self⟩
      obtain ⟨x, hx, hmem⟩ := ih h
      rcases List.mem_cons.mp hx with rfl | hx
      · exact ⟨d :: x, List.mem_cons_self, List.mem_cons_of_mem d hmem⟩
      · exact ⟨x, List.mem_cons_of_mem _ hx, hmem⟩

theorem mem_text_path {c : Char} (h : c ∈ (o.path name).text.toList) :
    c ∈ o.root.text.toList ∨ c = '/' ∨ c ∈ (name ++ ".unit.json").toList := by
  have h : c ∈ (o.root.join ⟨name ++ ".unit.json"⟩).text.toList := h
  unfold Path.join at h
  split at h
  · exact .inr (.inr h)
  · split at h
    · rw [String.toList_append] at h
      exact (List.mem_append.mp h).imp_right .inr
    · rw [String.toList_append, String.toList_append, List.append_assoc] at h
      exact (List.mem_append.mp h).imp_right fun h => (List.mem_cons.mp h)

theorem nul_not_mem_path (hroot : '\x00' ∉ o.root.text.toList)
    (h : ∀ s ∈ segments name, IsFileName s) : '\x00' ∉ (o.path name).text.toList := by
  intro hmem
  rcases mem_text_path hmem with hmem | hmem | hmem
  · exact hroot hmem
  · revert hmem
    decide
  · obtain ⟨x, hx, hmem⟩ := exists_mem_splitOn hmem (by decide)
    refine (h _ (List.mem_map_of_mem hx)).2.2 ?_
    rwa [String.toList_ofList]

theorem isPlainName_iff : IsPlainName name ↔ ∀ s ∈ segments name, Path.IsSegment s := by
  rw [segments, List.forall_mem_map]
  refine forall₂_congr fun x hx => ?_
  rw [Path.IsSegment, String.toList_ofList]
  exact (and_iff_left (Path.not_mem_of_mem_splitOn hx)).symm

theorem holds_segments (hn : IsPlainName name) :
    o.root.place.holds (o.root.place ++ segments name) = true :=
  Place.holds_append.mpr fun s hs => (isPlainName_iff.mp hn s (List.mem_of_mem_head? hs)).ne

end Names

section Directory

/-- The path leads to the directory, if anything lies below it. -/
def IsReached (o : OutputDirectory) (fs : FileSystem) : Prop :=
  fs.entry o.root = .ok .directory ∨
    ∀ key ∈ fs.entries.keys, o.root.place.holds key = true → key = o.root.place

instance (o : OutputDirectory) (fs : FileSystem) : Decidable (o.IsReached fs) :=
  inferInstanceAs (Decidable (_ ∨ ∀ key ∈ fs.entries.keys, _))

theorem IsReached.entry_root (hr : o.IsReached fs) (hne : names ≠ [])
    (hheld : o.root.place.holds (o.root.place ++ names) = true)
    (h : fs.hasFile (o.root.place ++ names) = true) : fs.entry o.root = .ok .directory := by
  refine hr.resolve_right fun hnone => hne ?_
  exact List.append_right_eq_self.mp (hnone _ (mem_keys_of_hasFile h) hheld)

/-- The names that lead from the directory to the unit files in it and below it. -/
def outputs (o : OutputDirectory) (fs : FileSystem) : List Place :=
  ((fs.entries.keys.filter fun key => o.root.place.holds key && fs.hasFile key).map
    (·.drop o.root.place.length)).filter isUnitFile

theorem mem_outputs : names ∈ o.outputs fs ↔
    o.root.place.holds (o.root.place ++ names) = true ∧
      fs.hasFile (o.root.place ++ names) = true ∧ isUnitFile names = true := by
  simp only [outputs, List.mem_filter, List.mem_map, Bool.and_eq_true, ← and_assoc]
  refine and_congr_left fun hunit => ?_
  constructor
  · rintro ⟨key, ⟨⟨_, hheld⟩, hfile⟩, rfl⟩
    rw [List.prefix_iff_eq_append.mp (Place.prefix_of_holds hheld)]
    exact ⟨hheld, hfile⟩
  · rintro ⟨hheld, hfile⟩
    exact ⟨_, ⟨⟨mem_keys_of_hasFile hfile, hheld⟩, hfile⟩, List.drop_left⟩

theorem nodup_outputs (o : OutputDirectory) (fs : FileSystem) : (o.outputs fs).Nodup := by
  refine (List.Nodup.map_on ?_ (fs.entries.nodup_keys.filter _)).filter _
  intro key hkey key' hkey' heq
  simp only [List.mem_filter, Bool.and_eq_true] at hkey hkey'
  rw [← List.prefix_iff_eq_append.mp (Place.prefix_of_holds hkey.2.1), heq,
    List.prefix_iff_eq_append.mp (Place.prefix_of_holds hkey'.2.1)]

/-- A unit file below a directory that is reached can be read by the path of its class. -/
theorem isOpen_of_isTreeBelow (ht : fs.IsTreeBelow o.root.place) (hr : o.IsReached fs)
    (hn : IsPlainName name) : o.IsOpen fs name := by
  intro hfile
  obtain ⟨content, mtime, hentry⟩ := hasFile_iff.mp hfile
  rw [place_path hn] at hfile
  have hne := isUnitFile_ne_nil (isUnitFile_segments name)
  have hheld := holds_segments (o := o) hn
  obtain ⟨hloc, _⟩ := entry_eq_directory_iff.mp (hr.entry_root hne hheld hfile)
  obtain ⟨_, hnul, hwalks, _⟩ := locate_eq_ok_iff.mp hloc
  have hthere := entryAt_of_hasFile hfile
  have hpath : fs.Walks [] (o.path name).components := by
    rw [path, Path.components_join hn, walks_append]
    have hrest := ht.walks hheld hthere
    rw [segments, List.map_map] at hrest
    exact ⟨hwalks, hrest⟩
  exact ⟨content, read_eq_ok_iff.mpr ⟨locate_eq_ok_iff.mpr ⟨o.text_path_ne name,
    nul_not_mem_path hnul (ht.spec hne hheld hthere).1, hpath, rfl⟩, ⟨mtime, hentry⟩,
    o.not_endsWith_path name⟩⟩

/-- The classes of unit files are listed, if the path leads to the directory. -/
theorem mem_existing (hd : fs.entry o.root = .ok .directory)
    (hnames : ∀ s ∈ segments name, IsFileName s)
    (hfile : fs.hasFile (o.root.place ++ segments name) = true) : name ∈ o.existing fs := by
  refine mem_existing_iff.mpr ⟨segments name, ?_, joined_segments name⟩
  rw [filesBelow_eq hd, List.mem_map]
  obtain ⟨content, mtime, hentry⟩ := hasFile_iff.mp hfile
  have hne := List.append_ne_nil_of_right_ne_nil o.root.place
    (isUnitFile_ne_nil (isUnitFile_segments name))
  rw [entryAt, if_neg hne] at hentry
  refine ⟨(_, .file content mtime), SortedMap.mem_toList_iff.mpr ?_, List.drop_left⟩
  rw [SortedMap.get?_filter, hentry, Option.filter_some, if_pos]
  refine isFileBelow_iff.mpr ⟨Place.holds_append.mpr fun s hs => ?_, content, mtime, rfl⟩
  exact (hnames s (List.mem_of_mem_head? hs)).isSegment.ne

/-- Where no name has a slash in it, no class is listed twice. -/
theorem nodup_existing (h : ∀ names name, o.root.place.holds (o.root.place ++ names) = true →
    fs.hasFile (o.root.place ++ names) = true → Text.joined "/" names = name ++ ".unit.json" →
    segments name = names) :
    (o.existing fs).Nodup := by
  rw [existing, (List.mergeSort_perm _ _).nodup_iff]
  have hnames : ∀ names ∈ fs.filesBelow o.root, ∀ name,
      Text.withoutEnding ".unit.json" (Text.joined "/" names) = some name → segments name = names := by
    intro names hmem name hname
    have hjoined := withoutEnding_eq_some_iff.mp hname
    exact h names name (exists_of_mem_filesBelow hmem).1
      (hasFile_of_mem_filesBelow hmem (ne_nil_of_joined hjoined)) hjoined
  refine List.pairwise_filterMap.mpr ((fs.nodup_filesBelow o.root).imp_of_mem ?_)
  rintro names names' hmem hmem' hne name hname name' hname' rfl
  exact hne ((hnames names hmem name hname).symm.trans (hnames names' hmem' name hname'))

end Directory

section Counts

/-- Every unit is counted as written, or as deleted if it had a file and as omitted if it has a
mask. -/
theorem foldlM_emitUnit_counts (hp : o.Prepared p units fs) (hd : (units.map (·.name)).Nodup)
    (h : units.foldlM (o.emitUnit p) stats fs = .ok stats' fs') :
    stats' = {
      written := stats.written + units.countP fun u => (o.text? p u).isSome
      deleted := stats.deleted + units.countP fun u =>
        (o.text? p u).isNone && fs.hasFile (o.path u.name).place
      omitted := stats.omitted + units.countP fun u =>
        (o.text? p u).isNone && (p.mask? u.name).isSome } := by
  induction units generalizing fs stats with
  | nil =>
    cases h
    rfl
  | cons u units ih =>
    rw [List.foldlM_cons] at h
    obtain ⟨stats₁, fs₁, hunit, hrest⟩ := Disk.bind_eq_ok_iff.mp h
    obtain ⟨hnot, hd⟩ := List.nodup_cons.mp hd
    obtain ⟨htouches, _⟩ := settled_of_emitUnit (hp.isOpen u List.mem_cons_self) hunit
    have hsame : units.countP (fun v => (o.text? p v).isNone && fs₁.hasFile (o.path v.name).place) =
        units.countP fun v => (o.text? p v).isNone && fs.hasFile (o.path v.name).place := by
      refine List.countP_congr fun v hv => ?_
      rw [htouches.hasFile]
      intro hmem
      have hplain := hp.plain v (List.mem_cons_of_mem u hv)
      refine hnot (List.mem_map.mpr ⟨v, hv, ?_⟩)
      exact place_inj hplain (hp.plain u List.mem_cons_self) (List.mem_singleton.mp hmem)
    rw [ih (hp.step hunit) hd hrest, hsame]
    rcases emitUnit_cases hunit with ⟨text, htext, rfl, _⟩ | ⟨hnone, deleted, hdelete, rfl⟩
    · simp [htext, Nat.add_assoc, Nat.add_comm]
    · obtain ⟨_, rfl⟩ := (hp.isOpen u List.mem_cons_self hnone).delete hdelete
      cases hfile : fs.hasFile (o.path u.name).place <;> cases hmask : p.mask? u.name <;>
        simp [hnone, hfile, hmask, Nat.add_assoc, Nat.add_comm]

end Counts

section Full

/-- The units are those of the program, and the directory is in order. -/
structure IsTidy (o : OutputDirectory) (p : Pruning) (units : List CompiledUnit)
    (fs : FileSystem) : Prop where
  plain : ∀ u ∈ units, IsPlainName u.name
  distinct : (units.map (·.name)).Nodup
  program : ∀ name, (p.graph.class? name).any (·.isProgram) = true ↔ name ∈ units.map (·.name)
  tree : fs.IsTreeBelow o.root.place
  reached : o.IsReached fs

variable {fs₁ : FileSystem} (hi : o.IsTidy p units fs)
include hi

theorem IsTidy.prepared : o.Prepared p units fs :=
  ⟨hi.plain, fun _ hu _ hv => List.inj_on_of_nodup_map hi.distinct hu hv,
    fun u hu _ => isOpen_of_isTreeBelow hi.tree hi.reached (hi.plain u hu)⟩

theorem IsTidy.mem_unitPlaces_iff :
    o.root.place ++ segments name ∈ o.unitPlaces units ↔ name ∈ units.map (·.name) := by
  simp only [unitPlaces, List.mem_map]
  constructor
  · rintro ⟨u, hu, heq⟩
    rw [place_path (hi.plain u hu)] at heq
    exact ⟨u, hu, segments_inj (List.append_cancel_left heq)⟩
  · rintro ⟨u, hu, rfl⟩
    exact ⟨u, hu, place_path (hi.plain u hu)⟩

theorem IsTidy.nodup_segments (f : CompiledUnit → Bool) :
    ((units.filter f).map (segments ·.name)).Nodup := by
  have hnames : ((units.filter f).map (·.name)).Nodup :=
    hi.distinct.sublist (List.filter_sublist.map _)
  have hsegments := hnames.map (f := segments) fun _ _ => segments_inj
  rwa [List.map_map] at hsegments

theorem IsTidy.isFileName (hheld : o.root.place.holds (o.root.place ++ names) = true)
    (h : fs.hasFile (o.root.place ++ names) = true) (hne : names ≠ []) :
    ∀ s ∈ names, IsFileName s := (hi.tree.spec hne hheld (entryAt_of_hasFile h)).1

theorem IsTidy.isPlainName (h : segments name ∈ o.outputs fs) : IsPlainName name := by
  obtain ⟨hheld, hfile, hunit⟩ := mem_outputs.mp h
  exact isPlainName_iff.mpr fun s hs =>
    (hi.isFileName hheld hfile (isUnitFile_ne_nil hunit) s hs).isSegment

/-- Every unit file is that of a class. -/
theorem IsTidy.exists_segments (h : names ∈ o.outputs fs) : ∃ name, segments name = names := by
  obtain ⟨hheld, hfile, hunit⟩ := mem_outputs.mp h
  exact OutputDirectory.exists_segments
    (fun s hs => (hi.isFileName hheld hfile (isUnitFile_ne_nil hunit) s hs).2.1) hunit

/-- Writing the units makes no file whose class could be mistaken. -/
theorem IsTidy.segments_of_joined (htouches : Touches fs fs₁ (o.unitPlaces units))
    (hheld : o.root.place.holds (o.root.place ++ names) = true)
    (hfile : fs₁.hasFile (o.root.place ++ names) = true)
    (hjoined : Text.joined "/" names = name ++ ".unit.json") : segments name = names := by
  by_cases hmem : o.root.place ++ names ∈ o.unitPlaces units
  · obtain ⟨u, hu, heq⟩ := List.mem_map.mp hmem
    rw [place_path (hi.plain u hu)] at heq
    obtain rfl := List.append_cancel_left heq
    rw [joined_segments] at hjoined
    rw [(String.append_left_inj _).mp hjoined]
  · rw [htouches.hasFile hmem] at hfile
    exact OutputDirectory.segments_of_joined
      (fun s hs => (hi.isFileName hheld hfile (ne_nil_of_joined hjoined) s hs).2.1) hjoined

/-- What is swept away after the units are written is what was there for other classes before. -/
theorem IsTidy.mem_stale (htouches : Touches fs fs₁ (o.unitPlaces units)) (name : String) :
    name ∈ (o.existing fs₁).filter (fun name => !((p.graph.class? name).any (·.isProgram))) ↔
      segments name ∈ o.outputs fs ∧ name ∉ units.map (·.name) := by
  rw [List.mem_filter, Bool.not_eq_true', ← Bool.not_eq_true, hi.program]
  refine and_congr_left fun hnot => ?_
  rw [mem_outputs, ← htouches.hasFile (mt hi.mem_unitPlaces_iff.mp hnot)]
  constructor
  · intro hname
    obtain ⟨names, hheld, hfile, hjoined⟩ := exists_of_mem_existing hname
    obtain rfl := hi.segments_of_joined htouches hheld hfile hjoined
    exact ⟨hheld, hfile, isUnitFile_segments name⟩
  · rintro ⟨hheld, hfile, hunit⟩
    have hbefore := hfile
    rw [htouches.hasFile (mt hi.mem_unitPlaces_iff.mp hnot)] at hbefore
    have hne := isUnitFile_ne_nil hunit
    exact mem_existing (htouches.entry_directory (hi.reached.entry_root hne hheld hbefore))
      (hi.isFileName hheld hbefore hne) hfile

/-- The units are settled, the files of stale classes are gone, and nothing else has changed. -/
structure Swept (o : OutputDirectory) (p : Pruning) (units : List CompiledUnit)
    (fs fs' : FileSystem) (stale : List String) : Prop where
  distinct : stale.Nodup
  mem_stale : ∀ name, name ∈ stale ↔ segments name ∈ o.outputs fs ∧ name ∉ units.map (·.name)
  touches : Touches fs fs' (o.unitPlaces units ++ stale.map fun name => (o.path name).place)
  settled : ∀ u ∈ units, o.Settled p fs' u
  gone : ∀ name ∈ stale, fs'.NoFile (o.path name).place

theorem IsTidy.exists_swept (h : o.emitAll p units fs = .ok stats fs') :
    ∃ stale, o.Swept p units fs fs' stale ∧ stats = {
      written := units.countP fun u => (o.text? p u).isSome
      deleted := (units.countP fun u =>
        (o.text? p u).isNone && fs.hasFile (o.path u.name).place) + stale.length
      omitted := units.countP fun u => (o.text? p u).isNone && (p.mask? u.name).isSome } := by
  obtain ⟨stats₁, fs₁, hemit, h⟩ := Disk.bind_eq_ok_iff.mp h
  obtain ⟨_, _, hget, h⟩ := Disk.bind_eq_ok_iff.mp h
  cases hget
  obtain ⟨deleted, _, hretract, h⟩ := Disk.bind_eq_ok_iff.mp h
  cases h
  obtain ⟨htouches, hsettled⟩ := foldlM_emitUnit_spec hi.prepared hemit
  have hstale := hi.mem_stale htouches
  have hdistinct := (nodup_existing fun _ _ => hi.segments_of_joined htouches).filter
    fun name => !((p.graph.class? name).any (·.isProgram))
  generalize (o.existing fs₁).filter (fun name => !((p.graph.class? name).any (·.isProgram))) = stale
    at hretract hstale hdistinct
  have hplain : ∀ name ∈ stale, IsPlainName name := fun name hname =>
    hi.isPlainName ((hstale name).mp hname).1
  have hother : ∀ name ∈ stale, (o.path name).place ∉ o.unitPlaces units := by
    intro name hname
    rw [place_path (hplain name hname), hi.mem_unitPlaces_iff]
    exact ((hstale name).mp hname).2
  obtain ⟨htouches', hgone, rfl⟩ := retract_spec hplain hdistinct (fun name hname =>
    (isOpen_of_isTreeBelow hi.tree hi.reached (hplain name hname)).touches htouches
      (hother name hname)) hretract
  refine ⟨stale, ⟨hdistinct, hstale, ?_, fun u hu => ?_, hgone⟩, ?_⟩
  · exact (htouches.mono fun _ => List.mem_append_left _).trans
      (htouches'.mono fun _ => List.mem_append_right _)
  · refine (hsettled u hu).touches htouches' fun hmem => ?_
    obtain ⟨name, hname, heq⟩ := List.mem_map.mp hmem
    refine hother name hname ?_
    rw [heq]
    exact List.mem_map_of_mem hu
  · rw [foldlM_emitUnit_counts hi.prepared hi.distinct hemit]
    have hall : (stale.countP fun name => fs₁.hasFile (o.path name).place) = stale.length := by
      refine List.countP_eq_length.mpr fun name hname => ?_
      rw [htouches.hasFile (hother name hname), place_path (hplain name hname)]
      exact (mem_outputs.mp ((hstale name).mp hname).1).2.1
    simp [hall]

variable {stale : List String} (hs : o.Swept p units fs fs' stale)
include hs

/-- The unit files that are left are those of the units that are written. -/
theorem IsTidy.mem_outputs_iff : names ∈ o.outputs fs' ↔
    ∃ u ∈ units, (o.text? p u).isSome = true ∧ segments u.name = names := by
  constructor
  · intro h
    obtain ⟨hheld, hfile, hunit⟩ := mem_outputs.mp h
    by_cases hmem : o.root.place ++ names ∈
        o.unitPlaces units ++ stale.map fun name => (o.path name).place
    · rcases List.mem_append.mp hmem with hmem | hmem
      · obtain ⟨u, hu, heq⟩ := List.mem_map.mp hmem
        refine ⟨u, hu, ?_, List.append_cancel_left ((place_path (hi.plain u hu)).symm.trans heq)⟩
        rw [← Option.not_isNone, Bool.not_eq_true', ← Bool.not_eq_true, Option.isNone_iff_eq_none]
        intro hnone
        rw [← heq, noFile_iff.mp ((hs.settled u hu).absent hnone)] at hfile
        cases hfile
      · obtain ⟨name, hname, heq⟩ := List.mem_map.mp hmem
        rw [← heq, noFile_iff.mp (hs.gone name hname)] at hfile
        cases hfile
    · -- A file that was not touched was there before, and its class would be stale.
      rw [hs.touches.hasFile hmem] at hfile
      have hbefore := mem_outputs.mpr ⟨hheld, hfile, hunit⟩
      obtain ⟨name, rfl⟩ := hi.exists_segments hbefore
      refine absurd ?_ hmem
      by_cases hname : name ∈ units.map (·.name)
      · exact List.mem_append_left _ (hi.mem_unitPlaces_iff.mpr hname)
      · rw [← place_path (hi.isPlainName hbefore)]
        exact List.mem_append_right _ (List.mem_map_of_mem ((hs.mem_stale name).mpr ⟨hbefore, hname⟩))
  · rintro ⟨u, hu, htext, rfl⟩
    obtain ⟨text, htext⟩ := Option.isSome_iff_exists.mp htext
    refine mem_outputs.mpr ⟨holds_segments (hi.plain u hu), ?_, isUnitFile_segments u.name⟩
    rw [← place_path (hi.plain u hu), hasFile_iff]
    exact ⟨_, _, ((hs.settled u hu).stored text htext).1⟩

theorem IsTidy.outputs_perm : (o.outputs fs').Perm
    ((units.filter fun u => (o.text? p u).isSome).map (segments ·.name)) := by
  refine (List.perm_ext_iff_of_nodup (o.nodup_outputs fs') (hi.nodup_segments _)).mpr fun names => ?_
  simp only [hi.mem_outputs_iff hs, List.mem_map, List.mem_filter, and_assoc]

/-- The unit files that are gone are those of units that are not written and of stale classes. -/
theorem IsTidy.gone_perm : ((o.outputs fs).filter (· ∉ o.outputs fs')).Perm
    ((units.filter fun u => (o.text? p u).isNone && fs.hasFile (o.path u.name).place).map
      (segments ·.name) ++ stale.map segments) := by
  refine (List.perm_ext_iff_of_nodup ((o.nodup_outputs fs).filter _) ?_).mpr fun names => ?_
  · refine List.nodup_append.mpr ⟨hi.nodup_segments _, hs.distinct.map fun _ _ => segments_inj, ?_⟩
    intro _ hunit _ hstale heq
    obtain ⟨u, hu, rfl⟩ := List.mem_map.mp hunit
    obtain ⟨name, hname, rfl⟩ := List.mem_map.mp hstale
    refine ((hs.mem_stale name).mp hname).2 ?_
    rw [← segments_inj heq]
    exact List.mem_map_of_mem (List.mem_of_mem_filter hu)
  simp only [List.mem_filter, List.mem_append, List.mem_map, decide_eq_true_eq,
    hi.mem_outputs_iff hs, Bool.and_eq_true, Option.isNone_iff_eq_none]
  constructor
  · rintro ⟨hbefore, hnot⟩
    obtain ⟨name, rfl⟩ := hi.exists_segments hbefore
    by_cases hname : name ∈ units.map (·.name)
    · obtain ⟨u, hu, rfl⟩ := List.mem_map.mp hname
      refine .inl ⟨u, ⟨hu, ?_, ?_⟩, rfl⟩
      · exact Option.not_isSome_iff_eq_none.mp fun htext => hnot ⟨u, hu, htext, rfl⟩
      · rw [place_path (hi.plain u hu)]
        exact (mem_outputs.mp hbefore).2.1
    · exact .inr ⟨name, (hs.mem_stale name).mpr ⟨hbefore, hname⟩, rfl⟩
  · rintro (⟨u, ⟨hu, hnone, hfile⟩, rfl⟩ | ⟨name, hname, rfl⟩)
    · rw [place_path (hi.plain u hu)] at hfile
      refine ⟨mem_outputs.mpr ⟨holds_segments (hi.plain u hu), hfile,
        isUnitFile_segments u.name⟩, ?_⟩
      rintro ⟨v, hv, htext, heq⟩
      rw [List.inj_on_of_nodup_map hi.distinct hv hu (segments_inj heq), hnone] at htext
      cases htext
    · obtain ⟨hbefore, hnot⟩ := (hs.mem_stale name).mp hname
      refine ⟨hbefore, ?_⟩
      rintro ⟨v, hv, _, heq⟩
      exact hnot (segments_inj heq ▸ List.mem_map_of_mem hv)

end Full

/-- A full emission succeeds if its two parts do. -/
theorem exists_emitAll {fs₁ : FileSystem} {classes stale : List String}
    (hemit : o.emit p units fs = .ok stats fs₁)
    (hlisted : ((fs₁.filesBelow o.root).filterMap fun names =>
      Text.withoutEnding ".unit.json" (Text.joined "/" names)) = classes)
    (hsorted : classes.Pairwise (· ≤ ·))
    (hstale : classes.filter (fun name => !((p.graph.class? name).any (·.isProgram))) = stale)
    (hswept : Disk.succeeds (o.retract stale) fs₁ = true) :
    ∃ stats', o.emitAll p units fs = .ok stats' (Disk.outcome (o.retract stale) fs₁) := by
  have hexisting : o.existing fs₁ = classes := by
    rw [existing, hlisted]
    exact List.mergeSort_of_pairwise (hsorted.imp fun h => decide_eq_true h)
  obtain ⟨deleted, hretract⟩ := Disk.exists_ok_of_succeeds hswept
  refine ⟨{ stats with deleted := stats.deleted + deleted }, ?_⟩
  refine Disk.bind_eq_ok_iff.mpr ⟨stats, fs₁, hemit, Disk.bind_eq_ok_iff.mpr ⟨fs₁, fs₁, rfl, ?_⟩⟩
  rw [hexisting, hstale]
  exact Disk.bind_eq_ok_iff.mpr ⟨deleted, _, hretract, rfl⟩

end OutputDirectory

namespace Program

variable {p : Program} {g : Graph} {o : OutputDirectory} {fs fs' : FileSystem} {stats : EmitStats}

theorem Linked.any_isProgram_iff (hl : p.Linked g) (hp : p.Admissible) (name : String) :
    (g.class? name).any (·.isProgram) = true ↔ name ∈ (p.units.map (·.unit)).map (·.name) := by
  rw [Option.any_eq_true, List.map_map]
  constructor
  · rintro ⟨c, hc, hprog⟩
    exact hl.mem_names_of_isProgram hc hprog
  · intro hname
    obtain ⟨s, hs, rfl⟩ := List.mem_map.mp hname
    obtain ⟨c, hc, hbare⟩ := hl.class?_unit hp hs
    exact ⟨c, hc, (ClassNode.profile_of_bare_eq hbare).isProgram⟩

/-- After a full emission the unit files of the output directory are those of the classes whose
masks are emitted, each with what its mask leaves of the unit. These files are counted as written,
the unit files of before that are gone as deleted, and the empty shells that are kept and left out
as omitted. -/
theorem emitAll_leaves_emitted (hp : p.Gathered) (hb : p.build = .ok g)
    (hn : ∀ s ∈ p.units, IsInternalName s.unit.name) (table : CounterTable) (omitEmptyShells : Bool)
    (htree : fs.IsTreeBelow o.root.place) (hreached : o.IsReached fs)
    (h : o.emitAll ⟨g, table, omitEmptyShells⟩ (p.units.map (·.unit)) fs = .ok stats fs') :
    let π : Pruning := ⟨g, table, omitEmptyShells⟩
    (o.outputs fs').Perm ((p.units.filter fun s => π.emits (π.mask? s.unit.name)).map fun s =>
      OutputDirectory.segments s.unit.name) ∧
    (∀ s ∈ p.units, ∀ mask, π.mask? s.unit.name = some mask → π.writes mask = true →
      fs'.read (o.path s.unit.name) = .ok (o.content (mask.apply s.unit)).toUTF8) ∧
    stats.written = (o.outputs fs').length ∧
    stats.deleted = ((o.outputs fs).filter (· ∉ o.outputs fs')).length ∧
    stats.omitted = (p.units.filter fun s =>
      (π.mask? s.unit.name).any fun mask => omitEmptyShells && mask.isEmptyShell).length := by
  intro π
  have hadmissible := hp.admissible
  have hi : o.IsTidy π (p.units.map (·.unit)) fs := by
    refine ⟨fun u hu => ?_, ?_, (linked_of_build hb).any_isProgram_iff hadmissible, htree, hreached⟩
    · obtain ⟨s, hs, rfl⟩ := List.mem_map.mp hu
      exact OutputDirectory.isPlainName_of_isInternalName (hn s hs)
    · rw [List.map_map]
      exact hadmissible.distinct
  obtain ⟨stale, hs, rfl⟩ := hi.exists_swept h
  have houtputs := hi.outputs_perm hs
  have hgone := hi.gone_perm hs
  simp only [Pruning.isSome_text?] at houtputs ⊢
  refine ⟨?_, fun s hunit mask hmask hw => ?_, ?_, ?_, ?_⟩
  · rwa [List.filter_map, List.map_map] at houtputs
  · have htext : o.text? π s.unit = some (o.content (mask.apply s.unit)) := by
      rw [OutputDirectory.text?, hmask, Option.filter_some, if_pos hw]
      rfl
    exact ((hs.settled s.unit (List.mem_map_of_mem hunit)).stored _ htext).2
  · rw [houtputs.length_eq, List.length_map, ← List.countP_eq_length_filter]
  · rw [hgone.length_eq, List.length_append, List.length_map, List.length_map,
      List.countP_eq_length_filter]
  · rw [List.countP_map, ← List.countP_eq_length_filter]
    refine List.countP_congr fun s _ => ?_
    cases hmask : π.mask? s.unit.name <;> simp [OutputDirectory.text?, hmask, Pruning.writes, π]

section Trio

/-- One class with a method that takes an instance of another, and a third by itself. -/
def trio : Program where
  platform := {}
  units := [⟨.blank "a/Dropped", ⟨"in/Dropped.json"⟩⟩,
    ⟨{ CompiledUnit.blank "a/Kept" with methods := [.blank "main" "(La/Shell;)V"] },
      ⟨"in/Kept.json"⟩⟩,
    ⟨.blank "a/Shell", ⟨"in/Shell.json"⟩⟩]
  libraries := []

theorem gathered_trio : trio.Gathered :=
  gathered_iff.mpr ⟨by decide +kernel, by decide +kernel, by decide⟩

def trioGraph : Graph := trio.complete trio.skeleton

theorem build_trio : trio.build = .ok trioGraph :=
  build_of_edges_eq_nil (by decide +kernel)

/-- What is kept for the method, without empty shells. -/
def trioPruning : Pruning :=
  ⟨trioGraph, trioGraph.mark trioGraph.hierarchy fun n => n.profile.memberName = some "main", true⟩

/-- A directory with a file of the class by itself, one of a class that is no more, and another. -/
def trioDisk : FileSystem where
  entries := .ofList [
    (["out"], .directory),
    (["out", "a"], .directory),
    (["out", "a", "Dropped.unit.json"], .file ⟨#[]⟩ 1),
    (["out", "notes.txt"], .file ⟨#[]⟩ 1),
    (["out", "old.unit.json"], .file ⟨#[]⟩ 1)]

/-- The directory by its path, direct or by way of one that is not there. -/
def trioOutput (direct : Bool) : OutputDirectory := ⟨⟨if direct then "out" else "gone/../out"⟩, true⟩

/-- The files when the units are written. -/
def trioWritten (direct : Bool) : FileSystem :=
  Disk.outcome ((trioOutput direct).emit trioPruning (trio.units.map (·.unit))) trioDisk

/-- The classes that have files then. -/
def trioClasses (direct : Bool) : List String :=
  if direct then ["a/Kept", "old"] else ["a/Dropped", "a/Kept", "old"]

theorem emitAll_trio (direct : Bool) : ∃ stats,
    (trioOutput direct).emitAll trioPruning (trio.units.map (·.unit)) trioDisk =
      .ok stats (Disk.outcome ((trioOutput direct).retract ["old"]) (trioWritten direct)) := by
  have hrun : ∀ direct,
      Disk.succeeds ((trioOutput direct).emit trioPruning (trio.units.map (·.unit))) trioDisk = true ∧
      (((trioWritten direct).filesBelow (trioOutput direct).root).filterMap fun names =>
        Text.withoutEnding ".unit.json" (Text.joined "/" names)) = trioClasses direct ∧
      (trioClasses direct).Pairwise (· ≤ ·) ∧
      (trioClasses direct).filter (fun name =>
        !((trioPruning.graph.class? name).any (·.isProgram))) = ["old"] ∧
      Disk.succeeds ((trioOutput direct).retract ["old"]) (trioWritten direct) = true := by
    decide +kernel
  obtain ⟨hemit, hlisted, hsorted, hstale, hswept⟩ := hrun direct
  obtain ⟨stats, hemit⟩ := Disk.exists_ok_of_succeeds hemit
  exact OutputDirectory.exists_emitAll hemit hlisted hsorted hstale hswept

theorem emitAll_leaves_emitted_trio :
    trio.Gathered ∧ trio.build = .ok trioGraph ∧ (∀ s ∈ trio.units, IsInternalName s.unit.name) ∧
    trioDisk.IsTreeBelow (trioOutput true).root.place ∧ (trioOutput true).IsReached trioDisk ∧
    ∃ stats fs, (trioOutput true).emitAll trioPruning (trio.units.map (·.unit)) trioDisk =
        .ok stats fs ∧
      (trioOutput true).outputs fs = [["a", "Kept.unit.json"]] ∧ stats = ⟨1, 2, 1⟩ := by
  have hfacts : (∀ s ∈ trio.units, IsInternalName s.unit.name) ∧
      trioDisk.IsTreeBelow (trioOutput true).root.place ∧ (trioOutput true).IsReached trioDisk ∧
      ((trio.units.filter fun s => trioPruning.emits (trioPruning.mask? s.unit.name)).map fun s =>
        OutputDirectory.segments s.unit.name) = [["a", "Kept.unit.json"]] ∧
      (((trioOutput true).outputs trioDisk).filter (· ∉ [["a", "Kept.unit.json"]])).length = 2 ∧
      (trio.units.filter fun s =>
        (trioPruning.mask? s.unit.name).any fun mask => true && mask.isEmptyShell).length = 1 := by
    decide +kernel
  obtain ⟨hnames, htree, hreached, hemitted, hgone, hshells⟩ := hfacts
  obtain ⟨⟨written, deleted, omitted⟩, h⟩ := emitAll_trio true
  refine ⟨gathered_trio, build_trio, hnames, htree, hreached, _, _, h, ?_⟩
  obtain ⟨houtputs, _, hwritten, hdeleted, homitted⟩ :=
    emitAll_leaves_emitted gathered_trio build_trio hnames _ _ htree hreached h
  have houtputs := List.perm_singleton.mp (houtputs.trans (.of_eq hemitted))
  rw [houtputs] at hwritten hdeleted
  obtain rfl : written = 1 := hwritten
  obtain rfl : deleted = 2 := hdeleted.trans hgone
  obtain rfl : omitted = 1 := homitted.trans hshells
  exact ⟨houtputs, rfl⟩

/-- On a path by way of a directory that is not there the old file of a class outlives the
emission, because there is nothing to delete until the first unit is written. -/
theorem dropped_left_behind :
    trio.Gathered ∧ trio.build = .ok trioGraph ∧ (∀ s ∈ trio.units, IsInternalName s.unit.name) ∧
    trioDisk.IsTreeBelow (trioOutput false).root.place ∧
    trioPruning.emits (trioPruning.mask? "a/Dropped") = false ∧
    ∃ stats fs, (trioOutput false).emitAll trioPruning (trio.units.map (·.unit)) trioDisk =
        .ok stats fs ∧
      ["a", "Dropped.unit.json"] ∈ (trioOutput false).outputs fs := by
  obtain ⟨stats, h⟩ := emitAll_trio false
  have hfacts : (∀ s ∈ trio.units, IsInternalName s.unit.name) ∧
      trioDisk.IsTreeBelow (trioOutput false).root.place ∧
      trioPruning.emits (trioPruning.mask? "a/Dropped") = false ∧
      ["a", "Dropped.unit.json"] ∈ (trioOutput false).outputs
        (Disk.outcome ((trioOutput false).retract ["old"]) (trioWritten false)) := by
    decide +kernel
  exact ⟨gathered_trio, build_trio, hfacts.1, hfacts.2.1, hfacts.2.2.1, stats, _, h, hfacts.2.2.2⟩

end Trio

end Program

end Winnow
