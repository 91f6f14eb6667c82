import Winnow.Output
import Winnow.Proofs.FileSystem
import Winnow.Proofs.Graph.Nodes

/-!
# What the output directory holds

Every class has a place of its own below the output directory. Writing or deleting the file of
one class leaves those of all others alone, so after any work that succeeds one can tell from the
units what the directory holds.
-/
namespace Winnow

open FileSystem

/-- Segments between slashes, none of them empty and none with a dot in it. -/
def IsInternalName (name : String) : Prop := ∀ x ∈ name.toList.splitOn '/', x ≠ [] ∧ '.' ∉ x

instance (name : String) : Decidable (IsInternalName name) :=
  inferInstanceAs (Decidable (∀ x ∈ name.toList.splitOn '/', x ≠ [] ∧ '.' ∉ x))

theorem mem_splitOn_append {l t x : List Char} (ht : '/' ∉ t) (hx : x ∈ (l ++ t).splitOn '/') :
    x ∈ l.splitOn '/' ∨ ∃ y ∈ l.splitOn '/', x = y ++ t := by
  by_cases hl : '/' ∈ l
  · obtain ⟨a, b, hab⟩ := List.append_of_mem hl
    have hlen : b.length < l.length := by
      rw [hab, List.length_append, List.length_cons]
      omega
    rw [hab, List.append_assoc, List.cons_append, Path.splitOn_append_cons] at hx
    rw [hab, Path.splitOn_append_cons]
    rcases List.mem_append.mp hx with hx | hx
    · exact .inl (List.mem_append_left _ hx)
    · rcases mem_splitOn_append ht hx with hx | ⟨y, hy, rfl⟩
      · exact .inl (List.mem_append_right _ hx)
      · exact .inr ⟨y, List.mem_append_right _ hy, rfl⟩
  · have hlt : '/' ∉ l ++ t := by simp [hl, ht]
    rw [List.splitOn_eq_singleton hlt] at hx
    rw [List.splitOn_eq_singleton hl]
    exact .inr ⟨l, List.mem_singleton.mpr rfl, List.mem_singleton.mp hx⟩
termination_by l.length

/-- The last segment of a text has the ending of the text. -/
theorem Path.exists_splitOn_append {t : List Char} (l : List Char) (ht : '/' ∉ t) :
    ∃ init y, (l ++ t).splitOn '/' = init ++ [y ++ t] := by
  by_cases hl : '/' ∈ l
  · obtain ⟨a, b, hab⟩ := List.append_of_mem hl
    have hlen : b.length < l.length := by
      rw [hab, List.length_append, List.length_cons]
      omega
    obtain ⟨init, y, hy⟩ := Path.exists_splitOn_append b ht
    refine ⟨a.splitOn '/' ++ init, y, ?_⟩
    rw [hab, List.append_assoc, List.cons_append, Path.splitOn_append_cons, hy, List.append_assoc]
  · refine ⟨[], l, List.splitOn_eq_singleton ?_⟩
    simp [hl, ht]
termination_by l.length

namespace OutputDirectory

variable {o : OutputDirectory} {p : Pruning} {u v : CompiledUnit} {units : List CompiledUnit}
  {fs fs' : FileSystem} {name name' : String} {names : List String} {stats stats' : EmitStats}
  {content : ByteArray} {mtime : Nat}

section Places

/-- The names that lead to the file of a class. -/
def segments (name : String) : Place :=
  ((name ++ ".unit.json").toList.splitOn '/').map String.ofList

theorem joined_segments (name : String) : Text.joined "/" (segments name) = name ++ ".unit.json" := by
  apply String.toList_injective
  rw [Text.joined, String.toList_intercalate, segments, List.map_map]
  have hid : String.toList ∘ String.ofList = id := funext fun l => String.toList_ofList
  rw [hid, List.map_id]
  exact List.intercalate_splitOn '/'

theorem segments_inj (h : segments name = segments name') : name = name' := by
  have hjoined := joined_segments name
  rw [h, joined_segments] at hjoined
  exact ((String.append_left_inj _).mp hjoined).symm

theorem isName_ending (y : List Char) : Path.IsName (y ++ ".unit.json".toList) := by
  have hlen : 2 < (y ++ ".unit.json".toList).length := by
    rw [List.length_append]
    exact Nat.lt_of_lt_of_le (by decide) (Nat.le_add_left _ _)
  refine ⟨?_, ?_, ?_⟩ <;> intro heq <;> rw [heq] at hlen <;> simp at hlen

/-- The file of the class is found by names alone. -/
def IsPlainName (name : String) : Prop :=
  ∀ x ∈ (name ++ ".unit.json").toList.splitOn '/', Path.IsName x

theorem isPlainName_of_isInternalName (hn : IsInternalName name) : IsPlainName name := by
  intro x hx
  rw [String.toList_append] at hx
  rcases mem_splitOn_append (by decide) hx with hx | ⟨y, _, rfl⟩
  · obtain ⟨hne, hdot⟩ := hn x hx
    refine ⟨hne, ?_, ?_⟩ <;> rintro rfl <;> simp at hdot
  · exact isName_ending y

theorem foldl_step_names (place : Place) (names : List String) :
    (names.map Component.name).foldl Component.step place = place ++ names := by
  induction names generalizing place with
  | nil => simp
  | cons s names ih =>
    rw [List.map_cons, List.foldl_cons, ih]
    simp [Component.step]

theorem place_path (hn : IsPlainName name) :
    (o.path name).place = o.root.place ++ segments name := by
  rw [Path.place, path, Path.components_join hn,
    List.foldl_append, ← foldl_step_names, segments, List.map_map]
  rfl

theorem exists_text_path (o : OutputDirectory) (name : String) :
    ∃ l, (o.path name).text.toList = l ++ ".unit.json".toList := by
  show ∃ l, (o.root.join ⟨name ++ ".unit.json"⟩).text.toList = _
  unfold Path.join
  split
  · exact ⟨name.toList, String.toList_append⟩
  · split
    · exact ⟨o.root.text.toList ++ name.toList, by simp⟩
    · exact ⟨o.root.text.toList ++ '/' :: name.toList, by simp⟩

theorem text_path_ne (o : OutputDirectory) (name : String) : (o.path name).text ≠ "" := by
  obtain ⟨l, hl⟩ := o.exists_text_path name
  intro hempty
  rw [hempty] at hl
  simp at hl

theorem not_endsWith_path (o : OutputDirectory) (name : String) :
    Text.endsWith (o.path name).text "/" = false := by
  obtain ⟨l, hl⟩ := o.exists_text_path name
  rw [← Bool.not_eq_true, Text.endsWith, List.isSuffixOf_iff_suffix, hl]
  rintro ⟨t, htext⟩
  have hlast := congrArg List.getLast? htext
  simp at hlast

/-- Different classes have different places. -/
theorem place_inj (hn : IsPlainName name) (hn' : IsPlainName name')
    (h : (o.path name).place = (o.path name').place) : name = name' := by
  rw [place_path hn, place_path hn'] at h
  exact segments_inj (List.append_cancel_left h)

end Places

section Operations

theorem write_spec {path : Path} (h : o.write u fs = .ok path fs') :
    Touches fs fs' [(o.path u.name).place] ∧
      fs'.entryAt (o.path u.name).place = some (.file (o.content u).toUTF8 fs.now) ∧
      fs'.read (o.path u.name) = .ok (o.content u).toUTF8 := by
  obtain ⟨_, fs₁, hparents, h⟩ := Disk.bind_eq_ok_iff.mp h
  obtain ⟨_, fs₂, hwrite, h⟩ := Disk.bind_eq_ok_iff.mp h
  have hparents := (createParents_spec (Disk.change_eq_ok_iff.mp hparents)).1
  obtain ⟨htouches, hentry, hread⟩ := FileSystem.write_spec (Disk.change_eq_ok_iff.mp hwrite)
  cases h
  rw [hparents.now] at hentry
  exact ⟨(hparents.mono nofun).trans htouches, hentry, hread⟩

theorem path_of_write {path : Path} (h : o.write u fs = .ok path fs') : o.path u.name = path := by
  obtain ⟨_, _, _, h⟩ := Disk.bind_eq_ok_iff.mp h
  obtain ⟨_, _, _, h⟩ := Disk.bind_eq_ok_iff.mp h
  exact (Disk.pure_eq_ok_iff.mp h).1.symm

/-- Deleting takes away what can be read, and does nothing where there is nothing to read. -/
theorem delete_spec {deleted : Bool} (h : o.delete name fs = .ok deleted fs') :
    Touches fs fs' [(o.path name).place] ∧
      (deleted = true ↔ ∃ content, fs.read (o.path name) = .ok content) ∧
      (deleted = true → fs'.NoFile (o.path name).place) ∧ (deleted = false → fs' = fs) := by
  unfold delete at h
  dsimp only at h
  cases hr : fs.remove (o.path name) with
  | ok fs₁ =>
    rw [hr] at h
    cases h
    obtain ⟨htouches, hnone⟩ := remove_spec hr
    obtain ⟨content, hread, _⟩ := remove_eq_ok_iff.mp hr
    exact ⟨htouches, iff_of_true rfl ⟨content, hread⟩,
      fun _ content mtime hfile => by simp [hnone] at hfile, nofun⟩
  | error e =>
    have hunread : ¬ ∃ content, fs.read (o.path name) = .ok content := by
      rintro ⟨content, hread⟩
      rw [remove_eq_ok_iff.mpr ⟨content, hread, rfl⟩] at hr
      cases hr
    rw [hr] at h
    cases e with
    | notFound =>
      cases h
      exact ⟨.refl fs, iff_of_false nofun hunread, nofun, fun _ => rfl⟩
    | notADirectory | isADirectory | badName | denied => cases h

/-- The file of the class, if there is one, can be read. -/
def IsOpen (o : OutputDirectory) (fs : FileSystem) (name : String) : Prop :=
  fs.hasFile (o.path name).place = true → ∃ content, fs.read (o.path name) = .ok content

theorem isOpen_of_noFile (h : fs.NoFile (o.path name).place) : o.IsOpen fs name := by
  intro hfile
  rw [noFile_iff.mp h] at hfile
  cases hfile

theorem IsOpen.touches {places : List Place} (ho : o.IsOpen fs name) (h : Touches fs fs' places)
    (hp : (o.path name).place ∉ places) : o.IsOpen fs' name := by
  intro hfile
  rw [h.hasFile hp] at hfile
  obtain ⟨content, hread⟩ := ho hfile
  exact ⟨content, h.read hp hread⟩

/-- A file that can be read is deleted if it is there. -/
theorem IsOpen.delete {deleted : Bool} (ho : o.IsOpen fs name)
    (h : o.delete name fs = .ok deleted fs') :
    fs'.NoFile (o.path name).place ∧ deleted = fs.hasFile (o.path name).place := by
  obtain ⟨_, hiff, hgone, hsame⟩ := delete_spec h
  cases deleted with
  | true =>
    obtain ⟨content, hread⟩ := hiff.mp rfl
    obtain ⟨_, ⟨mtime, hfile⟩, _⟩ := read_eq_ok_iff.mp hread
    exact ⟨hgone rfl, (hasFile_iff.mpr ⟨content, mtime, hfile⟩).symm⟩
  | false =>
    have hnone : fs.hasFile (o.path name).place = false := by
      rw [← Bool.not_eq_true]
      exact fun hfile => nomatch hiff.mpr (ho hfile)
    rw [hsame rfl, noFile_iff, hnone]
    exact ⟨rfl, rfl⟩

end Operations

section Emission

/-- The text of the file of a unit, if it is written. -/
def text? (o : OutputDirectory) (p : Pruning) (u : CompiledUnit) : Option String :=
  ((p.mask? u.name).filter p.writes).map fun mask => o.content (mask.apply u)

/-- A unit is written, or its file is deleted. -/
theorem emitUnit_cases (h : o.emitUnit p stats u fs = .ok stats' fs') :
    (∃ text, o.text? p u = some text ∧ stats' = { stats with written := stats.written + 1 } ∧
      Touches fs fs' [(o.path u.name).place] ∧
      fs'.entryAt (o.path u.name).place = some (.file text.toUTF8 fs.now) ∧
      fs'.read (o.path u.name) = .ok text.toUTF8) ∨
    o.text? p u = none ∧ ∃ deleted, o.delete u.name fs = .ok deleted fs' ∧
      stats' = { stats with
        omitted := stats.omitted + (p.mask? u.name).isSome.toNat
        deleted := stats.deleted + deleted.toNat } := by
  unfold emitUnit at h
  cases hmask : p.mask? u.name with
  | none =>
    rw [hmask] at h
    obtain ⟨deleted, fs₁, hdelete, h⟩ := Disk.bind_eq_ok_iff.mp h
    cases h
    exact .inr ⟨by simp [text?, hmask], deleted, hdelete, rfl⟩
  | some mask =>
    rw [hmask] at h
    cases hw : p.writes mask with
    | true =>
      simp only [hw, if_true] at h
      obtain ⟨path, fs₁, hwrite, h⟩ := Disk.bind_eq_ok_iff.mp h
      cases h
      have htext : o.text? p u = some (o.content (mask.apply u)) := by
        rw [text?, hmask, Option.filter_some, if_pos hw]
        rfl
      have hwritten := write_spec hwrite
      rw [show (mask.apply u).name = u.name from rfl] at hwritten
      exact .inl ⟨_, htext, rfl, hwritten⟩
    | false =>
      simp only [hw, Bool.false_eq_true, if_false] at h
      obtain ⟨deleted, fs₁, hdelete, h⟩ := Disk.bind_eq_ok_iff.mp h
      cases h
      exact .inr ⟨by simp [text?, hmask, hw], deleted, hdelete, rfl⟩

/-- The file of the unit is as it should be. -/
structure Settled (o : OutputDirectory) (p : Pruning) (fs : FileSystem) (u : CompiledUnit) : Prop where
  stored : ∀ text, o.text? p u = some text →
    fs.entryAt (o.path u.name).place = some (.file text.toUTF8 fs.now) ∧
      fs.read (o.path u.name) = .ok text.toUTF8
  absent : o.text? p u = none → fs.NoFile (o.path u.name).place

theorem Settled.touches {places : List Place} (hs : o.Settled p fs u) (h : Touches fs fs' places)
    (hp : (o.path u.name).place ∉ places) : o.Settled p fs' u where
  stored text htext := by
    obtain ⟨hentry, hread⟩ := hs.stored text htext
    rw [h.now]
    exact ⟨(h.files _ hp _ _).mpr hentry, h.read hp hread⟩
  absent hnone := h.noFile hp (hs.absent hnone)

theorem settled_of_emitUnit (hopen : o.text? p u = none → o.IsOpen fs u.name)
    (h : o.emitUnit p stats u fs = .ok stats' fs') :
    Touches fs fs' [(o.path u.name).place] ∧ o.Settled p fs' u := by
  rcases emitUnit_cases h with ⟨text, htext, _, htouches, hentry, hread⟩ | ⟨hnone, _, hdelete, _⟩
  · refine ⟨htouches, ⟨fun text' htext' => ?_, fun hnone => ?_⟩⟩
    · obtain rfl : text = text' := Option.some.inj (htext.symm.trans htext')
      exact ⟨htouches.now ▸ hentry, hread⟩
    · rw [htext] at hnone
      cases hnone
  · refine ⟨(delete_spec hdelete).1, ⟨fun text htext => ?_, fun _ => ?_⟩⟩
    · rw [htext] at hnone
      cases hnone
    · exact ((hopen hnone).delete hdelete).1

/-- Units of one name are the same, and whatever has to be deleted can be. -/
structure Prepared (o : OutputDirectory) (p : Pruning) (units : List CompiledUnit)
    (fs : FileSystem) : Prop where
  plain : ∀ u ∈ units, IsPlainName u.name
  same : ∀ u ∈ units, ∀ v ∈ units, u.name = v.name → u = v
  isOpen : ∀ u ∈ units, o.text? p u = none → o.IsOpen fs u.name

theorem Prepared.eq_of_place (hp : o.Prepared p units fs) (hu : u ∈ units) (hv : v ∈ units)
    (h : (o.path u.name).place = (o.path v.name).place) : u = v :=
  hp.same u hu v hv (place_inj (hp.plain u hu) (hp.plain v hv) h)

/-- What is done about one unit leaves the others prepared. -/
theorem Prepared.step (hp : o.Prepared p (u :: units) fs)
    (h : o.emitUnit p stats u fs = .ok stats' fs') : o.Prepared p units fs' := by
  obtain ⟨htouches, hsettled⟩ := settled_of_emitUnit (hp.isOpen u List.mem_cons_self) h
  refine ⟨fun v hv => hp.plain v (List.mem_cons_of_mem u hv),
    fun v hv w hw => hp.same v (List.mem_cons_of_mem u hv) w (List.mem_cons_of_mem u hw),
    fun v hv hnone => ?_⟩
  have hv := List.mem_cons_of_mem u hv
  by_cases heq : (o.path v.name).place = (o.path u.name).place
  · obtain rfl := hp.eq_of_place hv List.mem_cons_self heq
    exact isOpen_of_noFile (hsettled.absent hnone)
  · exact (hp.isOpen v hv hnone).touches htouches (by simpa using heq)

/-- The places of the files of units. -/
def unitPlaces (o : OutputDirectory) (units : List CompiledUnit) : List Place :=
  units.map fun u => (o.path u.name).place

theorem foldlM_emitUnit_spec (hp : o.Prepared p units fs)
    (h : units.foldlM (o.emitUnit p) stats fs = .ok stats' fs') :
    Touches fs fs' (o.unitPlaces units) ∧ ∀ u ∈ units, o.Settled p fs' u := by
  induction units generalizing fs stats with
  | nil =>
    cases h
    exact ⟨.refl _, nofun⟩
  | cons u units ih =>
    rw [List.foldlM_cons] at h
    obtain ⟨stats₁, fs₁, hunit, hrest⟩ := Disk.bind_eq_ok_iff.mp h
    obtain ⟨htouches, hsettled⟩ := settled_of_emitUnit (hp.isOpen u List.mem_cons_self) hunit
    obtain ⟨htouches', hothers⟩ := ih (hp.step hunit) hrest
    refine ⟨(htouches.mono fun q hq => ?_).trans (htouches'.mono fun q hq => ?_), fun v hv => ?_⟩
    · rw [List.mem_singleton.mp hq]
      exact List.mem_cons_self
    · exact List.mem_cons_of_mem _ hq
    by_cases hlater : (o.path v.name).place ∈ o.unitPlaces units
    · obtain ⟨w, hw, heq⟩ := List.mem_map.mp hlater
      obtain rfl := hp.eq_of_place (List.mem_cons_of_mem u hw) hv heq
      exact hothers w hw
    · -- No later unit has the name of the first, so its file stays.
      obtain rfl : v = u := (List.mem_cons.mp hv).resolve_right fun hmem =>
        hlater (List.mem_map_of_mem hmem)
      exact hsettled.touches htouches' hlater

/-- The files of the names of a list are gone when they are retracted, and those that there were
are counted. -/
theorem retract_spec {deleted : Nat} (hn : ∀ name ∈ names, IsPlainName name) (hd : names.Nodup)
    (hopen : ∀ name ∈ names, o.IsOpen fs name) (h : o.retract names fs = .ok deleted fs') :
    Touches fs fs' (names.map fun name => (o.path name).place) ∧
      (∀ name ∈ names, fs'.NoFile (o.path name).place) ∧
      deleted = names.countP fun name => fs.hasFile (o.path name).place := by
  unfold retract at h
  rw [← Nat.zero_add (names.countP _)]
  generalize 0 = start at h ⊢
  induction names generalizing fs start with
  | nil =>
    cases h
    exact ⟨.refl _, nofun, rfl⟩
  | cons name names ih =>
    rw [List.foldlM_cons] at h
    obtain ⟨count, fs₁, hfirst, hrest⟩ := Disk.bind_eq_ok_iff.mp h
    obtain ⟨_, _, hdelete, hpure⟩ := Disk.bind_eq_ok_iff.mp hfirst
    cases hpure
    obtain ⟨hnot, hd⟩ := List.nodup_cons.mp hd
    have htouches := (delete_spec hdelete).1
    obtain ⟨hgone, rfl⟩ := (hopen name List.mem_cons_self).delete hdelete
    have hother : ∀ name' ∈ names, (o.path name').place ∉ [(o.path name).place] := by
      intro name' hname' hmem
      rw [place_inj (hn name' (List.mem_cons_of_mem _ hname')) (hn name List.mem_cons_self)
        (List.mem_singleton.mp hmem)] at hname'
      exact hnot hname'
    obtain ⟨htouches', hnone, hcount⟩ := ih (fun name' hname' => hn name' (List.mem_cons_of_mem _ hname'))
      hd (fun name' hname' => (hopen name' (List.mem_cons_of_mem _ hname')).touches htouches
        (hother name' hname')) _ hrest
    refine ⟨(htouches.mono fun q hq => ?_).trans (htouches'.mono fun q hq => ?_), ?_, ?_⟩
    · rw [List.mem_singleton.mp hq]
      exact List.mem_cons_self
    · exact List.mem_cons_of_mem _ hq
    · rintro name' hname'
      rcases List.mem_cons.mp hname' with rfl | hname'
      · refine htouches'.noFile (fun hmem => ?_) hgone
        obtain ⟨name', hname', heq⟩ := List.mem_map.mp hmem
        exact hother name' hname' (List.mem_singleton.mpr heq)
      · exact hnone name' hname'
    · have hsame : names.countP (fun name => fs₁.hasFile (o.path name).place) =
          names.countP fun name => fs.hasFile (o.path name).place :=
        List.countP_congr fun name' hname' => by rw [htouches.hasFile (hother name' hname')]
      rw [hcount, hsame, List.countP_cons, Nat.add_assoc, Nat.add_comm (Bool.toNat _)]
      cases fs.hasFile (o.path name).place <;> rfl

/-- The places of the files that are written. -/
def writtenPlaces (o : OutputDirectory) (p : Pruning) (units : List CompiledUnit) : List Place :=
  (units.filter fun u => (o.text? p u).isSome).map fun u => (o.path u.name).place

/-- The directory holds the files of the units that are written, and no others. -/
structure Holds (o : OutputDirectory) (p : Pruning) (units : List CompiledUnit)
    (fs : FileSystem) : Prop where
  stored : ∀ u ∈ units, ∀ text, o.text? p u = some text →
    fs.read (o.path u.name) = .ok text.toUTF8
  only : ∀ place content mtime, o.root.place <+: place →
    fs.entryAt place = some (.file content mtime) → place ∈ o.writtenPlaces p units

theorem mem_writtenPlaces {place : Place} : place ∈ o.writtenPlaces p units ↔
    ∃ u ∈ units, (∃ text, o.text? p u = some text) ∧ place = (o.path u.name).place := by
  simp only [writtenPlaces, List.mem_map, List.mem_filter, Option.isSome_iff_exists, and_assoc]
  simp only [eq_comm (a := place)]

theorem root_prefix_place (hn : IsPlainName name) : o.root.place <+: (o.path name).place :=
  ⟨segments name, (place_path hn).symm⟩

theorem withoutEnding_eq_some_iff {ending text : String} :
    Text.withoutEnding ending text = some name ↔ text = name ++ ending := by
  rw [Text.withoutEnding, Option.ite_none_right_eq_some, Text.endsWith, List.isSuffixOf_iff_suffix]
  have htake : ∀ l : List Char, text.toList = l ++ ending.toList →
      text.toList.take (text.length - ending.length) = l := by
    intro l hl
    rw [← String.length_toList, ← String.length_toList, hl, List.length_append,
      Nat.add_sub_cancel, List.take_left]
  constructor
  · rintro ⟨⟨l, hl⟩, hname⟩
    rw [htake l hl.symm] at hname
    rw [← Option.some.inj hname, ← String.toList_inj, String.toList_append, String.toList_ofList, hl]
  · rintro rfl
    have htext : (name ++ ending).toList = name.toList ++ ending.toList := String.toList_append
    exact ⟨⟨name.toList, htext.symm⟩, by rw [htake _ htext, String.ofList_toList]⟩

theorem ne_nil_of_joined {names : Place} (h : Text.joined "/" names = name ++ ".unit.json") :
    names ≠ [] := by
  rintro rfl
  have hnone : Text.withoutEnding ".unit.json" (Text.joined "/" []) = none := by decide
  rw [withoutEnding_eq_some_iff.mpr h] at hnone
  cases hnone

theorem mem_existing_iff : name ∈ o.existing fs ↔
    ∃ names ∈ fs.filesBelow o.root, Text.joined "/" names = name ++ ".unit.json" := by
  simp only [existing, List.mem_mergeSort, List.mem_filterMap, withoutEnding_eq_some_iff]

/-- The classes that have a file are known by the names that lead to it. -/
theorem exists_of_mem_existing (h : name ∈ o.existing fs) :
    ∃ names, o.root.place.holds (o.root.place ++ names) = true ∧
      fs.hasFile (o.root.place ++ names) = true ∧
      Text.joined "/" names = name ++ ".unit.json" := by
  obtain ⟨names, hnames, hjoined⟩ := mem_existing_iff.mp h
  exact ⟨names, (exists_of_mem_filesBelow hnames).1,
    hasFile_of_mem_filesBelow hnames (ne_nil_of_joined hjoined), hjoined⟩

/-- Only classes of the program are written. -/
theorem isProgram_of_text? {text : String} (h : o.text? p u = some text) :
    (p.graph.class? u.name).any (·.isProgram) = true := by
  obtain ⟨mask, hmask, _⟩ := Option.map_eq_some_iff.mp h
  obtain ⟨hmask, _⟩ := Option.filter_eq_some_iff.mp hmask
  obtain ⟨c, hc, _⟩ := Option.bind_eq_some_iff.mp hmask
  obtain ⟨hc, hp⟩ := Option.filter_eq_some_iff.mp hc
  rw [hc]
  exact hp

/-- There is no file in the directory or below it. -/
def IsBare (o : OutputDirectory) (fs : FileSystem) : Prop :=
  ∀ place, o.root.place <+: place → fs.NoFile place

section Full

variable (hn : ∀ u ∈ units, IsInternalName u.name)
  (hsame : ∀ u ∈ units, ∀ v ∈ units, u.name = v.name → u = v)
  (hbare : o.IsBare fs)
include hn hsame hbare

theorem holds_emit (h : o.emit p units fs = .ok stats fs') : o.Holds p units fs' := by
  have hplain : ∀ u ∈ units, IsPlainName u.name := fun u hu =>
    isPlainName_of_isInternalName (hn u hu)
  have hprepared : o.Prepared p units fs := ⟨hplain, hsame, fun u hu _ =>
    isOpen_of_noFile (hbare _ (root_prefix_place (hplain u hu)))⟩
  obtain ⟨htouches, hsettled⟩ := foldlM_emitUnit_spec hprepared h
  refine ⟨fun u hu text htext => ((hsettled u hu).stored text htext).2,
    fun place content mtime hroot hfile => ?_⟩
  have hplace : place ∈ o.unitPlaces units := Classical.byContradiction fun hnot =>
    htouches.noFile hnot (hbare place hroot) content mtime hfile
  obtain ⟨u, hu, rfl⟩ := List.mem_map.mp hplace
  refine mem_writtenPlaces.mpr ⟨u, hu, Option.ne_none_iff_exists'.mp fun hnone => ?_, rfl⟩
  exact (hsettled u hu).absent hnone content mtime hfile

/-- A full emission into a directory without files leaves nothing to clear away. -/
theorem holds_emitAll (h : o.emitAll p units fs = .ok stats fs') : o.Holds p units fs' := by
  obtain ⟨stats₁, fs₁, hemit, h⟩ := Disk.bind_eq_ok_iff.mp h
  have hholds := holds_emit hn hsame hbare hemit
  obtain ⟨_, _, hget, h⟩ := Disk.bind_eq_ok_iff.mp h
  cases hget
  have hstale : (o.existing fs₁).filter (fun name =>
      !((p.graph.class? name).any (·.isProgram))) = [] := by
    rw [List.filter_eq_nil_iff]
    intro name hname
    obtain ⟨names, _, hfile, hjoined⟩ := exists_of_mem_existing hname
    obtain ⟨content, mtime, hfile⟩ := hasFile_iff.mp hfile
    obtain ⟨u, hu, ⟨text, htext⟩, heq⟩ :=
      mem_writtenPlaces.mp (hholds.only _ _ _ (List.prefix_append _ _) hfile)
    rw [place_path (isPlainName_of_isInternalName (hn u hu))] at heq
    rw [List.append_cancel_left heq, joined_segments] at hjoined
    obtain rfl := (String.append_left_inj _).mp hjoined
    simp [isProgram_of_text? htext]
  rw [hstale] at h
  obtain ⟨_, _, hretract, h⟩ := Disk.bind_eq_ok_iff.mp h
  cases hretract
  cases h
  exact hholds

end Full

end Emission

end OutputDirectory

namespace Pruning

variable {p : Pruning} {u : CompiledUnit}

theorem emits_eq_true_iff {mask? : Option KeepMask} : p.emits mask? = true ↔
    ∃ mask, mask? = some mask ∧ p.writes mask = true := by
  cases mask? <;> simp [emits]

theorem isSome_text? {o : OutputDirectory} :
    (o.text? p u).isSome = p.emits (p.mask? u.name) := by
  rw [OutputDirectory.text?, Option.isSome_map, Option.isSome_filter]
  rfl

theorem exists_text?_iff {o : OutputDirectory} :
    (∃ text, o.text? p u = some text) ↔ p.emits (p.mask? u.name) = true := by
  rw [← Option.isSome_iff_exists, isSome_text?]

end Pruning

end Winnow
