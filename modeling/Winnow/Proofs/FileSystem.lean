import Winnow.FileSystem
import Winnow.Proofs.Except
import Winnow.Proofs.Sorted

/-!
# What can be done to files

Where a path leads depends on its components alone; the file system only decides whether one
gets there. Making directories, writing a file and removing one each change the files at one
place at most, and no directory is lost, so whatever could be read elsewhere can still be read. Moving one
changes them at two.
-/
namespace Winnow

namespace Place

variable {place key names : Place}

theorem prefix_of_holds (h : place.holds key = true) : place <+: key :=
  List.isPrefixOf_iff_prefix.mp (Bool.and_eq_true_iff.mp h).1

theorem holds_append : place.holds (place ++ names) = true ↔
    ∀ s ∈ names.head?, s ≠ ".." ∧ s ≠ "/" := by
  simp [holds, List.isPrefixOf_iff_prefix, Option.all_eq_true]

/-- What lies on the way to a place below lies below as well. -/
theorem holds_of_holds_append {names' : Place}
    (h : place.holds (place ++ (names ++ names')) = true) : place.holds (place ++ names) = true := by
  rw [holds_append] at h ⊢
  intro s hs
  refine h s ?_
  rw [Option.mem_def] at hs
  simp [List.head?_append, hs]

end Place

namespace Path

/-- A segment that names a file or a directory. -/
def IsName (segment : List Char) : Prop := segment ≠ [] ∧ segment ≠ ['.'] ∧ segment ≠ ['.', '.']

instance (segment : List Char) : Decidable (IsName segment) :=
  inferInstanceAs (Decidable (_ ∧ _ ∧ _))

/-- A name as it stands between slashes. -/
def IsSegment (s : String) : Prop := IsName s.toList ∧ '/' ∉ s.toList

instance (s : String) : Decidable (IsSegment s) := inferInstanceAs (Decidable (_ ∧ _))

theorem IsSegment.ne {s : String} (h : IsSegment s) : s ≠ ".." ∧ s ≠ "/" := by
  constructor
  · rintro rfl
    exact h.1.2.2 rfl
  · rintro rfl
    exact h.2 (by decide)

theorem inner?_of_isName {segment : List Char} (h : IsName segment) :
    inner? segment = some (.name (String.ofList segment)) := by
  rw [inner?, if_neg (not_or.mpr ⟨h.1, h.2.1⟩), if_neg h.2.2]

theorem filterMap_inner?_of_isName {segments : List (List Char)} (h : ∀ s ∈ segments, IsName s) :
    segments.filterMap inner? = segments.map fun s => .name (String.ofList s) := by
  induction segments with
  | nil => rfl
  | cons s segments ih =>
    rw [List.filterMap_cons_some (inner?_of_isName (h s List.mem_cons_self)), List.map_cons,
      ih fun t ht => h t (List.mem_cons_of_mem s ht)]

theorem not_mem_of_mem_splitOn {c : Char} {l x : List Char} (h : x ∈ l.splitOn c) : c ∉ x := by
  induction l generalizing x with
  | nil => simp_all
  | cons d l ih =>
    rw [List.splitOn_cons_eq_if_modifyHead] at h
    split at h
    · rcases List.mem_cons.mp h with rfl | h
      · exact List.not_mem_nil
      · exact ih h
    next hd =>
      cases hs : l.splitOn c with
      | nil => exact absurd hs (List.splitOn_ne_nil c l)
      | cons y ys =>
        rw [hs, List.modifyHead_cons] at h
        rw [hs] at ih
        rcases List.mem_cons.mp h with rfl | h
        · have hdc : c ≠ d := fun heq => hd (by simp [heq])
          exact List.not_mem_cons_of_ne_of_not_mem hdc (ih List.mem_cons_self)
        · exact ih (List.mem_cons_of_mem y h)

theorem splitOn_append_cons (a b : List Char) :
    (a ++ '/' :: b).splitOn '/' = a.splitOn '/' ++ b.splitOn '/' :=
  List.splitOnP_append_cons a b (by simp)

theorem splitOn_cons_slash (l : List Char) : ('/' :: l).splitOn '/' = [] :: l.splitOn '/' :=
  splitOn_append_cons [] l

/-- What follows a slash is read segment by segment. -/
theorem components_append (p : Path) (hp : p.text ≠ "") (s : String) :
    components ⟨p.text ++ "/" ++ s⟩ = p.components ++ (s.toList.splitOn '/').filterMap inner? := by
  obtain ⟨c, l, hl⟩ : ∃ c l, p.text.toList = c :: l :=
    List.exists_cons_of_ne_nil fun h => hp (String.toList_eq_nil_iff.mp h)
  have htext : (p.text ++ "/" ++ s).toList = p.text.toList ++ '/' :: s.toList := by simp
  have habs : isAbsolute ⟨p.text ++ "/" ++ s⟩ = p.isAbsolute := by
    simp [isAbsolute, Text.startsWith, hl, List.isPrefixOf]
  unfold components
  rw [habs, htext, splitOn_append_cons]
  cases h : p.text.toList.splitOn '/' with
  | nil => exact absurd h (List.splitOn_ne_nil _ _)
  | cons first segments =>
    simp only [List.cons_append, List.filterMap_append]
    split
    · rfl
    · split
      · rfl
      · rw [List.append_assoc]

theorem components_of_isName {s : String} (hs : ∀ x ∈ s.toList.splitOn '/', IsName x) :
    isAbsolute ⟨s⟩ = false ∧
      components ⟨s⟩ = (s.toList.splitOn '/').map fun x => .name (String.ofList x) := by
  have habs : isAbsolute ⟨s⟩ = false := by
    rw [← Bool.not_eq_true, isAbsolute, Text.startsWith, List.isPrefixOf_iff_prefix]
    rintro ⟨t, ht⟩
    have hsplit := splitOn_cons_slash t
    rw [show '/' :: t = s.toList from ht] at hsplit
    exact (hs [] (hsplit ▸ List.mem_cons_self)).1 rfl
  refine ⟨habs, ?_⟩
  unfold components
  cases h : s.toList.splitOn '/' with
  | nil => exact absurd h (List.splitOn_ne_nil _ _)
  | cons first segments =>
    rw [h] at hs
    have hfirst := hs first List.mem_cons_self
    have hrest := filterMap_inner?_of_isName fun x hx => hs x (List.mem_cons_of_mem first hx)
    simp [habs, hrest, inner?_of_isName hfirst, hfirst.2.1]

theorem components_slash_append (s : String) :
    components ⟨"/" ++ s⟩ = .root :: (s.toList.splitOn '/').filterMap inner? := by
  have hsplit : ("/" ++ s).toList.splitOn '/' = [] :: s.toList.splitOn '/' :=
    (congrArg _ (by simp)).trans (splitOn_cons_slash s.toList)
  have habs : isAbsolute ⟨"/" ++ s⟩ = true := by simp [isAbsolute, Text.startsWith]
  unfold components
  rw [hsplit]
  simp [habs]

/-- A relative path is appended segment by segment. -/
theorem components_join_relative {p : Path} {s : String} (hp : p.text ≠ "")
    (hs : isAbsolute ⟨s⟩ = false) :
    (p / s).components = p.components ++ (s.toList.splitOn '/').filterMap inner? := by
  show (p.join ⟨s⟩).components = _
  unfold join
  rw [if_neg (by simp [hs, hp])]
  split
  next hend =>
    -- The slash between them is the one at the end of the path.
    obtain ⟨l, hl⟩ := List.isSuffixOf_iff_suffix.mp hend
    obtain ⟨q, rfl⟩ : ∃ q : Path, p = ⟨q.text ++ "/"⟩ :=
      ⟨⟨String.ofList l⟩, congrArg Path.mk (String.toList_inj.mp (by simpa using hl.symm))⟩
    by_cases hq : q.text = ""
    · have hroot : components ⟨"/"⟩ = [.root] := by decide
      rw [show (⟨q.text ++ "/"⟩ : Path) = ⟨"/"⟩ by rw [hq]; rfl, hroot]
      exact components_slash_append s
    · have hlast := components_append q hq ""
      rw [String.append_empty] at hlast
      rw [components_append q hq s, hlast]
      simp [inner?]
  next => exact components_append p hp s

theorem components_of_text_eq_empty {p : Path} (hp : p.text = "") : p.components = [] := by
  rw [show p = ⟨""⟩ from congrArg Path.mk hp]
  decide

/-- A relative path of names is appended component by component. -/
theorem components_join {p : Path} {s : String} (hs : ∀ x ∈ s.toList.splitOn '/', IsName x) :
    (p / s).components =
      p.components ++ (s.toList.splitOn '/').map fun x => .name (String.ofList x) := by
  obtain ⟨habs, hcomponents⟩ := components_of_isName hs
  by_cases hp : p.text = ""
  · have hjoin : p / s = ⟨s⟩ := if_pos (.inr hp)
    rw [hjoin, hcomponents, components_of_text_eq_empty hp, List.nil_append]
  · rw [components_join_relative hp habs, filterMap_inner?_of_isName hs]

end Path

namespace FileSystem

variable {fs fs' fs'' : FileSystem} {place q : Place} {places places' : List Place}
  {c : Component} {cs : List Component} {p : Path} {content : ByteArray} {mtime : Nat}

section Walking

theorem descend_eq_ok_iff : fs.descend place c = .ok q ↔
    fs.entryAt place = some .directory ∧ q = c.step place := by
  unfold descend
  split
  next h => simp [h]
  next h => simp [h]
  next h => simp [h, eq_comm]

/-- Every step starts in a directory. -/
def Walks (fs : FileSystem) (place : Place) : List Component → Prop
  | [] => True
  | c :: cs => fs.entryAt place = some .directory ∧ fs.Walks (c.step place) cs

theorem Walks.congr (hw : fs.Walks place cs)
    (h : ∀ q, fs.entryAt q = some .directory → fs'.entryAt q = some .directory) :
    fs'.Walks place cs := by
  induction cs generalizing place with
  | nil => trivial
  | cons c cs ih => exact ⟨h _ hw.1, ih hw.2⟩

theorem walks_append {cs' : List Component} : fs.Walks place (cs ++ cs') ↔
    fs.Walks place cs ∧ fs.Walks (cs.foldl Component.step place) cs' := by
  induction cs generalizing place with
  | nil => simp [Walks]
  | cons c cs ih => simp [Walks, ih, and_assoc]

theorem foldlM_descend_eq_ok_iff : cs.foldlM fs.descend place = .ok q ↔
    fs.Walks place cs ∧ q = cs.foldl Component.step place := by
  induction cs generalizing place with
  | nil => simp [Walks, pure, Except.pure, eq_comm]
  | cons c cs ih =>
    rw [List.foldlM_cons, List.foldl_cons, Walks]
    cases h : fs.descend place c with
    | error e =>
      have hnot : fs.entryAt place ≠ some .directory := fun hd => by
        rw [descend_eq_ok_iff.mpr ⟨hd, rfl⟩] at h
        cases h
      simp [hnot, bind, Except.bind]
    | ok r =>
      obtain ⟨hd, rfl⟩ := descend_eq_ok_iff.mp h
      simp [hd, bind, Except.bind, ih]

theorem locate_eq_ok_iff : fs.locate p = .ok q ↔
    p.text ≠ "" ∧ '\x00' ∉ p.text.toList ∧ fs.Walks [] p.components ∧ q = p.place := by
  unfold locate
  split
  next h => simp [h]
  next h =>
    split
    next h' => simp [h']
    next h' => simp [h, h', foldlM_descend_eq_ok_iff, Path.place]

/-- A path leads to what is at its place, and to a file only without a slash at its end. -/
theorem entry_eq_ok_iff {e : FileEntry} : fs.entry p = .ok e ↔
    fs.locate p = .ok p.place ∧ fs.entryAt p.place = some e ∧
      (e ≠ .directory → Text.endsWith p.text "/" = false) := by
  unfold entry
  cases hloc : fs.locate p with
  | error e => simp [bind, Except.bind]
  | ok q =>
    obtain ⟨_, _, _, rfl⟩ := locate_eq_ok_iff.mp hloc
    simp only [bind, Except.bind, true_and]
    cases fs.entryAt p.place with
    | none => simp [throw, throwThe, MonadExceptOf.throw]
    | some k =>
      cases k with
      | directory =>
        simp only [pure, Except.pure, Except.ok.injEq, Option.some.injEq]
        exact ⟨fun h => ⟨h, fun hne => absurd h.symm hne⟩, And.left⟩
      | file c t =>
        cases hslash : Text.endsWith p.text "/" with
        | true =>
          simp only [throw, throwThe, MonadExceptOf.throw, if_true, reduceCtorEq, Option.some.injEq,
            false_iff, not_and]
          rintro rfl
          simp
        | false => simp [pure, Except.pure]

theorem entry_eq_file_iff : fs.entry p = .ok (.file content mtime) ↔
    fs.locate p = .ok p.place ∧ fs.entryAt p.place = some (.file content mtime) ∧
      Text.endsWith p.text "/" = false := by
  simp [entry_eq_ok_iff]

theorem entry_eq_directory_iff : fs.entry p = .ok .directory ↔
    fs.locate p = .ok p.place ∧ fs.entryAt p.place = some .directory := by
  simp [entry_eq_ok_iff]

theorem read_eq_ok_iff_entry : fs.read p = .ok content ↔
    ∃ mtime, fs.entry p = .ok (.file content mtime) := by
  unfold read
  cases fs.entry p with
  | error e => simp [bind, Except.bind]
  | ok e => cases e <;> simp [bind, Except.bind, throw, throwThe, MonadExceptOf.throw, pure, Except.pure]

theorem read_eq_ok_iff : fs.read p = .ok content ↔
    fs.locate p = .ok p.place ∧ (∃ mtime, fs.entryAt p.place = some (.file content mtime)) ∧
      Text.endsWith p.text "/" = false := by
  simp only [read_eq_ok_iff_entry, entry_eq_file_iff, exists_and_left, exists_and_right]

end Walking

/-- There is no file at the place. -/
def NoFile (fs : FileSystem) (place : Place) : Prop :=
  ∀ content mtime, fs.entryAt place ≠ some (.file content mtime)

/-- There is a file at the place. -/
def hasFile (fs : FileSystem) (place : Place) : Bool :=
  match fs.entryAt place with
  | some (.file _ _) => true
  | _ => false

theorem hasFile_iff : fs.hasFile place = true ↔
    ∃ content mtime, fs.entryAt place = some (.file content mtime) := by
  unfold hasFile
  split
  next h => simp [h]
  next h => simpa using h

theorem noFile_iff : fs.NoFile place ↔ fs.hasFile place = false := by
  rw [← Bool.not_eq_true, hasFile_iff]
  simp [NoFile]

theorem exists_of_mem_filesBelow {names : Place} (h : names ∈ fs.filesBelow p) :
    p.place.holds (p.place ++ names) = true ∧
      ∃ content mtime, fs.entries.get? (p.place ++ names) = some (.file content mtime) := by
  unfold filesBelow at h
  split at h
  next place entry hloc _ =>
    obtain ⟨_, _, _, rfl⟩ := locate_eq_ok_iff.mp hloc
    obtain ⟨⟨key, e⟩, hmem, hkey⟩ := List.mem_filterMap.mp h
    cases e with
    | directory => cases hkey
    | file content mtime =>
      obtain ⟨hholds, hnames⟩ := Option.ite_none_right_eq_some.mp hkey
      have heq : p.place ++ names = key := by
        rw [← Option.some.inj hnames]
        exact List.prefix_iff_eq_append.mp (Place.prefix_of_holds hholds)
      rw [heq]
      exact ⟨hholds, content, mtime, SortedMap.mem_toList_iff.mp hmem⟩
  next => cases h

/-- Files are listed by the names that lead to them. -/
theorem hasFile_of_mem_filesBelow {names : Place} (h : names ∈ fs.filesBelow p) (hne : names ≠ []) :
    fs.hasFile (p.place ++ names) = true := by
  obtain ⟨_, content, mtime, hget⟩ := exists_of_mem_filesBelow h
  refine hasFile_iff.mpr ⟨content, mtime, ?_⟩
  rw [entryAt, if_neg (List.append_ne_nil_of_right_ne_nil p.place hne), hget]

/-- Files come, change and go at the given places only, and no directory is lost. -/
structure Touches (fs fs' : FileSystem) (places : List Place) : Prop where
  now : fs'.now = fs.now
  directories : ∀ place, fs.entryAt place = some .directory → fs'.entryAt place = some .directory
  files : ∀ place ∉ places, ∀ content mtime, fs'.entryAt place = some (.file content mtime) ↔
    fs.entryAt place = some (.file content mtime)

namespace Touches

theorem refl (fs : FileSystem) : Touches fs fs places := ⟨rfl, fun _ h => h, fun _ _ _ _ => Iff.rfl⟩

theorem trans (h : Touches fs fs' places) (h' : Touches fs' fs'' places) : Touches fs fs'' places :=
  ⟨h'.now.trans h.now, fun q hq => h'.directories q (h.directories q hq),
    fun q hq content mtime => (h'.files q hq content mtime).trans (h.files q hq content mtime)⟩

theorem mono (h : Touches fs fs' places) (hsub : ∀ q ∈ places, q ∈ places') :
    Touches fs fs' places' :=
  ⟨h.now, h.directories, fun q hq => h.files q fun hmem => hq (hsub q hmem)⟩

theorem walks (h : Touches fs fs' places) (hw : fs.Walks place cs) : fs'.Walks place cs :=
  hw.congr h.directories

theorem noFile (h : Touches fs fs' places) (hp : place ∉ places) (hno : fs.NoFile place) :
    fs'.NoFile place :=
  fun content mtime hfile => hno content mtime ((h.files place hp content mtime).mp hfile)

theorem hasFile (h : Touches fs fs' places) (hp : place ∉ places) :
    fs'.hasFile place = fs.hasFile place := by
  rw [Bool.eq_iff_iff, hasFile_iff, hasFile_iff]
  simp only [h.files place hp]

theorem entry (h : Touches fs fs' places) (hp : p.place ∉ places)
    (he : fs.entry p = .ok (.file content mtime)) : fs'.entry p = .ok (.file content mtime) := by
  obtain ⟨hloc, hfile, hend⟩ := entry_eq_file_iff.mp he
  obtain ⟨hne, hnul, hw, _⟩ := locate_eq_ok_iff.mp hloc
  exact entry_eq_file_iff.mpr ⟨locate_eq_ok_iff.mpr ⟨hne, hnul, h.walks hw, rfl⟩,
    (h.files _ hp _ _).mpr hfile, hend⟩

theorem read (h : Touches fs fs' places) (hp : p.place ∉ places) (hr : fs.read p = .ok content) :
    fs'.read p = .ok content := by
  obtain ⟨mtime, he⟩ := read_eq_ok_iff_entry.mp hr
  exact read_eq_ok_iff_entry.mpr ⟨mtime, h.entry hp he⟩

end Touches

section Operations

theorem entryAt_put (h : place ≠ []) (e : FileEntry) :
    (fs.put place e).entryAt q = if q = place then some e else fs.entryAt q := by
  unfold entryAt put
  by_cases hq : q = place
  · subst hq
    simp [h, SortedMap.get?_insert]
  · simp [hq, SortedMap.get?_insert]

theorem entryAt_ne_nil (h : fs.entryAt place ≠ some .directory) : place ≠ [] := by
  rintro rfl
  exact h rfl

/-- Putting something where no directory is keeps all directories. -/
theorem touches_put (h : fs.entryAt place ≠ some .directory) (e : FileEntry) :
    Touches fs (fs.put place e) [place] := by
  refine ⟨rfl, fun q hq => ?_, fun q hq content mtime => ?_⟩
  · rw [entryAt_put (entryAt_ne_nil h), if_neg]
    · exact hq
    · rintro rfl
      exact h hq
  · rw [entryAt_put (entryAt_ne_nil h), if_neg (by simpa using hq)]

theorem touches_put_directory (h : fs.entryAt place = none) :
    Touches fs (fs.put place .directory) [] := by
  have hd : fs.entryAt place ≠ some .directory := by simp [h]
  refine ⟨rfl, (touches_put hd .directory).directories, fun q _ content mtime => ?_⟩
  rw [entryAt_put (entryAt_ne_nil hd)]
  split
  next hq => simp [hq, h]
  next => rfl

/-- What is made is there, and nothing else changes. -/
theorem makeDirectories_spec (h : fs.makeDirectories place cs = .ok fs') :
    Touches fs fs' [] ∧ fs'.Walks place cs ∧
      fs'.entryAt (cs.foldl Component.step place) = some .directory := by
  induction cs generalizing fs place with
  | nil =>
    unfold makeDirectories at h
    split at h
    next hd =>
      cases h
      exact ⟨.refl _, trivial, hd⟩
    next => cases h
  | cons c cs ih =>
    rw [makeDirectories] at h
    cases hd : fs.descend place c with
    | error e => simp [hd, bind, Except.bind] at h
    | ok q =>
      obtain ⟨hplace, rfl⟩ := descend_eq_ok_iff.mp hd
      simp only [hd, bind, Except.bind] at h
      obtain ⟨htouches, hwalks, hlast⟩ := ih h
      have hall : Touches fs fs' [] := by
        split at htouches
        next hnone => exact (touches_put_directory hnone).trans htouches
        next => exact htouches
      exact ⟨hall, ⟨hall.directories _ hplace, hwalks⟩, hlast⟩

theorem Walks.starts (hw : fs.Walks place cs)
    (hlast : fs.entryAt (cs.foldl Component.step place) = some .directory) :
    fs.entryAt place = some .directory := by
  cases cs with
  | nil => exact hlast
  | cons c cs => exact hw.1

/-- Where all directories are there, none is made. -/
theorem makeDirectories_of_walks (hw : fs.Walks place cs)
    (hlast : fs.entryAt (cs.foldl Component.step place) = some .directory) :
    fs.makeDirectories place cs = .ok fs := by
  induction cs generalizing place with
  | nil =>
    unfold makeDirectories
    simp only [show fs.entryAt place = some .directory from hlast]
  | cons c cs ih =>
    have hnext := hw.2.starts hlast
    rw [makeDirectories, descend_eq_ok_iff.mpr ⟨hw.1, rfl⟩]
    simp only [bind, Except.bind, hnext]
    exact ih hw.2 hlast

/-- Nothing is to be made where the directories of a file are all there. -/
theorem createParents_eq_self_iff : fs.createParents p = .ok fs ↔
    '\x00' ∉ p.text.toList ∧ fs.Walks [] p.components.dropLast ∧
      fs.entryAt (p.components.dropLast.foldl Component.step []) = some .directory := by
  unfold createParents
  split
  next hnul => simp [hnul]
  next hnul =>
    constructor
    · intro h
      exact ⟨hnul, (makeDirectories_spec h).2⟩
    · rintro ⟨-, hwalks, hlast⟩
      exact makeDirectories_of_walks hwalks hlast

theorem createParents_spec (h : fs.createParents p = .ok fs') :
    Touches fs fs' [] ∧ fs'.createParents p = .ok fs' := by
  unfold createParents at h
  split at h
  · cases h
  next hnul =>
    obtain ⟨htouches, hthere⟩ := makeDirectories_spec h
    exact ⟨htouches, createParents_eq_self_iff.mpr ⟨hnul, hthere⟩⟩

theorem Touches.createParents (h : Touches fs fs' places) (hp : fs.createParents p = .ok fs) :
    fs'.createParents p = .ok fs' := by
  obtain ⟨hnul, hwalks, hlast⟩ := createParents_eq_self_iff.mp hp
  exact createParents_eq_self_iff.mpr ⟨hnul, h.walks hwalks, h.directories _ hlast⟩

theorem locateForWriting_eq_ok_iff : fs.locateForWriting p = .ok q ↔
    fs.locate p = .ok q ∧ Text.endsWith p.text "/" = false ∧ fs.entryAt q ≠ some .directory ∧
      fs.entryAt q.dropLast = some .directory := by
  unfold locateForWriting
  cases hloc : fs.locate p with
  | error e => simp [bind, Except.bind]
  | ok r =>
    simp only [bind, Except.bind, Except.ok.injEq]
    split
    next hbad =>
      refine ⟨nofun, ?_⟩
      rintro ⟨rfl, hend, hdir, _⟩
      simp [hend, hdir] at hbad
    next hgood =>
      simp only [Bool.or_eq_true, decide_eq_true_eq, not_or, Bool.not_eq_true] at hgood
      split
      next hparent =>
        constructor
        · rintro ⟨⟩
          exact ⟨rfl, hgood.1, hgood.2, hparent⟩
        · rintro ⟨rfl, _⟩
          rfl
      next hparent =>
        refine ⟨nofun, ?_⟩
        rintro ⟨rfl, _, _, hdir⟩
        exact absurd hdir hparent

/-- There is room for a file wherever one could be written before and there still is none but
files. -/
theorem Touches.locateForWriting (h : Touches fs fs' places) (hq : fs.locateForWriting p = .ok q)
    (hd : fs'.entryAt q ≠ some .directory) : fs'.locateForWriting p = .ok q := by
  obtain ⟨hloc, hend, _, hparent⟩ := locateForWriting_eq_ok_iff.mp hq
  obtain ⟨hne, hnul, hw, hplace⟩ := locate_eq_ok_iff.mp hloc
  exact locateForWriting_eq_ok_iff.mpr ⟨locate_eq_ok_iff.mpr ⟨hne, hnul, h.walks hw, hplace⟩, hend,
    hd, h.directories _ hparent⟩

/-- A file that was written can be read. -/
theorem write_spec (h : fs.write p content = .ok fs') :
    Touches fs fs' [p.place] ∧ fs'.entryAt p.place = some (.file content fs.now) ∧
      fs'.read p = .ok content := by
  obtain ⟨q, hq, rfl⟩ : ∃ q, fs.locateForWriting p = .ok q ∧ fs.put q (.file content fs.now) = fs' := by
    unfold write writeAt at h
    cases hq : fs.locateForWriting p with
    | error e => simp [hq, bind, Except.bind] at h
    | ok q => exact ⟨q, rfl, by simpa [hq, bind, Except.bind, pure, Except.pure] using h⟩
  obtain ⟨hloc, hend, hdir, _⟩ := locateForWriting_eq_ok_iff.mp hq
  obtain ⟨hne, hnul, hw, rfl⟩ := locate_eq_ok_iff.mp hloc
  have htouches := touches_put hdir (.file content fs.now)
  have hentry : (fs.put p.place (.file content fs.now)).entryAt p.place =
      some (.file content fs.now) := by
    rw [entryAt_put (entryAt_ne_nil hdir), if_pos rfl]
  refine ⟨htouches, hentry, read_eq_ok_iff.mpr ⟨?_, ⟨_, hentry⟩, hend⟩⟩
  exact locate_eq_ok_iff.mpr ⟨hne, hnul, htouches.walks hw, rfl⟩

/-- What can be read can be removed, and nothing else. -/
theorem remove_eq_ok_iff : fs.remove p = .ok fs' ↔
    ∃ content, fs.read p = .ok content ∧
      fs' = { fs with entries := fs.entries.erase p.place } := by
  simp only [read_eq_ok_iff_entry]
  unfold remove
  cases hentry : fs.entry p with
  | error e => cases fs.locate p <;> simp [bind, Except.bind]
  | ok e =>
    cases e with
    | directory =>
      cases fs.locate p <;> simp [bind, Except.bind, throw, throwThe, MonadExceptOf.throw]
    | file content mtime =>
      rw [(entry_eq_file_iff.mp hentry).1]
      simp [bind, Except.bind, pure, Except.pure, eq_comm]

theorem remove_spec (h : fs.remove p = .ok fs') :
    Touches fs fs' [p.place] ∧ fs'.entryAt p.place = none := by
  obtain ⟨content, hr, rfl⟩ := remove_eq_ok_iff.mp h
  obtain ⟨_, ⟨mtime, hfile⟩, _⟩ := read_eq_ok_iff.mp hr
  have hne : p.place ≠ [] := entryAt_ne_nil (by rw [hfile]; nofun)
  have hentry : ∀ q, entryAt { fs with entries := fs.entries.erase p.place } q =
      if q = p.place then none else fs.entryAt q := by
    intro q
    unfold entryAt
    by_cases hq : q = p.place
    · simp [hq, hne]
    · simp [hq]
  refine ⟨⟨rfl, fun q hq => ?_, fun q hq content mtime => ?_⟩, by rw [hentry, if_pos rfl]⟩
  · rw [hentry, if_neg]
    · exact hq
    · rintro rfl
      rw [hfile] at hq
      cases hq
  · rw [hentry, if_neg (by simpa using hq)]

/-- A file is moved to where one can be written. -/
theorem rename_eq_ok_iff {p' : Path} : fs.rename p p' = .ok fs' ↔
    ∃ content mtime, fs.entry p = .ok (.file content mtime) ∧
      fs.locateForWriting p' = .ok p'.place ∧
      fs' = { fs with
        entries := (fs.entries.erase p.place).insert p'.place (.file content mtime) } := by
  unfold rename
  cases hentry : fs.entry p with
  | error e => cases fs.locate p <;> simp [bind, Except.bind]
  | ok e =>
    cases e with
    | directory =>
      cases fs.locate p <;> simp [bind, Except.bind, throw, throwThe, MonadExceptOf.throw]
    | file content mtime =>
      rw [(entry_eq_file_iff.mp hentry).1]
      cases htarget : fs.locateForWriting p' with
      | error e => simp [bind, Except.bind]
      | ok q =>
        obtain ⟨_, _, _, rfl⟩ := locate_eq_ok_iff.mp (locateForWriting_eq_ok_iff.mp htarget).1
        constructor
        · rintro ⟨⟩
          exact ⟨content, mtime, rfl, rfl, rfl⟩
        · rintro ⟨_, _, ⟨⟩, _, rfl⟩
          rfl

/-- A file that was moved can be read in its new place. -/
theorem rename_spec {p' : Path} (h : fs.rename p p' = .ok fs') (hr : fs.read p = .ok content) :
    Touches fs fs' [p.place, p'.place] ∧ fs'.read p' = .ok content ∧
      fs'.entryAt p'.place ≠ some .directory ∧
      (p.place ≠ p'.place → fs'.entryAt p.place = none) ∧
      ∀ q ∉ [p.place, p'.place], fs'.entryAt q = fs.entryAt q := by
  obtain ⟨content', mtime, hentry, hq, hfs⟩ := rename_eq_ok_iff.mp h
  obtain ⟨_, hentry'⟩ := read_eq_ok_iff_entry.mp hr
  obtain ⟨rfl, rfl⟩ := FileEntry.file.inj (Except.ok.inj (hentry.symm.trans hentry'))
  obtain ⟨_, hfile, _⟩ := entry_eq_file_iff.mp hentry
  obtain ⟨hloc, hend, hdir, _⟩ := locateForWriting_eq_ok_iff.mp hq
  obtain ⟨hne, hnul, hw, _⟩ := locate_eq_ok_iff.mp hloc
  have hp : p.place ≠ [] := entryAt_ne_nil (by rw [hfile]; nofun)
  have hp' : p'.place ≠ [] := entryAt_ne_nil hdir
  have hnew : fs'.entryAt p'.place = some (.file content' mtime) := by
    subst hfs
    simp [entryAt, hp', SortedMap.get?_insert]
  have hold : p.place ≠ p'.place → fs'.entryAt p.place = none := by
    intro hne
    subst hfs
    simp [entryAt, hp, hne, SortedMap.get?_insert]
  have hrest : ∀ q ∉ [p.place, p'.place], fs'.entryAt q = fs.entryAt q := by
    intro q hq
    obtain ⟨hq, hq'⟩ : q ≠ p.place ∧ q ≠ p'.place := by simpa using hq
    subst hfs
    simp [entryAt, hq, hq', SortedMap.get?_insert]
  have htouches : Touches fs fs' [p.place, p'.place] := by
    refine ⟨hfs ▸ rfl, fun q hd => ?_, fun q hq content mtime => by rw [hrest q hq]⟩
    have hq : q ≠ p.place := by
      rintro rfl
      rw [hfile] at hd
      cases hd
    have hq' : q ≠ p'.place := by
      rintro rfl
      exact hdir hd
    rw [hrest q (by simp [hq, hq']), hd]
  refine ⟨htouches, read_eq_ok_iff.mpr ⟨?_, ⟨mtime, hnew⟩, hend⟩, by rw [hnew]; nofun, hold, hrest⟩
  exact locate_eq_ok_iff.mpr ⟨hne, hnul, htouches.walks hw, rfl⟩

end Operations

end FileSystem

namespace Disk

variable {ε ε' α β : Type} {fs fs' : FileSystem} {a : α} {b : β} {e : ε} {e' : ε'}

theorem bind_eq_ok_iff {x : Disk ε α} {f : α → Disk ε β} :
    (x >>= f) fs = .ok b fs' ↔ ∃ a fs₁, x fs = .ok a fs₁ ∧ f a fs₁ = .ok b fs' := by
  show EStateM.bind x f fs = _ ↔ _
  unfold EStateM.bind
  cases x fs with
  | ok a fs₁ =>
    constructor
    · exact fun h => ⟨a, fs₁, rfl, h⟩
    · rintro ⟨_, _, h, hf⟩
      cases h
      exact hf
  | error e fs₁ => simp

theorem change_eq_ok_iff {act : FileSystem → Except FileError FileSystem} {fail : FileError → ε}
    {a : Unit} : change act fail fs = .ok a fs' ↔ act fs = .ok fs' := by
  unfold change
  cases act fs <;> simp

theorem look_eq_ok_iff {act : FileSystem → Except ε α} :
    look act fs = .ok a fs' ↔ act fs = .ok a ∧ fs' = fs := by
  unfold look
  cases act fs <;> simp [eq_comm]

theorem get_eq_ok_iff {fs₁ : FileSystem} :
    (get : Disk ε FileSystem) fs = .ok fs₁ fs' ↔ fs₁ = fs ∧ fs' = fs := by
  show EStateM.Result.ok fs fs = _ ↔ _
  simp [eq_comm]

theorem pure_eq_ok_iff {b : α} : (pure a : Disk ε α) fs = .ok b fs' ↔ b = a ∧ fs' = fs := by
  show EStateM.Result.ok a fs = _ ↔ _
  simp [eq_comm]

theorem within_eq_ok_iff {wrap : ε → ε'} {act : Disk ε α} :
    act.within wrap fs = .ok a fs' ↔ act fs = .ok a fs' := by
  unfold within
  cases act fs <;> simp

theorem bind_eq_error_iff {x : Disk ε α} {f : α → Disk ε β} : (x >>= f) fs = .error e fs' ↔
    x fs = .error e fs' ∨ ∃ a fs₁, x fs = .ok a fs₁ ∧ f a fs₁ = .error e fs' := by
  show EStateM.bind x f fs = _ ↔ _
  unfold EStateM.bind
  cases x fs with
  | ok a fs₁ =>
    constructor
    · exact fun h => .inr ⟨a, fs₁, rfl, h⟩
    · rintro (h | ⟨_, _, h, hf⟩)
      · cases h
      · cases h
        exact hf
  | error e fs₁ => simp

theorem look_eq_error_iff {act : FileSystem → Except ε α} :
    look act fs = .error e fs' ↔ act fs = .error e ∧ fs' = fs := by
  unfold look
  cases act fs <;> simp [eq_comm]

theorem get_ne_error : (get : Disk ε FileSystem) fs ≠ .error e fs' := nofun

theorem pure_ne_error : (pure a : Disk ε α) fs ≠ .error e fs' := nofun

theorem within_eq_error_iff {wrap : ε → ε'} {act : Disk ε α} :
    act.within wrap fs = .error e' fs' ↔ ∃ e, act fs = .error e fs' ∧ e' = wrap e := by
  unfold within
  cases act fs with
  | ok a fs₁ => simp
  | error e₀ fs₁ =>
    constructor
    · rintro ⟨⟩
      exact ⟨e₀, rfl, rfl⟩
    · rintro ⟨_, ⟨⟩, rfl⟩
      rfl

/-- The work is done without failure. -/
def succeeds (act : Disk ε α) (fs : FileSystem) : Bool :=
  match act fs with
  | .ok _ _ => true
  | .error _ _ => false

/-- What the work leaves. -/
def outcome (act : Disk ε α) (fs : FileSystem) : FileSystem :=
  match act fs with
  | .ok _ fs | .error _ fs => fs

theorem exists_ok_of_succeeds {act : Disk ε α} (h : succeeds act fs = true) :
    ∃ a, act fs = .ok a (outcome act fs) := by
  unfold succeeds at h
  unfold outcome
  cases hact : act fs with
  | ok a fs' => exact ⟨a, rfl⟩
  | error e fs' =>
    rw [hact] at h
    cases h

end Disk

end Winnow
