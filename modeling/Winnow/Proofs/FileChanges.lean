import Winnow.Proofs.Fingerprint

/-!
# Which changes of files are seen

The files of a run are compared with the fingerprints of an earlier one. What was
added and what was removed is told from the paths alone. For a file that was there
before, time and size come first: as long as both are as they were, the content is
not looked at. So an edit is seen unless it leaves the size as it was and comes
within the same second. What is no file any more, or may not be read, counts as
edited, and it too is seen only by its time or size.
-/
namespace Winnow

theorem SortedMap.exists_of_get?_eq_some {κ β : Type} [Ord κ] {m : SortedMap κ β} {k : κ} {v : β}
    (h : m.get? k = some v) : ∃ e ∈ m.toList, compare k e.1 = .eq ∧ e.2 = v := by
  have hlookup : ∀ l : List (κ × β), Sorted.lookup k l = some v →
      ∃ e ∈ l, compare k e.1 = .eq ∧ e.2 = v := by
    intro l hl
    induction l with
    | nil => nomatch hl
    | cons e l ih =>
      rw [Sorted.lookup] at hl
      split at hl
      next heq => exact ⟨e, List.mem_cons_self, heq, Option.some.inj hl⟩
      next =>
        obtain ⟨e', he', h'⟩ := ih hl
        exact ⟨e', List.mem_cons_of_mem e he', h'⟩
  exact hlookup m.toList h

theorem Path.same_iff {p q : Path} : p.same q = true ↔ p.components = q.components :=
  decide_eq_true_iff

@[simp] theorem Path.mem_sorted {p : Path} {paths : List Path} :
    p ∈ Path.sorted paths ↔ p ∈ paths :=
  List.mem_mergeSort

/-- What is told of `q` now has the size and the time, in whole seconds, that were told of `p`
before. -/
def SameStamp (before : FileView) (p : Path) (after : FileView) (q : Path) : Prop :=
  ∃ m m', before.metadata p = .ok m ∧ after.metadata q = .ok m' ∧ m'.mtime = m.mtime ∧
    m'.length = m.length

/-- The hash of a file tells its content now from the content it had before. -/
def HashTells (before : FileView) (paths : List Path) (after : FileView) (current : List Path) :
    Prop :=
  ∀ p ∈ paths, ∀ q ∈ current, q.same p = true → ∀ content content',
    before.read p = .ok content → after.read q = .ok content' →
    SipHash.fingerprint content' = SipHash.fingerprint content → content' = content

namespace Fingerprint

variable {before after : FileView} {p q : Path} {f : Fingerprint}

theorem quickChanged_iff (h : read before p = .ok f) :
    f.quickChanged after q = true ↔ ¬SameStamp before p after q := by
  obtain ⟨m, time, content, hm, htime, _, rfl⟩ := read_eq_ok_iff.mp h
  have hmtime : m.mtime = Metadata.wholeSeconds time := by rw [Metadata.mtime, htime]
  unfold quickChanged SameStamp
  rw [hm]
  cases hm' : after.metadata q with
  | error e => simp
  | ok m' =>
    rw [Bool.or_eq_true, decide_eq_true_iff, decide_eq_true_iff, ← not_and_or]
    refine not_congr ⟨?_, ?_⟩
    · rintro ⟨hseconds, hlength⟩
      exact ⟨m, m', rfl, rfl, hseconds.trans hmtime.symm, hlength⟩
    · rintro ⟨_, _, ⟨⟩, ⟨⟩, hseconds, hlength⟩
      exact ⟨hseconds.trans hmtime, hlength⟩

/-- As far as the hash tells the two contents apart, they are compared. -/
theorem contentChanged_iff (h : read before p = .ok f)
    (hhash : ∀ content content', before.read p = .ok content → after.read q = .ok content' →
      SipHash.fingerprint content' = SipHash.fingerprint content → content' = content) :
    f.contentChanged after q = true ↔ after.read q ≠ before.read p := by
  obtain ⟨_, _, content, _, _, hread, rfl⟩ := read_eq_ok_iff.mp h
  unfold contentChanged
  rw [hread]
  cases hread' : after.read q with
  | error e => simp
  | ok content' =>
    show decide (SipHash.fingerprint content' ≠ SipHash.fingerprint content) = true ↔ _
    rw [decide_eq_true_iff, ne_eq, ne_eq, Except.ok.injEq]
    exact not_congr ⟨hhash content content' hread hread', fun h => by rw [h]⟩

end Fingerprint

namespace Project

variable {before after : FileView} {paths current : List Path} {known : Fingerprints} {q : Path}

theorem get?_of_same (h : fingerprints before paths = .ok known) {p : Path} (hp : p ∈ paths)
    (hq : q.same p = true) :
    ∃ f, Fingerprint.read before p = .ok f ∧ known.get? q = some f := by
  obtain ⟨f, hread, hget⟩ := (fingerprints_spec h).1 p hp
  have hcompare : compare q p = .eq := Path.compare_eq_iff.mpr (Path.same_iff.mp hq)
  exact ⟨f, hread, by rw [SortedMap.get?_congr hcompare, hget]⟩

theorem get?_of_not_same (h : fingerprints before paths = .ok known)
    (hq : ¬∃ p ∈ paths, q.same p = true) : known.get? q = none :=
  (foldlM_enter_spec h).2.1 q fun p hp heq =>
    hq ⟨p, hp, Path.same_iff.mpr (Path.compare_eq_iff.mp heq)⟩

theorem contains_iff (h : fingerprints before paths = .ok known) :
    known.contains q = true ↔ ∃ p ∈ paths, q.same p = true := by
  constructor
  · intro hcontains
    by_contra hno
    rw [SortedMap.contains, get?_of_not_same h hno] at hcontains
    exact Bool.false_ne_true hcontains
  · rintro ⟨p, hp, hsame⟩
    obtain ⟨f, _, hget⟩ := get?_of_same h hp hsame
    rw [SortedMap.contains, hget]
    rfl

theorem mem_added_iff (h : fingerprints before paths = .ok known) :
    q ∈ (known.changes after current).added ↔ q ∈ current ∧ ¬∃ p ∈ paths, q.same p = true := by
  rw [← contains_iff h, Fingerprints.changes, Path.mem_sorted, List.mem_filter]
  simp

theorem exists_removed_iff (h : fingerprints before paths = .ok known) :
    (∃ r ∈ (known.changes after current).removed, q.same r = true) ↔
      (∃ p ∈ paths, q.same p = true) ∧ ¬∃ p ∈ current, q.same p = true := by
  obtain ⟨hread, hmem⟩ := fingerprints_spec h
  have hremoved : ∀ r, r ∈ (known.changes after current).removed ↔
      (∃ e ∈ known.toList, e.1 = r) ∧ ¬∃ p ∈ current, r.same p = true := by
    intro r
    rw [Fingerprints.changes, List.mem_filter, SortedMap.keys, List.mem_map]
    simp
  simp only [hremoved, Path.same_iff]
  constructor
  · rintro ⟨_, ⟨⟨e, he, rfl⟩, hno⟩, hq⟩
    obtain ⟨p, hp, heq, _⟩ := hmem e he
    rw [hq]
    exact ⟨⟨p, hp, (Path.compare_eq_iff.mp heq).symm⟩, hno⟩
  · rintro ⟨⟨p, hp, hq⟩, hno⟩
    obtain ⟨f, _, hget⟩ := hread p hp
    obtain ⟨e, he, heq, _⟩ := SortedMap.exists_of_get?_eq_some hget
    rw [hq, Path.compare_eq_iff.mp heq] at hno ⊢
    exact ⟨e.1, ⟨⟨e, he, rfl⟩, hno⟩, rfl⟩

theorem mem_modified_iff (h : fingerprints before paths = .ok known)
    (hhash : HashTells before paths after current) :
    q ∈ (known.changes after current).modified ↔
      q ∈ current ∧ ∃ p ∈ paths, q.same p = true ∧ after.read q ≠ before.read p ∧
        ¬SameStamp before p after q := by
  have hchanged : ∀ p ∈ paths, q ∈ current → q.same p = true →
      ((known.get? q).any (·.changed after q) = true ↔
        after.read q ≠ before.read p ∧ ¬SameStamp before p after q) := by
    intro p hp hq hsame
    obtain ⟨f, hread, hget⟩ := get?_of_same h hp hsame
    rw [hget, Option.any_some, Fingerprint.changed, Bool.and_eq_true,
      Fingerprint.quickChanged_iff hread,
      Fingerprint.contentChanged_iff hread (hhash p hp q hq hsame), and_comm]
  rw [Fingerprints.changes, Path.mem_sorted, List.mem_filter]
  refine and_congr_right fun hq => ⟨fun hany => ?_, ?_⟩
  · by_cases hknown : ∃ p ∈ paths, q.same p = true
    · obtain ⟨p, hp, hsame⟩ := hknown
      exact ⟨p, hp, hsame, (hchanged p hp hq hsame).mp hany⟩
    · rw [get?_of_not_same h hknown] at hany
      exact absurd hany Bool.false_ne_true
  · rintro ⟨p, hp, hsame, hedit⟩
    exact (hchanged p hp hq hsame).mpr hedit

/-- A path is reported as added if it is new, as removed if it is there no more, and as modified if
its content is another, or cannot be read, and its size or its time is another too, or is not told.
Nothing is assumed about how what is told of a path and what can be read of it go together. -/
theorem changes_iff_of_fingerprints (h : fingerprints before paths = .ok known)
    (hhash : HashTells before paths after current) (q : Path) :
    (q ∈ (known.changes after current).added ↔ q ∈ current ∧ ¬∃ p ∈ paths, q.same p = true) ∧
    ((∃ r ∈ (known.changes after current).removed, q.same r = true) ↔
      (∃ p ∈ paths, q.same p = true) ∧ ¬∃ p ∈ current, q.same p = true) ∧
    (q ∈ (known.changes after current).modified ↔
      q ∈ current ∧ ∃ p ∈ paths, q.same p = true ∧ after.read q ≠ before.read p ∧
        ¬SameStamp before p after q) :=
  ⟨mem_added_iff h, exists_removed_iff h, mem_modified_iff h hhash⟩

section Desk

/-- Files in the working directory, each with one byte and its time. -/
def desk (files : List (String × UInt8 × Nat)) : FileSystem where
  entries := .ofList (files.map fun f => ([f.1], .file ⟨#[f.2.1]⟩ f.2.2))

def deskBefore : FileSystem :=
  desk [("edited", 1, 5), ("touched", 2, 5), ("hidden", 3, 5), ("swapped", 8, 5), ("gone", 4, 5)]

def pathsBefore : List Path :=
  [⟨"edited"⟩, ⟨"touched"⟩, ⟨"hidden"⟩, ⟨"swapped"⟩, ⟨"gone"⟩]

/-- One of the files has become a directory, of the same length and within the same second. -/
def deskAfter : FileSystem :=
  { desk [("edited", 5, 6), ("touched", 2, 6), ("hidden", 6, 5), ("new", 7, 6)] with
    directories := fun _ => ⟨.ok 5400000000, 1⟩ }.put ["swapped"] .directory

def pathsAfter : List Path :=
  [⟨"edited"⟩, ⟨"touched"⟩, ⟨"hidden"⟩, ⟨"swapped"⟩, ⟨"new"⟩]

/-- What evaluation tells of the two states; all else about them is derived from it. -/
theorem evaluated_desk :
    (fingerprints deskBefore pathsBefore).isOk = true ∧
    (∀ p ∈ pathsBefore ++ pathsAfter, ∀ q ∈ pathsBefore ++ pathsAfter,
      q.same p = true → q = p) ∧
    SipHash.fingerprint ⟨#[5]⟩ ≠ SipHash.fingerprint ⟨#[1]⟩ ∧
    SipHash.fingerprint ⟨#[6]⟩ ≠ SipHash.fingerprint ⟨#[3]⟩ ∧
    deskBefore.entry ⟨"edited"⟩ = .ok (.file ⟨#[1]⟩ 5) ∧
    deskAfter.entry ⟨"edited"⟩ = .ok (.file ⟨#[5]⟩ 6) ∧
    deskBefore.entry ⟨"touched"⟩ = .ok (.file ⟨#[2]⟩ 5) ∧
    deskAfter.entry ⟨"touched"⟩ = .ok (.file ⟨#[2]⟩ 6) ∧
    deskBefore.entry ⟨"hidden"⟩ = .ok (.file ⟨#[3]⟩ 5) ∧
    deskAfter.entry ⟨"hidden"⟩ = .ok (.file ⟨#[6]⟩ 5) ∧
    deskBefore.entry ⟨"swapped"⟩ = .ok (.file ⟨#[8]⟩ 5) ∧
    deskAfter.entry ⟨"swapped"⟩ = .ok .directory := by decide +kernel

theorem exists_fingerprints_desk : ∃ known, fingerprints deskBefore pathsBefore = .ok known := by
  have hok := evaluated_desk.1
  cases hknown : fingerprints deskBefore pathsBefore with
  | error e => rw [hknown] at hok; nomatch hok
  | ok known => exact ⟨known, rfl⟩

theorem eq_of_same_desk {p q : Path} (hp : p ∈ pathsBefore ++ pathsAfter)
    (hq : q ∈ pathsBefore ++ pathsAfter) (h : q.same p = true) : q = p :=
  evaluated_desk.2.1 p hp q hq h

theorem read_desk :
    deskBefore.read ⟨"edited"⟩ = .ok ⟨#[1]⟩ ∧ deskAfter.read ⟨"edited"⟩ = .ok ⟨#[5]⟩ ∧
    deskBefore.read ⟨"touched"⟩ = .ok ⟨#[2]⟩ ∧ deskAfter.read ⟨"touched"⟩ = .ok ⟨#[2]⟩ ∧
    deskBefore.read ⟨"hidden"⟩ = .ok ⟨#[3]⟩ ∧ deskAfter.read ⟨"hidden"⟩ = .ok ⟨#[6]⟩ ∧
    deskAfter.read ⟨"swapped"⟩ = .error .isADirectory := by
  obtain ⟨-, -, -, -, he, he', ht, ht', hh, hh', -, hs'⟩ := evaluated_desk
  simp only [FileSystem.read_eq_ok_iff_entry]
  exact ⟨⟨_, he⟩, ⟨_, he'⟩, ⟨_, ht⟩, ⟨_, ht'⟩, ⟨_, hh⟩, ⟨_, hh'⟩, by rw [FileSystem.read, hs']; rfl⟩

/-- The time and size of these two did not change, as far as they are compared. -/
theorem sameStamp_desk : SameStamp deskBefore ⟨"hidden"⟩ deskAfter ⟨"hidden"⟩ ∧
    SameStamp deskBefore ⟨"swapped"⟩ deskAfter ⟨"swapped"⟩ := by
  obtain ⟨-, -, -, -, -, -, -, -, hh, hh', hs, hs'⟩ := evaluated_desk
  constructor
  · exact ⟨_, _, FileSystem.metadata_eq_ok_iff.mpr (.inr ⟨_, _, hh, rfl⟩),
      FileSystem.metadata_eq_ok_iff.mpr (.inr ⟨_, _, hh', rfl⟩), rfl, rfl⟩
  · exact ⟨_, _, FileSystem.metadata_eq_ok_iff.mpr (.inr ⟨_, _, hs, rfl⟩),
      FileSystem.metadata_eq_ok_iff.mpr (.inl ⟨hs', rfl⟩), by decide, rfl⟩

theorem hashTells_desk : HashTells deskBefore pathsBefore deskAfter pathsAfter := by
  obtain ⟨-, -, hedited, hhidden, -⟩ := evaluated_desk
  obtain ⟨he, he', ht, ht', hh, hh', hs'⟩ := read_desk
  intro p hp q hq hsame content content' hread hread' hhash
  obtain rfl := eq_of_same_desk (List.mem_append_left _ hp) (List.mem_append_right _ hq) hsame
  simp only [pathsBefore, List.mem_cons, List.not_mem_nil, or_false] at hp
  rcases hp with rfl | rfl | rfl | rfl | rfl
  · cases he.symm.trans hread
    cases he'.symm.trans hread'
    exact absurd hhash hedited
  · cases ht.symm.trans hread
    cases ht'.symm.trans hread'
    rfl
  · cases hh.symm.trans hread
    cases hh'.symm.trans hread'
    exact absurd hhash hhidden
  · cases hs'.symm.trans hread'
  · exact absurd hq (by decide)

/-- What is new, gone or edited is told; what was only touched, or lost its content without a
change of length or second, is not. -/
theorem changes_iff_of_fingerprints_desk :
    ∃ known, fingerprints deskBefore pathsBefore = .ok known ∧
      HashTells deskBefore pathsBefore deskAfter pathsAfter ∧
      ⟨"new"⟩ ∈ (known.changes deskAfter pathsAfter).added ∧
      (∃ r ∈ (known.changes deskAfter pathsAfter).removed, Path.same ⟨"gone"⟩ r = true) ∧
      ⟨"edited"⟩ ∈ (known.changes deskAfter pathsAfter).modified ∧
      ⟨"touched"⟩ ∉ (known.changes deskAfter pathsAfter).modified ∧
      ⟨"swapped"⟩ ∉ (known.changes deskAfter pathsAfter).modified := by
  obtain ⟨known, hknown⟩ := exists_fingerprints_desk
  obtain ⟨-, -, -, -, hedited, hedited', -⟩ := evaluated_desk
  obtain ⟨he, he', ht, ht', -⟩ := read_desk
  have hiff := changes_iff_of_fingerprints hknown hashTells_desk
  refine ⟨known, hknown, hashTells_desk, (hiff _).1.mpr ⟨by decide, ?_⟩,
    (hiff _).2.1.mpr ⟨⟨⟨"gone"⟩, by decide, Path.same_iff.mpr rfl⟩, ?_⟩, (hiff _).2.2.mpr ?_,
    fun h => ?_, fun h => ?_⟩
  · rintro ⟨p, hp, hsame⟩
    rw [← eq_of_same_desk (List.mem_append_left _ hp) (by decide) hsame] at hp
    exact absurd hp (by decide)
  · rintro ⟨p, hp, hsame⟩
    rw [← eq_of_same_desk (List.mem_append_right _ hp) (by decide) hsame] at hp
    exact absurd hp (by decide)
  · refine ⟨by decide, ⟨"edited"⟩, by decide, Path.same_iff.mpr rfl, ?_, ?_⟩
    · show deskAfter.read _ ≠ deskBefore.read _
      simp [he, he']
    · rintro ⟨m, m', hm, hm', hseconds, _⟩
      have hold := FileSystem.metadata_eq_ok_iff.mpr (.inr ⟨_, _, hedited, rfl⟩)
      have hnew := FileSystem.metadata_eq_ok_iff.mpr (.inr ⟨_, _, hedited', rfl⟩)
      cases hold.symm.trans hm
      cases hnew.symm.trans hm'
      exact absurd hseconds (by decide)
  · obtain ⟨_, p, hp, hsame, hread, _⟩ := (hiff _).2.2.mp h
    rw [← eq_of_same_desk (List.mem_append_left _ hp) (by decide) hsame] at hread
    exact hread (ht'.trans ht.symm)
  · obtain ⟨_, p, hp, hsame, _, hstamp⟩ := (hiff _).2.2.mp h
    rw [← eq_of_same_desk (List.mem_append_left _ hp) (by decide) hsame] at hstamp
    exact hstamp sameStamp_desk.2

/-- An edit that keeps the size, within the same second, is not seen. -/
theorem edit_within_second_not_modified :
    ∃ known, fingerprints deskBefore pathsBefore = .ok known ∧
      HashTells deskBefore pathsBefore deskAfter pathsAfter ∧
      ⟨"hidden"⟩ ∈ pathsBefore ∧ ⟨"hidden"⟩ ∈ pathsAfter ∧
      deskAfter.read ⟨"hidden"⟩ ≠ deskBefore.read ⟨"hidden"⟩ ∧
      ⟨"hidden"⟩ ∉ (known.changes deskAfter pathsAfter).modified := by
  obtain ⟨known, hknown⟩ := exists_fingerprints_desk
  obtain ⟨-, -, -, -, hh, hh', -⟩ := read_desk
  refine ⟨known, hknown, hashTells_desk, by decide, by decide, by simp [hh, hh'], fun h => ?_⟩
  obtain ⟨_, p, hp, hsame, _, hstamp⟩ := (mem_modified_iff hknown hashTells_desk).mp h
  rw [← eq_of_same_desk (List.mem_append_left _ hp) (by decide) hsame] at hstamp
  exact hstamp sameStamp_desk.1

end Desk

end Project

end Winnow
