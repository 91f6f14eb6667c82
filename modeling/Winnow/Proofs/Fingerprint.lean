import Winnow.Proofs.FileSystem
import Winnow.Run

/-!
# Files that are not seen to change

The fingerprints of some files tell nothing new as long as each file can be read as before. Two
texts of one path lead to one file, so it does not matter under which of them it is entered.
-/
namespace Winnow

theorem Component.rank_injective : Function.Injective Component.rank := by
  intro c d h
  have hlist := congrArg String.toList h
  cases c <;> cases d <;> simp [rank] at hlist ⊢
  exact String.toList_inj.mp hlist

/-- Paths are compared by their components. -/
theorem Path.compare_eq_iff {p q : Path} : compare p q = .eq ↔ p.components = q.components := by
  show compare p.rank q.rank = .eq ↔ _
  rw [Std.LawfulEqCmp.compare_eq_iff_eq, rank, rank,
    List.map_inj_right fun _ _ h => Component.rank_injective h]

namespace SortedMap

variable {κ β : Type} [Ord κ] [Std.TransOrd κ] {i k : κ} {v : β} {e : κ × β} {m : SortedMap κ β}

theorem get?_congr (h : compare i k = .eq) : m.get? i = m.get? k := by
  have hlookup : ∀ l : List (κ × β), Sorted.lookup i l = Sorted.lookup k l := by
    intro l
    induction l with
    | nil => rfl
    | cons e l ih =>
      have hkey : compare i e.1 = compare k e.1 := Std.TransCmp.congr_left h
      rw [Sorted.lookup, Sorted.lookup, hkey, ih]
  exact hlookup m.toList

theorem mem_toList_insert (h : e ∈ (m.insert k v).toList) :
    e ∈ m.toList ∨ compare k e.1 = .eq ∧ e.2 = v := by
  have hput : ∀ l : List (κ × β), e ∈ Sorted.put k v l → e ∈ l ∨ compare k e.1 = .eq ∧ e.2 = v := by
    intro l
    induction l with
    | nil =>
      intro h
      rw [List.mem_singleton.mp h]
      exact .inr ⟨Std.ReflCmp.compare_self, rfl⟩
    | cons x l ih =>
      obtain ⟨j, w⟩ := x
      intro h
      simp only [Sorted.put] at h
      split at h
      next =>
        rcases List.mem_cons.mp h with rfl | h
        · exact .inr ⟨Std.ReflCmp.compare_self, rfl⟩
        · exact .inl h
      next hkj =>
        rcases List.mem_cons.mp h with rfl | h
        · exact .inr ⟨hkj, rfl⟩
        · exact .inl (List.mem_cons_of_mem _ h)
      next =>
        rcases List.mem_cons.mp h with rfl | h
        · exact .inl List.mem_cons_self
        · exact (ih h).imp_left (List.mem_cons_of_mem _)
  exact hput m.toList h

end SortedMap

namespace FileSystem

variable {fs : FileSystem} {p : Path} {m : Metadata}

theorem metadata_eq_ok_iff : fs.metadata p = .ok m ↔
    (fs.entry p = .ok .directory ∧ m = fs.directories p.place) ∨
      ∃ content mtime, fs.entry p = .ok (.file content mtime) ∧
        m = ⟨.ok (mtime * 1000000000), content.size⟩ := by
  unfold metadata
  cases fs.entry p with
  | error e => simp [bind, Except.bind]
  | ok e => cases e <;> simp [bind, Except.bind, pure, Except.pure, eq_comm]

end FileSystem

theorem Metadata.wholeSeconds_mul (n : Nat) : wholeSeconds (n * 1000000000) = n := by
  unfold wholeSeconds
  omega

namespace Fingerprint

variable {view : FileView} {fs fs' : FileSystem} {p q : Path} {f f' : Fingerprint}
  {places : List Place}

/-- All that a fingerprint takes is there. -/
theorem read_eq_ok_iff : read view p = .ok f ↔
    ∃ m time content, view.metadata p = .ok m ∧ m.modified = .ok time ∧ view.read p = .ok content ∧
      f = ⟨Metadata.wholeSeconds time, m.length, SipHash.fingerprint content⟩ := by
  unfold read
  cases view.metadata p with
  | error e => simp [bind, Except.bind]
  | ok m =>
    cases hm : m.modified with
    | error e => simp [bind, Except.bind, hm]
    | ok time =>
      cases view.read p with
      | error e => simp [bind, Except.bind, hm]
      | ok content => simp [bind, Except.bind, hm, pure, Except.pure, eq_comm]

/-- The fingerprint of a file with the time in seconds. -/
def ofFile (content : ByteArray) (mtime : Nat) : Fingerprint :=
  ⟨mtime, content.size, SipHash.fingerprint content⟩

theorem read_eq_ok_iff_entry : read fs p = .ok f ↔
    ∃ content mtime, fs.entry p = .ok (.file content mtime) ∧ f = ofFile content mtime := by
  rw [read_eq_ok_iff]
  constructor
  · rintro ⟨m, time, content, hm, htime, hread, rfl⟩
    obtain ⟨mtime, he⟩ := FileSystem.read_eq_ok_iff_entry.mp hread
    rcases FileSystem.metadata_eq_ok_iff.mp hm with ⟨hd, _⟩ | ⟨content', mtime', he', rfl⟩
    · cases he.symm.trans hd
    · cases he.symm.trans he'
      obtain rfl := Except.ok.inj htime
      exact ⟨content, mtime, he, by rw [Metadata.wholeSeconds_mul]; rfl⟩
  · rintro ⟨content, mtime, he, rfl⟩
    refine ⟨_, _, content, FileSystem.metadata_eq_ok_iff.mpr (.inr ⟨content, mtime, he, rfl⟩), rfl,
      FileSystem.read_eq_ok_iff_entry.mpr ⟨mtime, he⟩, ?_⟩
    rw [Metadata.wholeSeconds_mul]
    rfl

theorem read_of_touches (h : fs.Touches fs' places) (hp : p.place ∉ places)
    (hr : read fs p = .ok f) : read fs' p = .ok f := by
  obtain ⟨content, mtime, he, rfl⟩ := read_eq_ok_iff_entry.mp hr
  exact read_eq_ok_iff_entry.mpr ⟨content, mtime, h.entry hp he, rfl⟩

/-- Two texts of one path lead to one file. -/
theorem eq_of_components_eq (h : p.components = q.components) (hp : read view p = .ok f)
    (hq : read view q = .ok f') : f = f' := by
  obtain ⟨m, time, content, hm, htime, hread, rfl⟩ := read_eq_ok_iff.mp hp
  obtain ⟨m', time', content', hm', htime', hread', rfl⟩ := read_eq_ok_iff.mp hq
  obtain rfl := view.metadata_unique p q m m' h hm hm'
  obtain rfl := view.read_unique p q content content' h hread hread'
  rw [Except.ok.inj (htime.symm.trans htime')]

/-- What there is now is compared with what there was. -/
theorem changed_iff_of_read (h : read view p = .ok f') : f.changed view p = true ↔
    (f'.mtime ≠ f.mtime ∨ f'.size ≠ f.size) ∧ f'.contentHash ≠ f.contentHash := by
  obtain ⟨m, time, content, hm, htime, hread, rfl⟩ := read_eq_ok_iff.mp h
  simp [changed, quickChanged, contentChanged, hm, Metadata.mtime, htime, hread]

theorem changed_of_read (h : read view p = .ok f) : f.changed view p = false :=
  Bool.eq_false_iff.mpr fun hchanged => ((changed_iff_of_read h).mp hchanged).2 rfl

end Fingerprint

namespace Project

variable {view view' : FileView} {paths : List Path} {known acc : Fingerprints}

/-- One more file with its fingerprint. -/
def enter (view : FileView) (known : Fingerprints) (path : Path) :
    Except SnapshotError Fingerprints :=
  match Fingerprint.read view path with
  | .ok fingerprint => .ok (known.insert path fingerprint)
  | .error e => .error (.fingerprint path e.message)

theorem foldlM_enter_spec (h : paths.foldlM (enter view) acc = .ok known) :
    (∀ p ∈ paths, ∃ f, Fingerprint.read view p = .ok f ∧ known.get? p = some f) ∧
    (∀ q, (∀ p ∈ paths, compare q p ≠ .eq) → known.get? q = acc.get? q) ∧
    ∀ e ∈ known.toList, e ∈ acc.toList ∨
      ∃ p ∈ paths, compare p e.1 = .eq ∧ Fingerprint.read view p = .ok e.2 := by
  induction paths generalizing acc with
  | nil =>
    cases h
    exact ⟨nofun, fun _ _ => rfl, fun e he => .inl he⟩
  | cons p paths ih =>
    rw [List.foldlM_cons] at h
    cases hr : Fingerprint.read view p with
    | error e => simp [enter, hr, bind, Except.bind] at h
    | ok f =>
      simp only [enter, hr, bind, Except.bind] at h
      obtain ⟨hread, hother, hmem⟩ := ih h
      refine ⟨fun q hq => ?_, fun q hq => ?_, fun e he => ?_⟩
      · rcases List.mem_cons.mp hq with rfl | hq
        · refine ⟨f, hr, ?_⟩
          by_cases hlater : ∃ p' ∈ paths, compare q p' = .eq
          · -- The same path comes once more, under another text perhaps, and counts then.
            obtain ⟨p', hp', heq⟩ := hlater
            obtain ⟨f', hr', hget⟩ := hread p' hp'
            rw [SortedMap.get?_congr heq, hget,
              Fingerprint.eq_of_components_eq (Path.compare_eq_iff.mp heq) hr hr']
          · rw [hother q fun p' hp' heq => hlater ⟨p', hp', heq⟩, SortedMap.get?_insert_self]
        · exact hread q hq
      · rw [hother q fun p' hp' => hq p' (List.mem_cons_of_mem p hp'),
          SortedMap.get?_insert_of_ne (hq p List.mem_cons_self)]
      · rcases hmem e he with he | ⟨p', hp', heq, hr'⟩
        · rcases SortedMap.mem_toList_insert he with he | ⟨heq, hf⟩
          · exact .inl he
          · exact .inr ⟨p, List.mem_cons_self, heq, hf ▸ hr⟩
        · exact .inr ⟨p', List.mem_cons_of_mem p hp', heq, hr'⟩

theorem fingerprints_spec (h : fingerprints view paths = .ok known) :
    (∀ p ∈ paths, ∃ f, Fingerprint.read view p = .ok f ∧ known.get? p = some f) ∧
    ∀ e ∈ known.toList, ∃ p ∈ paths, compare p e.1 = .eq ∧ Fingerprint.read view p = .ok e.2 := by
  obtain ⟨hread, _, hmem⟩ := foldlM_enter_spec h
  exact ⟨hread, fun e he => (hmem e he).resolve_left nofun⟩

/-- Files that are read as before have not changed. -/
theorem changes_fingerprints (h : fingerprints view paths = .ok known)
    (hsame : ∀ p ∈ paths, ∀ f, Fingerprint.read view p = .ok f → Fingerprint.read view' p = .ok f) :
    known.changes view' paths = {} := by
  obtain ⟨hread, hmem⟩ := fingerprints_spec h
  have hadded : (paths.filter fun p => !known.contains p) = [] := by
    rw [List.filter_eq_nil_iff]
    intro p hp
    obtain ⟨f, _, hget⟩ := hread p hp
    simp [SortedMap.contains, hget]
  have hremoved : (known.keys.filter fun p => !paths.any p.same) = [] := by
    rw [List.filter_eq_nil_iff]
    intro p hp
    obtain ⟨e, he, rfl⟩ := List.mem_map.mp hp
    obtain ⟨q, hq, heq, _⟩ := hmem e he
    have hsame : e.1.same q = true := decide_eq_true (Path.compare_eq_iff.mp heq).symm
    simp only [Bool.not_eq_true, Bool.not_eq_false', List.any_eq_true]
    exact ⟨q, hq, hsame⟩
  have hmodified : (paths.filter fun p => (known.get? p).any (·.changed view' p)) = [] := by
    rw [List.filter_eq_nil_iff]
    intro p hp
    obtain ⟨f, hr, hget⟩ := hread p hp
    simp [hget, Fingerprint.changed_of_read (hsame p hp f hr)]
  unfold Fingerprints.changes
  rw [hadded, hremoved, hmodified]
  simp [Path.sorted]

end Project

end Winnow
