import Winnow.Proofs.FileSystem
import Winnow.Proofs.Snapshot.Codec

/-!
# Snapshots saved

A snapshot that is saved can be read from its file. Nothing but that file and the draft beside it
is touched, and as the draft is moved away there is room for the next snapshot.
-/
namespace Winnow

open FileSystem

/-- The clock has moved on, and nothing else has changed. -/
def FileSystem.later (fs : FileSystem) (now : Nat) : FileSystem := { fs with now }

/-- The path of a snapshot's draft. -/
def Path.draft (p : Path) : Path := p.withExtension "json.tmp"

namespace Snapshot

variable {s : Snapshot} {p : Path} {fs fs' : FileSystem}

/-- The text of a snapshot's file. -/
def text (s : Snapshot) : String := Json.compact s.toData

/-- There is room for a snapshot and its draft, their directories are there, and no draft is left
over. -/
structure Room (p : Path) (fs : FileSystem) : Prop where
  parents : fs.createParents p = .ok fs
  draft : fs.locateForWriting p.draft = .ok p.draft.place
  target : fs.locateForWriting p = .ok p.place
  free : p.draft.place ≠ p.place → fs.entryAt p.draft.place = none

theorem Room.later (h : Room p fs) (now : Nat) : Room p (fs.later now) := by
  obtain ⟨hnul, hwalks, hlast⟩ := createParents_eq_self_iff.mp h.parents
  have hparents : (fs.later now).createParents p = .ok (fs.later now) :=
    createParents_eq_self_iff.mpr ⟨hnul, hwalks.congr fun _ hd => hd, hlast⟩
  exact ⟨hparents, h.draft, h.target, h.free⟩

theorem place_of_locateForWriting {q : Place} (h : fs.locateForWriting p = .ok q) : q = p.place :=
  (locate_eq_ok_iff.mp (locateForWriting_eq_ok_iff.mp h).1).2.2.2

theorem locateForWriting_of_write {content : ByteArray} (h : fs.write p content = .ok fs') :
    fs.locateForWriting p = .ok p.place := by
  unfold write writeAt at h
  cases hq : fs.locateForWriting p with
  | error e => simp [hq, bind, Except.bind] at h
  | ok q => rw [place_of_locateForWriting hq]

theorem save_eq_ok_iff : s.save p fs = .ok () fs' ↔ ∃ fs₁ fs₂, fs.createParents p = .ok fs₁ ∧
    fs₁.write p.draft s.text.toUTF8 = .ok fs₂ ∧ fs₂.rename p.draft p = .ok fs' := by
  unfold save
  simp only [Disk.bind_eq_ok_iff, Disk.change_eq_ok_iff]
  constructor
  · rintro ⟨_, fs₁, hparents, _, fs₂, hwrite, hrename⟩
    exact ⟨fs₁, fs₂, hparents, hwrite, hrename⟩
  · rintro ⟨fs₁, fs₂, hparents, hwrite, hrename⟩
    exact ⟨(), fs₁, hparents, (), fs₂, hwrite, hrename⟩

theorem save_spec (h : s.save p fs = .ok () fs') :
    Touches fs fs' [p.draft.place, p.place] ∧ fs'.read p = .ok s.text.toUTF8 ∧ Room p fs' := by
  obtain ⟨fs₁, fs₂, hparents, hwrite, hrename⟩ := save_eq_ok_iff.mp h
  obtain ⟨hmade, hthere⟩ := createParents_spec hparents
  obtain ⟨hdraft, _, hread⟩ := write_spec hwrite
  obtain ⟨hmoved, hread', htarget, hfree, _⟩ := rename_spec hrename hread
  have hlater : Touches fs₁ fs' [p.draft.place, p.place] :=
    (hdraft.mono fun q hq => by simp [List.mem_singleton.mp hq]).trans hmoved
  have hnone : fs'.entryAt p.draft.place ≠ some .directory := by
    by_cases hsame : p.draft.place = p.place
    · rwa [hsame]
    · rw [hfree hsame]
      nofun
  refine ⟨(hmade.mono nofun).trans hlater, hread', hlater.createParents hthere, ?_, ?_, hfree⟩
  · exact hlater.locateForWriting (locateForWriting_of_write hwrite) hnone
  · obtain ⟨_, _, _, hroom, _⟩ := rename_eq_ok_iff.mp hrename
    exact hmoved.locateForWriting hroom htarget

/-- Where there is room any snapshot can be saved, and nothing changes but its file. -/
theorem Room.exists_save (hr : Room p fs) (s : Snapshot) :
    ∃ fs', s.save p fs = .ok () fs' ∧ ∀ q ≠ p.place, fs'.entryAt q = fs.entryAt q := by
  have hwrite : fs.write p.draft s.text.toUTF8 =
      .ok (fs.put p.draft.place (.file s.text.toUTF8 fs.now)) := by
    unfold write writeAt
    rw [hr.draft]
    rfl
  have hput : ∀ q, (fs.put p.draft.place (.file s.text.toUTF8 fs.now)).entryAt q =
      if q = p.draft.place then some (.file s.text.toUTF8 fs.now) else fs.entryAt q := fun q =>
    entryAt_put (entryAt_ne_nil (locateForWriting_eq_ok_iff.mp hr.draft).2.2.1) _
  generalize fs.put p.draft.place (.file s.text.toUTF8 fs.now) = fs₂ at hwrite hput
  obtain ⟨htouches, _, hread⟩ := write_spec hwrite
  obtain ⟨mtime, hentry⟩ := read_eq_ok_iff_entry.mp hread
  have hroom : fs₂.locateForWriting p = .ok p.place := by
    refine htouches.locateForWriting hr.target ?_
    rw [hput]
    split
    · nofun
    · exact (locateForWriting_eq_ok_iff.mp hr.target).2.2.1
  have hrename := rename_eq_ok_iff.mpr ⟨_, mtime, hentry, hroom, rfl⟩
  obtain ⟨_, _, _, hgone, hrest⟩ := rename_spec hrename hread
  refine ⟨_, save_eq_ok_iff.mpr ⟨fs, fs₂, hr.parents, hwrite, hrename⟩, fun q hq => ?_⟩
  by_cases hdraft : q = p.draft.place
  · have hne : p.draft.place ≠ p.place := hdraft ▸ hq
    rw [hdraft, hgone hne, hr.free hne]
  · rw [hrest q (by simp [hq, hdraft]), hput, if_neg hdraft]

/-- A snapshot that was saved where there was room is loaded as it was. -/
theorem Room.load_outcome_save (hr : Room p fs) (hs : s.Portable) :
    load (Disk.outcome (s.save p) fs) p = .ok s ∧
      Touches fs (Disk.outcome (s.save p) fs) [p.draft.place, p.place] := by
  obtain ⟨fs', hsave, _⟩ := hr.exists_save s
  obtain ⟨htouches, hread, _⟩ := save_spec hsave
  have hdisk : Disk.outcome (s.save p) fs = fs' := by rw [Disk.outcome, hsave]
  rw [hdisk]
  exact ⟨load_of_read hs hread, htouches⟩

end Snapshot

end Winnow
