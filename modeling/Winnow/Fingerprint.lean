import Winnow.Data.Decode
import Winnow.FileSystem
import Winnow.SipHash

/-!
# Fingerprints

How the files of one run are told from those of the next. A file whose time
and size are the same is taken for unchanged; otherwise its content decides.

Time and size can be told of more than what can be read: of a directory, or of
a file that may not be read. So what the system tells of a path and what it
gives to read are two questions, and a fingerprint asks both.
-/
namespace Winnow

/-- What the system answers about paths. -/
structure FileView where
  metadata : Path → Except FileError Metadata
  read : Path → Except FileError ByteArray
  /-- Two texts of one path lead to the same. -/
  metadata_unique : ∀ p q m m', p.components = q.components → metadata p = .ok m →
    metadata q = .ok m' → m = m'
  read_unique : ∀ p q content content', p.components = q.components → read p = .ok content →
    read q = .ok content' → content = content'

namespace FileSystem

variable {fs : FileSystem} {p q : Path}

theorem locate_unique {a b : Place} (h : p.components = q.components) (hp : fs.locate p = .ok a)
    (hq : fs.locate q = .ok b) : a = b := by
  have hfold : ∀ (r : Path) (c : Place), fs.locate r = .ok c →
      r.components.foldlM fs.descend [] = .ok c := by
    intro r c hr
    unfold locate at hr
    split at hr
    · cases hr
    · split at hr
      · cases hr
      · exact hr
  exact Except.ok.inj ((hfold p a hp).symm.trans (h ▸ hfold q b hq))

theorem entry_unique {e e' : FileEntry} (h : p.components = q.components)
    (hp : fs.entry p = .ok e) (hq : fs.entry q = .ok e') : e = e' := by
  have hat : ∀ (r : Path) (k : FileEntry), fs.entry r = .ok k →
      ∃ a, fs.locate r = .ok a ∧ fs.entryAt a = some k := by
    intro r k hr
    unfold entry at hr
    cases ha : fs.locate r with
    | error x => rw [ha] at hr; cases hr
    | ok a =>
      rw [ha] at hr
      refine ⟨a, rfl, ?_⟩
      simp only [bind, Except.bind] at hr
      split at hr
      next => cases hr
      next hk => cases hr; exact hk
      next content mtime hk =>
        split at hr
        · cases hr
        · cases hr; exact hk
  obtain ⟨a, ha, hk⟩ := hat p e hp
  obtain ⟨b, hb, hk'⟩ := hat q e' hq
  rw [locate_unique h ha hb, hk'] at hk
  exact (Option.some.inj hk).symm

/-- What is told of the files of a file system. -/
def view (fs : FileSystem) : FileView where
  metadata := fs.metadata
  read := fs.read
  metadata_unique p q m m' h hp hq := by
    have hplace : p.place = q.place := congrArg (List.foldl Component.step []) h
    simp only [metadata, hplace] at hp hq
    cases he : fs.entry p with
    | error x => rw [he] at hp; cases hp
    | ok e =>
      cases he' : fs.entry q with
      | error x => rw [he'] at hq; cases hq
      | ok e' =>
        rw [he, entry_unique h he he'] at hp
        rw [he'] at hq
        exact Except.ok.inj (hp.symm.trans hq)
  read_unique p q content content' h hp hq := by
    simp only [read] at hp hq
    cases he : fs.entry p with
    | error x => rw [he] at hp; cases hp
    | ok e =>
      cases he' : fs.entry q with
      | error x => rw [he'] at hq; cases hq
      | ok e' =>
        rw [he, entry_unique h he he'] at hp
        rw [he'] at hq
        exact Except.ok.inj (hp.symm.trans hq)

instance : Coe FileSystem FileView := ⟨view⟩

end FileSystem

structure Fingerprint where
  mtime : Nat
  size : Nat
  contentHash : String
deriving DecidableEq, Repr

/-- The time as it is compared; one that is not told counts as none. -/
def Metadata.mtime (m : Metadata) : Nat :=
  match m.modified with
  | .ok time => wholeSeconds time
  | .error _ => 0

namespace Fingerprint

def read (view : FileView) (p : Path) : Except FileError Fingerprint := do
  let metadata ← view.metadata p
  let time ← metadata.modified
  let content ← view.read p
  return ⟨Metadata.wholeSeconds time, metadata.length, SipHash.fingerprint content⟩

/-- Time or size differ, or nothing is told of the path any more. -/
def quickChanged (f : Fingerprint) (view : FileView) (p : Path) : Bool :=
  match view.metadata p with
  | .ok metadata => metadata.mtime ≠ f.mtime || metadata.length ≠ f.size
  | .error _ => true

def contentChanged (f : Fingerprint) (view : FileView) (p : Path) : Bool :=
  match view.read p with
  | .ok content => SipHash.fingerprint content ≠ f.contentHash
  | .error _ => true

def changed (f : Fingerprint) (view : FileView) (p : Path) : Bool :=
  f.quickChanged view p && f.contentChanged view p

def toData (f : Fingerprint) : Data :=
  .record [("mtime", .natural f.mtime), ("size", .natural f.size),
    ("content_hash", .string f.contentHash)]

def ofData : Decoder Fingerprint := fun d => do
  let fields ← Fields.of ["mtime", "size", "content_hash"] d
  return ⟨← fields.required "mtime" Data.asNatural, ← fields.required "size" Data.asNatural,
    ← fields.required "content_hash" Data.asString⟩

end Fingerprint

/-- The files of a run with their fingerprints. -/
abbrev Fingerprints := SortedMap Path Fingerprint

/-- How files differ from those of an earlier run. -/
structure FileChanges where
  added : List Path := []
  removed : List Path := []
  modified : List Path := []
deriving DecidableEq, Repr

namespace FileChanges

def isEmpty (c : FileChanges) : Bool := c.added.isEmpty && c.removed.isEmpty && c.modified.isEmpty

end FileChanges

def Path.sorted (paths : List Path) : List Path := paths.mergeSort fun p q => (compare p q).isLE

namespace Fingerprints

/-- Compares the files there are now with those known. -/
def changes (known : Fingerprints) (view : FileView) (current : List Path) : FileChanges where
  added := Path.sorted (current.filter fun p => !known.contains p)
  removed := known.keys.filter fun p => !current.any p.same
  modified := Path.sorted (current.filter fun p => (known.get? p).any (·.changed view p))

end Fingerprints

end Winnow
