import Winnow.Path
import Winnow.Sorted.Map

/-!
# File systems

A tree of files as a value. Files are found by the names on the way to them
from the working directory, from one above it or from the root; a path is
resolved step by step, and each step has to start in a directory.
-/
namespace Winnow

inductive FileError
  | notFound
  | notADirectory
  | isADirectory
  | badName
  | denied
deriving DecidableEq, Repr

def FileError.message : FileError → String
  | .notFound => "no such file or directory"
  | .notADirectory => "not a directory"
  | .isADirectory => "is a directory"
  | .badName => "file name contains a null character"
  | .denied => "permission denied"

inductive FileEntry
  | directory
  /-- A file with the time of its last change, in seconds. -/
  | file (content : ByteArray) (mtime : Nat)

theorem FileEntry.file_eq_iff {c c' : ByteArray} {t t' : Nat} :
    c = c' ∧ t = t' ↔ FileEntry.file c t = FileEntry.file c' t' :=
  ⟨fun ⟨hc, ht⟩ => hc ▸ ht ▸ rfl, fun h => FileEntry.file.inj h⟩

instance : DecidableEq FileEntry
  | .directory, .directory => .isTrue rfl
  | .directory, .file _ _ => .isFalse nofun
  | .file _ _, .directory => .isFalse nofun
  | .file c t, .file c' t' =>
    have := ByteArray.instDecidableEq c c'
    decidable_of_iff (c = c' ∧ t = t') FileEntry.file_eq_iff

/-- What is told of a file or directory without reading it. -/
structure Metadata where
  /-- The time of the last change, in nanoseconds since the start of 1970, if it is told. -/
  modified : Except FileError Int
  length : Nat

/-- The seconds since the start of 1970 that are over, and none before it. -/
def Metadata.wholeSeconds (time : Int) : Nat := (time / 1000000000).toNat

/-- The way to a file. It begins with a slash if it starts at the root, and with two dots for each
directory up that it starts at. -/
abbrev Place := List String

namespace Place

/-- The names on the way from where it starts. -/
def names (place : Place) : Place :=
  if place.head? = some "/" then place.tail else place.dropWhile (· = "..")

/-- The directory in which a place lies. The root lies in itself. -/
def parent (place : Place) : Place :=
  if names place ≠ [] then place.dropLast
  else if place.head? = some "/" then place
  else place ++ [".."]

/-- Whether a place is another one or lies below it. A way that starts further up, or at the root,
does not go on from there. -/
def holds (place key : Place) : Bool :=
  place.isPrefixOf key && (key.drop place.length).head?.all fun s => s ≠ ".." && s ≠ "/"

end Place

/-- Where a step leads, whether or not there is something. -/
def Component.step (place : Place) : Component → Place
  | .root => ["/"]
  | .here => place
  | .parent => place.parent
  | .name s => place ++ [s]

/-- Where a path leads, whether or not there is something. -/
def Path.place (p : Path) : Place := p.components.foldl Component.step []

structure FileSystem where
  entries : SortedMap Place FileEntry := ∅
  /-- The time at which files are written. -/
  now : Nat := 0
  /-- What is told of the directories. -/
  directories : Place → Metadata := fun _ => ⟨.ok 0, 0⟩

namespace FileSystem

instance : Inhabited FileSystem := ⟨{}⟩

/-- The working directory is always there. -/
def entryAt (fs : FileSystem) (place : Place) : Option FileEntry :=
  if place = [] then some .directory else fs.entries.get? place

/-- One step from a directory. -/
def descend (fs : FileSystem) (place : Place) (c : Component) : Except FileError Place :=
  match fs.entryAt place with
  | none => .error .notFound
  | some (.file _ _) => .error .notADirectory
  | some .directory => .ok (c.step place)

/-- Where one gets on a path, whether or not there is something. -/
def locate (fs : FileSystem) (p : Path) : Except FileError Place :=
  if p.text = "" then .error .notFound
  else if '\x00' ∈ p.text.toList then .error .badName
  else p.components.foldlM fs.descend []

/-- What a path leads to. A path with a slash at its end leads to directories only. -/
def entry (fs : FileSystem) (p : Path) : Except FileError FileEntry := do
  match fs.entryAt (← fs.locate p) with
  | none => throw .notFound
  | some .directory => return .directory
  | some (.file content mtime) =>
    if Text.endsWith p.text "/" then throw .notADirectory
    return .file content mtime

def contains (fs : FileSystem) (p : Path) : Bool := (fs.entry p).isOk

def read (fs : FileSystem) (p : Path) : Except FileError ByteArray := do
  match ← fs.entry p with
  | .directory => throw .isADirectory
  | .file content _ => return content

def metadata (fs : FileSystem) (p : Path) : Except FileError Metadata := do
  match ← fs.entry p with
  | .directory => return fs.directories p.place
  | .file content mtime => return ⟨.ok (mtime * 1000000000), content.size⟩

def put (fs : FileSystem) (place : Place) (e : FileEntry) : FileSystem :=
  { fs with entries := fs.entries.insert place e }

/-- Where a file can be written: its directory is there, and no directory is in its place. -/
def locateForWriting (fs : FileSystem) (p : Path) : Except FileError Place := do
  let place ← fs.locate p
  if Text.endsWith p.text "/" || fs.entryAt place = some .directory then throw .isADirectory
  match fs.entryAt place.dropLast with
  | some .directory => return place
  | _ => throw .notFound

def writeAt (fs : FileSystem) (p : Path) (content : ByteArray) (mtime : Nat) :
    Except FileError FileSystem := do
  return fs.put (← fs.locateForWriting p) (.file content mtime)

def write (fs : FileSystem) (p : Path) (content : ByteArray) : Except FileError FileSystem :=
  fs.writeAt p content fs.now

/-- Makes the directories of a path that are missing. -/
def makeDirectories (fs : FileSystem) (place : Place) :
    List Component → Except FileError FileSystem
  | [] =>
    match fs.entryAt place with
    | some .directory => .ok fs
    | _ => .error .notADirectory
  | c :: components => do
    let place ← fs.descend place c
    let fs := if fs.entryAt place = none then fs.put place .directory else fs
    fs.makeDirectories place components

/-- Makes the directories in which the file of a path belongs. -/
def createParents (fs : FileSystem) (p : Path) : Except FileError FileSystem :=
  if '\x00' ∈ p.text.toList then .error .badName else fs.makeDirectories [] p.components.dropLast

/-- Removes a file. -/
def remove (fs : FileSystem) (p : Path) : Except FileError FileSystem := do
  let place ← fs.locate p
  match ← fs.entry p with
  | .directory => throw .isADirectory
  | .file _ _ => return { fs with entries := fs.entries.erase place }

/-- Moves a file, in place of another if there is one. -/
def rename (fs : FileSystem) (p q : Path) : Except FileError FileSystem := do
  let source ← fs.locate p
  match ← fs.entry p with
  | .directory => throw .isADirectory
  | e =>
    let target ← fs.locateForWriting q
    return { fs with entries := (fs.entries.erase source).insert target e }

/-- The files in a directory and below it, or the file itself, by the names that lead to them from
there. -/
def filesBelow (fs : FileSystem) (p : Path) : List Place :=
  match fs.locate p, fs.entry p with
  | .ok place, .ok _ =>
    fs.entries.toList.filterMap fun (key, e) =>
      match e with
      | .directory => none
      | .file _ _ => if place.holds key then some (key.drop place.length) else none
  | _, _ => []

end FileSystem

/-- The path of what lies below another one. -/
def Path.below (p : Path) (names : Place) : Path := names.foldl (· / ·) p

/-- Work on a file system that may fail. What was done before a failure stays done. -/
abbrev Disk (ε : Type) := EStateM ε FileSystem

namespace Disk

variable {ε α : Type}

/-- Changes the file system, or fails and leaves it as it is. -/
def change (act : FileSystem → Except FileError FileSystem) (fail : FileError → ε) : Disk ε Unit :=
  fun fs => match act fs with
    | .ok fs => .ok () fs
    | .error e => .error (fail e) fs

/-- Looks something up. -/
def look (act : FileSystem → Except ε α) : Disk ε α :=
  fun fs => match act fs with
    | .ok a => .ok a fs
    | .error e => .error e fs

/-- The same with failures seen as part of something larger. -/
def within {ε' : Type} (wrap : ε → ε') (act : Disk ε α) : Disk ε' α :=
  fun fs => match act fs with
    | .ok a fs => .ok a fs
    | .error e fs => .error (wrap e) fs

end Disk

end Winnow
