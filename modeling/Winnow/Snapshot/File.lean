import Winnow.Json.Printer
import Winnow.Json.Reader
import Winnow.Snapshot.Basic

/-!
# Snapshot files

A snapshot is stored as one JSON record. Its version is looked at before
anything else. A new snapshot replaces the old one in a single step.
-/
namespace Winnow

namespace EmitSettings

def toData (e : EmitSettings) : Data :=
  .record [
    ("counter_set", .string e.counterSet),
    ("output", .ofString? (e.output.map (·.text))),
    ("omit_empty_shells", .bool e.omitEmptyShells)]

def ofData : Decoder EmitSettings := fun d => do
  let fields ← Fields.of ["counter_set", "output", "omit_empty_shells"] d
  return {
    counterSet := ← fields.required "counter_set" Data.asString
    output := (← fields.optional "output" Data.asString).map Path.mk
    omitEmptyShells := ← fields.required "omit_empty_shells" Data.asBool }

end EmitSettings

namespace CounterSetState

def toData (s : CounterSetState) : Data :=
  .record [("fingerprint", .string s.fingerprint), ("table", s.table.toData)]

def ofData : Decoder CounterSetState := fun d => do
  let fields ← Fields.of ["fingerprint", "table"] d
  return ⟨← fields.required "fingerprint" Data.asString,
    ← fields.required "table" CounterTable.ofData⟩

end CounterSetState

namespace Edge

def toData (e : Edge) : Data :=
  .record [("from", e.source.toData), ("to", e.target.toData), ("kind", e.kind.toData)]

def ofData : Decoder Edge := fun d => do
  let fields ← Fields.of ["from", "to", "kind"] d
  return ⟨← fields.required "from" Data.asNodeId, ← fields.required "to" Data.asNodeId,
    ← fields.required "kind" EdgeKind.ofData⟩

end Edge

namespace Fingerprints

def toData (f : Fingerprints) : Data :=
  .record (f.toList.map fun (p, f) => (p.text, f.toData))

def ofData : Decoder Fingerprints := fun d => do
  return .ofList ((← d.asEntries Fingerprint.ofData).map fun (name, f) => (⟨name⟩, f))

end Fingerprints

namespace Snapshot

def toData (s : Snapshot) : Data :=
  .record [
    ("version", .natural s.version),
    ("created_at", .natural s.createdAt),
    ("platform", s.platform.toData),
    ("emit", s.emit.toData),
    ("classes", .list (s.classes.map ClassNode.toData)),
    ("members", .list (s.members.map MemberNode.toData)),
    ("edges", .list (s.edges.map Edge.toData)),
    ("counter_sets", .record (s.counterSets.toList.map fun (name, c) => (name, c.toData))),
    ("units", s.units.toData),
    ("libraries", s.libraries.toData),
    ("warnings", .natural s.warnings),
    ("missing_refs", .list (s.missingRefs.map fun (id, n) => .list [id.toData, .natural n]))]

def ofData : Decoder Snapshot := fun d => do
  let fields ← Fields.of ["version", "created_at", "platform", "emit", "classes", "members",
    "edges", "counter_sets", "units", "libraries", "warnings", "missing_refs"] d
  return {
    version := ← fields.required "version" (Data.asBelow UInt32.size)
    createdAt := ← fields.required "created_at" Data.asNatural
    platform := ← fields.required "platform" Platform.ofData
    emit := ← fields.required "emit" EmitSettings.ofData
    classes := ← fields.required "classes" (Data.asList ClassNode.ofData)
    members := ← fields.required "members" (Data.asList MemberNode.ofData)
    edges := ← fields.required "edges" (Data.asList Edge.ofData)
    counterSets := .ofList
      (← fields.required "counter_sets" (Data.asEntries CounterSetState.ofData))
    units := ← fields.required "units" Fingerprints.ofData
    libraries := ← fields.required "libraries" Fingerprints.ofData
    warnings := ← fields.required "warnings" Data.asNatural
    missingRefs := ← fields.withDefault "missing_refs"
      (Data.asList (Data.asPair Data.asNodeId Data.asNatural)) [] }

/-- The version that a record gives, cut to 32 bits; 0 if it gives none. -/
def versionOf (d : Data) : Nat :=
  match d.field? "version" with
  | some (.natural n) => n % UInt32.size
  | _ => 0

/-- The snapshot in a file's data. -/
def parse (d : Data) : Except SnapshotError Snapshot :=
  let found := versionOf d
  if found ≠ currentVersion then .error (.wrongVersion found currentVersion)
  else match ofData d with
    | .ok s => .ok s
    | .error e => .error (.unparsable e.message)

/-- Data nested more deeply than this is not read. -/
def maxDepth : Nat := 127

def load (fs : FileSystem) (p : Path) : Except SnapshotError Snapshot :=
  if !fs.contains p then .error (.missing p)
  else match fs.read p with
    | .error e => .error (.unparsable e.message)
    | .ok bytes => match Json.parseBytes bytes with
      | .error e => .error (.unparsable e.message)
      | .ok d =>
        if d.depth ≤ maxDepth then parse d.normalize else .error (.unparsable "nested too deeply")

/-- Writes the snapshot beside its file first and then moves it there. -/
def save (s : Snapshot) (p : Path) : Disk SnapshotError Unit := do
  let fail (e : FileError) : SnapshotError := .unreadable e.message
  let draft := p.withExtension "json.tmp"
  Disk.change (fun fs => fs.createParents p) fail
  Disk.change (fun fs => fs.write draft (Json.compact s.toData).toUTF8) fail
  Disk.change (fun fs => fs.rename draft p) fail

end Snapshot

end Winnow
