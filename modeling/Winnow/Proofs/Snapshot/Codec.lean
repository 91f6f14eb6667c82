import Winnow.Proofs.Data.Decode
import Winnow.Proofs.NodeId
import Winnow.Snapshot.File

/-!
# Snapshots read back

Everything that a snapshot holds is carried by its data, so a snapshot that is
saved is loaded again as it was. Two things stand in the way: a number has to be
a machine word, and the identity of a member has to be told from its text, which
is cut at the first dot and then at the first colon.
-/
namespace Winnow

open Data

/-! ## Identities -/

namespace NodeId

theorem carries_toData {k : Nat} {id : NodeId} (h : id.Readable) :
    Carries asNodeId k id.toData id := by
  refine ⟨.string _, ?_⟩
  simp only [asNodeId, toData, Data.normalize, asString, bind, Except.bind, parse_text h]

end NodeId

/-! ## Nodes -/

theorem Modifiers.carries_toData {k : Nat} (m : Modifiers) :
    Carries Modifiers.ofData k m.toData m := by
  have h : Carries (asBelow UInt32.size) k m.toData m.bits.toNat :=
    .below m.bits.toNat_lt (by decide)
  refine ⟨h.writable, ?_⟩
  simp [Modifiers.ofData, asUInt32, h.read_eq, bind, Except.bind, pure, Except.pure]

theorem SortedSet.carries_textsToData {k : Nat} (s : SortedSet String) :
    Carries asTextSet (k + 1) s.textsToData s := by
  have h : Carries (asList asString) (k + 1) s.textsToData s.toList := .strings s.toList
  refine ⟨h.writable, ?_⟩
  simp [asTextSet, h.read_eq, bind, Except.bind, pure, Except.pure]

theorem InnerClass.carries_toData {k : Nat} (r : InnerClass) :
    Carries InnerClass.ofData (k + 1) r.toData r := by
  have hmodifiers := r.modifiers.carries_toData (k := k)
  constructor
  · exact .record (by simp [hmodifiers.writable])
  · have hd : r.toData.normalize.Holds _ := holds_normalize (by simp)
    obtain ⟨fs, hfs, hg⟩ := Fields.of_holds hd ["inner", "outer", "simple_name", "modifiers"]
    have e₁ : fs.required "inner" asString = .ok r.inner := hg.required_eq (by simp) (.string _)
    have e₂ : fs.withDefault "outer" (asOptional asString) none = .ok r.outer :=
      hg.withDefault_eq (by simp) (.ofString? _) _
    have e₃ : fs.withDefault "simple_name" (asOptional asString) none = .ok r.simpleName :=
      hg.withDefault_eq (by simp) (.ofString? _) _
    have e₄ : fs.withDefault "modifiers" Modifiers.ofData .none = .ok r.modifiers :=
      hg.withDefault_eq (by simp) hmodifiers _
    simp only [InnerClass.ofData, hfs, e₁, e₂, e₃, e₄, bind, Except.bind, pure, Except.pure]

theorem Origin.carries_toData {k : Nat} (o : Origin) :
    Carries Origin.ofData (k + 2) o.toData o := by
  cases o with
  | program source =>
    have hd : (Data.record [("source", .string source.text)]).normalize.Holds _ :=
      holds_normalize (by simp)
    obtain ⟨fs, hfs, hg⟩ := Fields.of_holds hd ["source"]
    have e : fs.required "source" asString = .ok source.text := hg.required_eq (by simp) (.string _)
    constructor
    · refine .record ?_
      simpa using Writable.record (k := k) (by simp)
    · show Origin.ofData (.record [("program",
        (Data.record [("source", .string source.text)]).normalize)]) = _
      simp only [Origin.ofData, hfs, e, bind, Except.bind, pure, Except.pure]
  | library => exact ⟨.string _, rfl⟩
  | unresolved => exact ⟨.string _, rfl⟩

theorem ClassNode.carries_toData {k : Nat} {c : ClassNode} (h : ∀ id ∈ c.members, id.Readable) :
    Carries ClassNode.ofData (k + 3) c.toData c := by
  have hmodifiers := c.modifiers.carries_toData (k := k + 2)
  have hinterfaces : Carries (asList asString) (k + 2) (.strings c.interfaces) c.interfaces :=
    .strings _
  have hannotations := c.annotations.carries_textsToData (k := k + 1)
  have hrefs := c.annotationRefs.carries_textsToData (k := k + 1)
  have hinner : Carries (asList InnerClass.ofData) (k + 2)
      (.list (c.innerClasses.map InnerClass.toData)) c.innerClasses :=
    .list fun r _ => r.carries_toData
  have hmembers : Carries (asList asNodeId) (k + 2) (.list (c.members.toList.map NodeId.toData))
      c.members.toList := .list fun id hid => NodeId.carries_toData (h id hid)
  have horigin := c.origin.carries_toData (k := k)
  constructor
  · refine .record ?_
    simp [hmodifiers.writable, hinterfaces.writable, hannotations.writable, hrefs.writable,
      hinner.writable, hmembers.writable, horigin.writable]
  · have hd : c.toData.normalize.Holds _ := holds_normalize (by simp)
    obtain ⟨fs, hfs, hg⟩ := Fields.of_holds hd ["name", "modifiers", "superclass", "interfaces",
      "annotations", "annotation_refs", "signature", "inner_classes", "members", "origin"]
    have e₁ : fs.required "name" asString = .ok c.name := hg.required_eq (by simp) (.string _)
    have e₂ : fs.required "modifiers" Modifiers.ofData = .ok c.modifiers :=
      hg.required_eq (by simp) hmodifiers
    have e₃ : fs.optional "superclass" asString = .ok c.superclass :=
      hg.optional_eq (by simp) (.ofString? _)
    have e₄ : fs.required "interfaces" (asList asString) = .ok c.interfaces :=
      hg.required_eq (by simp) hinterfaces
    have e₅ : fs.required "annotations" asTextSet = .ok c.annotations :=
      hg.required_eq (by simp) hannotations
    have e₆ : fs.withDefault "annotation_refs" asTextSet ∅ = .ok c.annotationRefs :=
      hg.withDefault_eq (by simp) hrefs _
    have e₇ : fs.withDefault "signature" (asOptional asString) none = .ok c.signature :=
      hg.withDefault_eq (by simp) (.ofString? _) _
    have e₈ : fs.withDefault "inner_classes" (asList InnerClass.ofData) [] = .ok c.innerClasses :=
      hg.withDefault_eq (by simp) hinner _
    have e₉ : fs.required "members" (asList asNodeId) = .ok c.members.toList :=
      hg.required_eq (by simp) hmembers
    have e₁₀ : fs.required "origin" Origin.ofData = .ok c.origin :=
      hg.required_eq (by simp) horigin
    simp only [ClassNode.ofData, hfs, e₁, e₂, e₃, e₄, e₅, e₆, e₇, e₈, e₉, e₁₀, bind, Except.bind,
      pure, Except.pure, SortedSet.ofList_toList]

theorem MemberNode.carries_toData {k : Nat} {m : MemberNode} (h : m.id.Readable) :
    Carries MemberNode.ofData (k + 2) m.toData m := by
  have hid : Carries asNodeId (k + 1) m.id.toData m.id := NodeId.carries_toData h
  have hmodifiers := m.modifiers.carries_toData (k := k + 1)
  have hannotations := m.annotations.carries_textsToData (k := k)
  have hrefs := m.annotationRefs.carries_textsToData (k := k)
  have hexceptions : Carries (asList asString) (k + 1) (.strings m.exceptions) m.exceptions :=
    .strings _
  have hdefault := m.annotationDefault.carries_textsToData (k := k)
  constructor
  · refine .record ?_
    simp [hid.writable, hmodifiers.writable, hannotations.writable, hrefs.writable,
      hexceptions.writable, hdefault.writable]
  · have hd : m.toData.normalize.Holds _ := holds_normalize (by simp)
    obtain ⟨fs, hfs, hg⟩ := Fields.of_holds hd ["id", "modifiers", "annotations",
      "annotation_refs", "exceptions", "annotation_default", "signature"]
    have e₁ : fs.required "id" asNodeId = .ok m.id := hg.required_eq (by simp) hid
    have e₂ : fs.required "modifiers" Modifiers.ofData = .ok m.modifiers :=
      hg.required_eq (by simp) hmodifiers
    have e₃ : fs.required "annotations" asTextSet = .ok m.annotations :=
      hg.required_eq (by simp) hannotations
    have e₄ : fs.withDefault "annotation_refs" asTextSet ∅ = .ok m.annotationRefs :=
      hg.withDefault_eq (by simp) hrefs _
    have e₅ : fs.withDefault "exceptions" (asList asString) [] = .ok m.exceptions :=
      hg.withDefault_eq (by simp) hexceptions _
    have e₆ : fs.withDefault "annotation_default" asTextSet ∅ = .ok m.annotationDefault :=
      hg.withDefault_eq (by simp) hdefault _
    have e₇ : fs.withDefault "signature" (asOptional asString) none = .ok m.signature :=
      hg.withDefault_eq (by simp) (.ofString? _) _
    simp only [MemberNode.ofData, hfs, e₁, e₂, e₃, e₄, e₅, e₆, e₇, bind, Except.bind, pure,
      Except.pure]

/-! ## Edges -/

theorem Data.Holds.asNothing_eq {d : Data} {fields : List (String × Data)} (h : d.Holds fields) :
    d.asNothing = .ok () := by
  obtain ⟨_, rfl, _⟩ := h.perm
  rfl

theorem Use.ofData_eq {u : Use} {d : Data} (h : d.Holds u.toFields) : Use.ofData d = .ok u := by
  obtain ⟨d', ht, hd⟩ := h.tagged
  cases u with
  | virtualCall receiver =>
    obtain ⟨fs, hfs, hg⟩ := Fields.of_holds hd ["receiver"]
    have e : fs.required "receiver" asString = .ok receiver := hg.required_eq (by simp) (.string _)
    simp [Use.ofData, ht, Data.normalize, asString, Use.name, hfs, e, bind, Except.bind, pure, Except.pure]
  | _ =>
    simp [Use.ofData, ht, Data.normalize, asString, Use.name, Use.simple, hd.asNothing_eq, bind,
      Except.bind, pure, Except.pure]

namespace EdgeKind

/-- The fields besides the name of the kind. -/
def others : EdgeKind → List (String × Data)
  | .uses use => use.toFields
  | _ => []

theorem toData_eq (e : EdgeKind) : e.toData = .record (("kind", .string e.name) :: e.others) := by
  cases e <;> rfl

theorem ofData_eq {e : EdgeKind} {d : Data} (h : d.Holds (("kind", .string e.name) :: e.others)) :
    ofData d = .ok e := by
  obtain ⟨d', ht, hd⟩ := h.tagged
  cases e with
  | uses use =>
    simp [ofData, ht, Data.normalize, asString, name, Use.ofData_eq hd, bind, Except.bind, pure,
      Except.pure]
  | _ =>
    simp [ofData, ht, Data.normalize, asString, name, simple, hd.asNothing_eq, bind, Except.bind, pure,
      Except.pure]

theorem carries_toData {k : Nat} (e : EdgeKind) : Carries ofData (k + 1) e.toData e := by
  have hd : ((("kind", Data.string e.name) :: e.others).map (·.1)).Nodup := by
    cases e with
    | uses use => cases use <;> simp [others, Use.toFields]
    | _ => simp [others]
  rw [toData_eq]
  refine ⟨.record ?_, ofData_eq (holds_normalize hd)⟩
  cases e with
  | uses use => cases use <;> simp [others, Use.toFields]
  | _ => simp [others]

end EdgeKind

theorem Edge.carries_toData {k : Nat} {e : Edge} (hs : e.source.Readable)
    (ht : e.target.Readable) : Carries Edge.ofData (k + 2) e.toData e := by
  have hsource : Carries asNodeId (k + 1) e.source.toData e.source := NodeId.carries_toData hs
  have htarget : Carries asNodeId (k + 1) e.target.toData e.target := NodeId.carries_toData ht
  have hkind := e.kind.carries_toData (k := k)
  constructor
  · exact .record (by simp [hsource.writable, htarget.writable, hkind.writable])
  · have hd : e.toData.normalize.Holds _ := holds_normalize (by simp)
    obtain ⟨fs, hfs, hg⟩ := Fields.of_holds hd ["from", "to", "kind"]
    have e₁ : fs.required "from" asNodeId = .ok e.source := hg.required_eq (by simp) hsource
    have e₂ : fs.required "to" asNodeId = .ok e.target := hg.required_eq (by simp) htarget
    have e₃ : fs.required "kind" EdgeKind.ofData = .ok e.kind := hg.required_eq (by simp) hkind
    simp only [Edge.ofData, hfs, e₁, e₂, e₃, bind, Except.bind, pure, Except.pure]

/-! ## Tables and fingerprints -/

theorem Retention.carries_toData {k : Nat} {r : Retention} (h : r.counter < UInt32.size) :
    Carries Retention.ofData (k + 1) r.toData r := by
  have hcounter : Carries (asBelow UInt32.size) k (.natural r.counter) r.counter :=
    .below h (by decide)
  have hstate : Carries KeepState.ofData k (.string r.state.name) r.state := by
    refine ⟨.string _, ?_⟩
    cases r.state <;> rfl
  constructor
  · exact .record (by simp [hcounter.writable])
  · have hd : r.toData.normalize.Holds _ := holds_normalize (by simp)
    obtain ⟨fs, hfs, hg⟩ := Fields.of_holds hd ["counter", "state"]
    have e₁ : fs.required "counter" (asBelow UInt32.size) = .ok r.counter :=
      hg.required_eq (by simp) hcounter
    have e₂ : fs.required "state" KeepState.ofData = .ok r.state := hg.required_eq (by simp) hstate
    simp only [Retention.ofData, hfs, e₁, e₂, bind, Except.bind, pure, Except.pure]

theorem Fingerprint.carries_toData {k : Nat} {f : Fingerprint} (hm : f.mtime < UInt64.size)
    (hs : f.size < UInt64.size) : Carries Fingerprint.ofData (k + 1) f.toData f := by
  have hmtime : Carries asNatural k (.natural f.mtime) f.mtime := .natural hm
  have hsize : Carries asNatural k (.natural f.size) f.size := .natural hs
  constructor
  · exact .record (by simp [hmtime.writable, hsize.writable])
  · have hd : f.toData.normalize.Holds _ := holds_normalize (by simp)
    obtain ⟨fs, hfs, hg⟩ := Fields.of_holds hd ["mtime", "size", "content_hash"]
    have e₁ : fs.required "mtime" asNatural = .ok f.mtime := hg.required_eq (by simp) hmtime
    have e₂ : fs.required "size" asNatural = .ok f.size := hg.required_eq (by simp) hsize
    have e₃ : fs.required "content_hash" asString = .ok f.contentHash :=
      hg.required_eq (by simp) (.string _)
    simp only [Fingerprint.ofData, hfs, e₁, e₂, e₃, bind, Except.bind, pure, Except.pure]

/-- The numbers are machine words. -/
def Fingerprint.Fits (f : Fingerprint) : Prop := f.mtime < UInt64.size ∧ f.size < UInt64.size

theorem Fingerprints.carries_toData {k : Nat} {f : Fingerprints}
    (h : ∀ e ∈ f.toList, e.2.Fits) : Carries Fingerprints.ofData (k + 2) f.toData f := by
  have hf : ∀ e ∈ f.toList, Carries Fingerprint.ofData (k + 1) e.2.toData e.2 := fun e he =>
    Fingerprint.carries_toData (h e he).1 (h e he).2
  constructor
  · refine .record fun e he => ?_
    obtain ⟨entry, hentry, rfl⟩ := List.mem_map.mp he
    exact (hf entry hentry).writable
  · have hkeys : ((f.toList.map fun e => (e.1.text, e.2.toData)).map (·.1)).Nodup := by
      rw [List.map_map]
      refine List.pairwise_map.mpr (f.increasing.imp ?_)
      rintro ⟨⟨p⟩, _⟩ ⟨⟨q⟩, _⟩ hpq rfl
      simp [Std.ReflCmp.compare_self] at hpq
    obtain ⟨r, hr, hp⟩ := (holds_normalize hkeys).asEntries_perm fun e he => (hf e he).read_eq
    have hperm : (r.map fun e => (Path.mk e.1, e.2)).Perm f.toList := by
      refine (hp.map _).trans (.of_eq ?_)
      rw [List.map_map]
      exact List.map_id _
    have hr' : f.toData.normalize.asEntries Fingerprint.ofData = .ok r := hr
    simp only [Fingerprints.ofData, hr', bind, Except.bind, pure, Except.pure]
    exact congrArg Except.ok (SortedMap.ofList_of_perm hperm)

namespace CounterTable

/-- Identities that can be told from their texts, and counters that are machine words. -/
structure Portable (t : CounterTable) : Prop where
  roots : ∀ id ∈ t.roots, id.Readable
  kept : ∀ e ∈ t.retention.toList, e.1.Readable ∧ e.2.counter < UInt32.size

theorem readEntry_eq {id : NodeId} {r : Retention} (hid : id.Readable)
    (hr : r.counter < UInt32.size) : readEntry id.text r.toData.normalize = .ok (id, r) := by
  have hn : (Data.string id.text).asNodeId = .ok id := (NodeId.carries_toData (k := 0) hid).read_eq
  have hd : Retention.ofData r.toData.normalize = .ok r :=
    (Retention.carries_toData (k := 0) hr).read_eq
  simp only [readEntry, hn, hd, bind, Except.bind, pure, Except.pure]

theorem asEntries_pure (entries : List (String × Data)) :
    (Data.record entries).asEntries pure = .ok entries := by
  induction entries with
  | nil => rfl
  | cons e es ih =>
    rw [asEntries] at ih ⊢
    rw [List.mapM_cons, ih]
    rfl

/-- The entries of a table, in whatever order they are read. -/
theorem carries_retention {k : Nat} {t : CounterTable} (h : t.Portable) :
    ∃ r, SortedMap.ofList r = t.retention ∧
      Carries (fun d => do (← d.asEntries pure).mapM fun (name, d) => readEntry name d) (k + 2)
        (.record (t.retention.toList.map fun (id, r) => (id.text, r.toData))) r := by
  have hkeys : ((t.retention.toList.map fun (id, r) => (id.text, r.toData)).map (·.1)).Nodup := by
    rw [List.map_map]
    refine List.pairwise_map.mpr (t.retention.increasing.imp_of_mem ?_)
    rintro ⟨a, r⟩ ⟨b, r'⟩ ha hb hab htext
    have hid : (Except.ok a : Except NodeIdError NodeId) = .ok b := by
      rw [← NodeId.parse_text (h.kept _ ha).1, ← NodeId.parse_text (h.kept _ hb).1]
      exact congrArg _ htext
    cases hid
    simp [Std.ReflCmp.compare_self] at hab
  obtain ⟨entries, r, he, hr, hp⟩ := (holds_normalize hkeys).mapM_perm
    (fun e => readEntry e.1 e.2) t.retention.toList (by
      rw [List.forall₂_map_left_iff, List.forall₂_same]
      exact fun e he => readEntry_eq (h.kept e he).1 (h.kept e he).2)
  refine ⟨r, SortedMap.ofList_of_perm hp, .record fun e he => ?_, ?_⟩
  · obtain ⟨entry, hentry, rfl⟩ := List.mem_map.mp he
    exact (Retention.carries_toData (h.kept entry hentry).2).writable
  · rw [he]
    simp only [asEntries_pure]
    exact hr

theorem carries_toData {k : Nat} {t : CounterTable} (h : t.Portable) :
    Carries ofData (k + 3) t.toData t := by
  have hroots : Carries (asList asNodeId) (k + 2) (.list (t.roots.toList.map NodeId.toData))
      t.roots.toList := .list fun id hid => NodeId.carries_toData (h.roots id hid)
  obtain ⟨r, hr, hretention⟩ := carries_retention (k := k) h
  constructor
  · exact .record (by simp [hroots.writable, hretention.writable])
  · have hd : t.toData.normalize.Holds _ := holds_normalize (by simp)
    obtain ⟨fs, hfs, hg⟩ := Fields.of_holds hd ["roots", "retention"]
    have e₁ : fs.required "roots" (asList asNodeId) = .ok t.roots.toList :=
      hg.required_eq (by simp) hroots
    have e₂ : fs.required "retention" (fun d => do
        (← d.asEntries pure).mapM fun (name, d) => readEntry name d) = .ok r :=
      hg.required_eq (by simp) hretention
    simp only [bind, Except.bind, pure] at e₂
    simp only [ofData, hfs, e₁, e₂, hr, bind, Except.bind, pure, Except.pure,
      SortedSet.ofList_toList]

end CounterTable

theorem CounterSetState.carries_toData {k : Nat} {s : CounterSetState} (h : s.table.Portable) :
    Carries CounterSetState.ofData (k + 4) s.toData s := by
  have htable := CounterTable.carries_toData (k := k) h
  constructor
  · exact .record (by simp [htable.writable])
  · have hd : s.toData.normalize.Holds _ := holds_normalize (by simp)
    obtain ⟨fs, hfs, hg⟩ := Fields.of_holds hd ["fingerprint", "table"]
    have e₁ : fs.required "fingerprint" asString = .ok s.fingerprint :=
      hg.required_eq (by simp) (.string _)
    have e₂ : fs.required "table" CounterTable.ofData = .ok s.table :=
      hg.required_eq (by simp) htable
    simp only [CounterSetState.ofData, hfs, e₁, e₂, bind, Except.bind, pure, Except.pure]

/-! ## Snapshots -/

theorem Platform.carries_toData {k : Nat} (p : Platform) :
    Carries Platform.ofData (k + 2) p.toData p := by
  have hprefixes : Carries (asList asString) (k + 1) (.strings p.prefixes) p.prefixes := .strings _
  have hexclusions : Carries (asList asString) (k + 1) (.strings p.exclusions) p.exclusions :=
    .strings _
  constructor
  · exact .record (by simp [hprefixes.writable, hexclusions.writable])
  · have hd : p.toData.normalize.Holds _ := holds_normalize (by simp)
    obtain ⟨fs, hfs, hg⟩ := Fields.of_holds hd ["prefixes", "exclusions"]
    have e₁ (default : List String) : fs.withDefault "prefixes" (asList asString) default =
        .ok p.prefixes := hg.withDefault_eq (by simp) hprefixes _
    have e₂ (default : List String) : fs.withDefault "exclusions" (asList asString) default =
        .ok p.exclusions := hg.withDefault_eq (by simp) hexclusions _
    simp only [Platform.ofData, hfs, e₁, e₂, bind, Except.bind, pure, Except.pure]

theorem EmitSettings.carries_toData {k : Nat} (e : EmitSettings) :
    Carries EmitSettings.ofData (k + 1) e.toData e := by
  constructor
  · exact .record (by simp)
  · have hd : e.toData.normalize.Holds _ := holds_normalize (by simp)
    obtain ⟨fs, hfs, hg⟩ := Fields.of_holds hd ["counter_set", "output", "omit_empty_shells"]
    have e₁ : fs.required "counter_set" asString = .ok e.counterSet :=
      hg.required_eq (by simp) (.string _)
    have e₂ : fs.optional "output" asString = .ok (e.output.map (·.text)) :=
      hg.optional_eq (by simp) (.ofString? _)
    have e₃ : fs.required "omit_empty_shells" asBool = .ok e.omitEmptyShells :=
      hg.required_eq (by simp) (.bool _)
    have houtput : (e.output.map (·.text)).map Path.mk = e.output := by
      cases e.output <;> rfl
    simp only [EmitSettings.ofData, hfs, e₁, e₂, e₃, houtput, bind, Except.bind, pure, Except.pure]

namespace Snapshot

/-- Everything that the text of the snapshot has to carry can be carried. -/
structure Portable (s : Snapshot) : Prop where
  version : s.version = currentVersion
  createdAt : s.createdAt < UInt64.size
  classes : ∀ c ∈ s.classes, ∀ id ∈ c.members, id.Readable
  members : ∀ m ∈ s.members, m.id.Readable
  edges : ∀ e ∈ s.edges, e.source.Readable ∧ e.target.Readable
  tables : ∀ c ∈ s.counterSets.toList, c.2.table.Portable
  units : ∀ f ∈ s.units.toList, f.2.Fits
  libraries : ∀ f ∈ s.libraries.toList, f.2.Fits
  warnings : s.warnings < UInt64.size
  missingRefs : ∀ r ∈ s.missingRefs, r.1.Readable ∧ r.2 < UInt64.size

theorem portable_ofGraph {g : Graph} {now : Nat} (platform : Platform) (emit : EmitSettings)
    (hclasses : ∀ c ∈ g.classes, ∀ id ∈ c.members, id.Readable)
    (hmembers : ∀ m ∈ g.members, m.id.Readable)
    (hedges : ∀ e ∈ g.edges, e.source.Readable ∧ e.target.Readable)
    (hrefs : ∀ r ∈ g.missingRefs.toList, r.1.Readable ∧ r.2 < UInt64.size)
    (hwarnings : g.classWarnings < UInt64.size) (hnow : now < UInt64.size) :
    (ofGraph g platform emit now).Portable where
  version := rfl
  createdAt := hnow
  classes c hc := hclasses c ((List.mergeSort_perm _ _).mem_iff.mp hc)
  members m hm := hmembers m ((List.mergeSort_perm _ _).mem_iff.mp hm)
  edges e he := hedges e (List.mem_reverse.mp ((List.mergeSort_perm _ _).mem_iff.mp he))
  tables := nofun
  units := nofun
  libraries := nofun
  warnings := hwarnings
  missingRefs := hrefs

theorem carries_counterSets {s : Snapshot} (h : s.Portable) :
    ∃ r, SortedMap.ofList r = s.counterSets ∧
      Carries (asEntries CounterSetState.ofData) 5
        (.record (s.counterSets.toList.map fun (name, c) => (name, c.toData))) r := by
  have hc : ∀ e ∈ s.counterSets.toList, Carries CounterSetState.ofData 4 e.2.toData e.2 :=
    fun e he => CounterSetState.carries_toData (h.tables e he)
  have hkeys : ((s.counterSets.toList.map fun (name, c) => (name, c.toData)).map (·.1)).Nodup := by
    rw [List.map_map]
    refine List.pairwise_map.mpr (s.counterSets.increasing.imp ?_)
    rintro ⟨a, _⟩ ⟨b, _⟩ hab rfl
    simp [Std.ReflCmp.compare_self] at hab
  obtain ⟨r, hr, hp⟩ := (holds_normalize hkeys).asEntries_perm fun e he => (hc e he).read_eq
  refine ⟨r, SortedMap.ofList_of_perm (hp.trans (.of_eq (List.map_id _))), .record ?_, hr⟩
  intro e he
  obtain ⟨entry, hentry, rfl⟩ := List.mem_map.mp he
  exact (hc entry hentry).writable

theorem carries_missingRefs {s : Snapshot} (h : s.Portable) :
    Carries (asList (asPair asNodeId asNatural)) 5
      (.list (s.missingRefs.map fun (id, n) => .list [id.toData, .natural n])) s.missingRefs :=
  .list fun e he => .pair (k := 3) (NodeId.carries_toData (h.missingRefs e he).1)
    (.natural (h.missingRefs e he).2)

theorem carries_toData {s : Snapshot} (h : s.Portable) : Carries ofData 6 s.toData s := by
  have hversion : Carries (asBelow UInt32.size) 5 (.natural s.version) s.version :=
    .below (by rw [h.version]; decide) (by decide)
  have hcreated : Carries asNatural 5 (.natural s.createdAt) s.createdAt := .natural h.createdAt
  have hplatform := s.platform.carries_toData (k := 3)
  have hemit := s.emit.carries_toData (k := 4)
  have hclasses : Carries (asList ClassNode.ofData) 5 (.list (s.classes.map ClassNode.toData))
      s.classes := .list fun c hc => ClassNode.carries_toData (k := 1) (h.classes c hc)
  have hmembers : Carries (asList MemberNode.ofData) 5 (.list (s.members.map MemberNode.toData))
      s.members := .list fun m hm => MemberNode.carries_toData (k := 2) (h.members m hm)
  have hedges : Carries (asList Edge.ofData) 5 (.list (s.edges.map Edge.toData)) s.edges :=
    .list fun e he => Edge.carries_toData (k := 2) (h.edges e he).1 (h.edges e he).2
  obtain ⟨r, hr, htables⟩ := carries_counterSets h
  have hunits := Fingerprints.carries_toData (k := 3) h.units
  have hlibraries := Fingerprints.carries_toData (k := 3) h.libraries
  have hwarnings : Carries asNatural 5 (.natural s.warnings) s.warnings := .natural h.warnings
  have hmissing := carries_missingRefs h
  constructor
  · refine .record ?_
    simp [hversion.writable, hcreated.writable, hplatform.writable, hemit.writable,
      hclasses.writable, hmembers.writable, hedges.writable, htables.writable, hunits.writable,
      hlibraries.writable, hwarnings.writable, hmissing.writable]
  · have hd : s.toData.normalize.Holds _ := holds_normalize (by simp)
    obtain ⟨fs, hfs, hg⟩ := Fields.of_holds hd ["version", "created_at", "platform", "emit",
      "classes", "members", "edges", "counter_sets", "units", "libraries", "warnings",
      "missing_refs"]
    have e₁ : fs.required "version" (asBelow UInt32.size) = .ok s.version :=
      hg.required_eq (by simp) hversion
    have e₂ : fs.required "created_at" asNatural = .ok s.createdAt :=
      hg.required_eq (by simp) hcreated
    have e₃ : fs.required "platform" Platform.ofData = .ok s.platform :=
      hg.required_eq (by simp) hplatform
    have e₄ : fs.required "emit" EmitSettings.ofData = .ok s.emit := hg.required_eq (by simp) hemit
    have e₅ : fs.required "classes" (asList ClassNode.ofData) = .ok s.classes :=
      hg.required_eq (by simp) hclasses
    have e₆ : fs.required "members" (asList MemberNode.ofData) = .ok s.members :=
      hg.required_eq (by simp) hmembers
    have e₇ : fs.required "edges" (asList Edge.ofData) = .ok s.edges :=
      hg.required_eq (by simp) hedges
    have e₈ : fs.required "counter_sets" (asEntries CounterSetState.ofData) = .ok r :=
      hg.required_eq (by simp) htables
    have e₉ : fs.required "units" Fingerprints.ofData = .ok s.units :=
      hg.required_eq (by simp) hunits
    have e₁₀ : fs.required "libraries" Fingerprints.ofData = .ok s.libraries :=
      hg.required_eq (by simp) hlibraries
    have e₁₁ : fs.required "warnings" asNatural = .ok s.warnings :=
      hg.required_eq (by simp) hwarnings
    have e₁₂ : fs.withDefault "missing_refs" (asList (asPair asNodeId asNatural)) [] =
        .ok s.missingRefs := hg.withDefault_eq (by simp) hmissing _
    simp only [ofData, hfs, e₁, e₂, e₃, e₄, e₅, e₆, e₇, e₈, e₉, e₁₀, e₁₁, e₁₂, hr, bind,
      Except.bind, pure, Except.pure]

theorem versionOf_toData (s : Snapshot) (h : s.version = currentVersion) :
    versionOf s.toData.normalize = currentVersion := by
  have hd : s.toData.normalize.Holds _ := holds_normalize (by simp)
  have hv : s.toData.normalize.field? "version" = some (.natural s.version) :=
    hd.field?_eq List.mem_cons_self
  simp only [versionOf, hv, h]
  rfl

/-- The text of a snapshot reads back as the snapshot. -/
theorem load_of_read {s : Snapshot} (h : s.Portable) {fs : FileSystem} {p : Path}
    (hread : fs.read p = .ok (Json.compact s.toData).toUTF8) : load fs p = .ok s := by
  have hc := carries_toData h
  have hcontains : fs.contains p = true := by
    unfold FileSystem.contains
    cases he : fs.entry p with
    | ok => rfl
    | error e => simp [FileSystem.read, he, bind, Except.bind] at hread
  have hdepth : s.toData.depth ≤ maxDepth := Nat.le_trans hc.writable.depth_le (by decide)
  have hparse : parse s.toData.normalize = .ok s := by
    simp only [parse, versionOf_toData s h.version, hc.read_eq]
    rfl
  simp only [load, hcontains, hread, Json.parseBytes_compact hc.writable.spellable, hdepth,
    hparse, Bool.not_true, Bool.false_eq_true, if_false, if_true]

end Snapshot

end Winnow
