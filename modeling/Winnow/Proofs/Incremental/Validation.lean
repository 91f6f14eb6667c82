import Winnow.Proofs.Program.Declarations
import Winnow.Proofs.Pruning.Emitted
import Winnow.StructuralChange

/-!
# What validation lets through

A new version of a unit passes exactly if its nodes differ from the old ones in
signatures at most. So the classes, members and edges that an incremental run does
not compute again are as a rebuild would have them, with one exception: validation
compares which annotations there are and not which are visible, and only a visible
one leads to its type.
-/
namespace Winnow

namespace StructuralChange

variable {g : Graph} {u : CompiledUnit}

theorem when_eq_nil_iff {α : Type} [DecidableEq α] {old new : α} {change : StructuralChange} :
    when old new change = [] ↔ old = new := by
  unfold when
  split <;> simp_all

theorem ofAnnotations_eq_nil_iff {id : NodeId} {old new : SortedSet String} :
    ofAnnotations id old new = [] ↔ old = new := by
  simp only [ofAnnotations, List.append_eq_nil_iff, List.map_eq_nil_iff, SortedSet.diff,
    List.filter_eq_nil_iff, decide_eq_true_eq, not_not, SortedSet.mem_toList]
  constructor
  · rintro ⟨hnew, hold⟩
    exact SortedSet.ext_mem fun a => ⟨hold a, hnew a⟩
  · rintro rfl
    exact ⟨fun _ h => h, fun _ h => h⟩

theorem ofMember_eq_nil_iff {old new : MemberNode} (hid : old.id = new.id) :
    ofMember old new = [] ↔ old.bare = new.bare := by
  simp only [ofMember, List.append_eq_nil_iff, when_eq_nil_iff, ofAnnotations_eq_nil_iff,
    MemberNode.bare, MemberNode.mk.injEq, hid, and_assoc, true_and, and_true]

/-- The classes differ in their signatures, and in what is compared elsewhere, at most. -/
theorem ofClass_eq_nil_iff {old new : ClassNode} (hname : old.name = new.name)
    (horigin : old.origin = new.origin) : ofClass old new = [] ↔
      ({ old with members := ∅ } : ClassNode).bare = ({ new with members := ∅ } : ClassNode).bare := by
  simp only [ofClass, List.append_eq_nil_iff, when_eq_nil_iff, ofAnnotations_eq_nil_iff,
    ClassNode.bare, ClassNode.mk.injEq, hname, horigin, and_assoc, true_and, and_true]

theorem mem_freshMembers (hu : u.check = .ok ()) {id : NodeId} {n : MemberNode} :
    (id, n) ∈ (freshMembers u).toList ↔ n ∈ u.memberNodes ∧ n.id = id := by
  have hkeys : ((u.memberNodes.map fun m => (m.id, m)).map (·.1)).Nodup := by
    rw [List.map_map]
    exact u.nodup_memberNodes hu
  rw [freshMembers, SortedMap.mem_toList_ofList hkeys, List.mem_map]
  constructor
  · rintro ⟨m, hm, heq⟩
    obtain ⟨rfl, rfl⟩ := Prod.mk.inj heq
    exact ⟨hm, rfl⟩
  · rintro ⟨hn, rfl⟩
    exact ⟨n, hn, rfl⟩

theorem contains_freshMembers {id : NodeId} :
    (freshMembers u).contains id = true ↔ id ∈ u.memberNodes.map MemberNode.id := by
  rw [freshMembers, SortedMap.contains_ofList, List.map_map]
  rfl

/-- Whatever passes, its members are members of the class already. -/
theorem known_of_ofMembers_eq_nil {c : ClassNode} (h : ofMembers g c u = []) {n : MemberNode}
    (hn : n ∈ u.memberNodes) : n.id ∈ c.members ∧ ∃ old, g.member? n.id = some old := by
  have hin := contains_freshMembers.mpr (List.mem_map_of_mem hn)
  obtain ⟨new, hnew⟩ := Option.isSome_iff_exists.mp hin
  have hchanges := List.flatMap_eq_nil_iff.mp (List.append_eq_nil_iff.mp h).2 (n.id, new)
    (SortedMap.mem_toList_iff.mpr hnew)
  dsimp only at hchanges
  split at hchanges
  next old hold =>
    obtain ⟨hold, hlisted⟩ := Option.filter_eq_some_iff.mp hold
    exact ⟨of_decide_eq_true hlisted, old, hold⟩
  next => cases hchanges

/-- The members pass if each has a counterpart that differs from it in its signature at most. -/
theorem ofMembers_eq_nil_iff (hu : u.check = .ok ()) {c : ClassNode} : ofMembers g c u = [] ↔
    (∀ id ∈ c.members, id ∈ u.memberNodes.map MemberNode.id) ∧
      ∀ n ∈ u.memberNodes, n.id ∈ c.members ∧ ∃ old, g.member? n.id = some old ∧ old.bare = n.bare := by
  simp only [ofMembers, List.append_eq_nil_iff, List.map_eq_nil_iff, List.filter_eq_nil_iff,
    Bool.not_eq_true', Bool.not_eq_false, contains_freshMembers, SortedSet.mem_toList,
    List.flatMap_eq_nil_iff, Prod.forall, mem_freshMembers hu]
  refine and_congr_right fun _ => ?_
  constructor
  · intro h n hn
    have hchanges := h n.id n ⟨hn, rfl⟩
    split at hchanges
    next old hold =>
      obtain ⟨hold, hlisted⟩ := Option.filter_eq_some_iff.mp hold
      exact ⟨of_decide_eq_true hlisted, old, hold,
        (ofMember_eq_nil_iff (Graph.member?_eq_some hold).2).mp hchanges⟩
    next => cases hchanges
  · rintro h id n ⟨hn, rfl⟩
    obtain ⟨hlisted, old, hold, hbare⟩ := h n hn
    rw [hold, Option.filter_some, if_pos (decide_eq_true hlisted)]
    exact (ofMember_eq_nil_iff (Graph.member?_eq_some hold).2).mpr hbare

end StructuralChange

namespace Program

open Graph StructuralChange

variable {p : Program} {g : Graph} {s : SourcedUnit} {u : CompiledUnit}

theorem structuralChanges_eq_nil {path : Path} : g.structuralChanges path u = [] ↔
    u.library = false ∧ ∃ c, g.class? u.name = some c ∧ comesFrom c path = true ∧
      ofClass c (u.node (.program path)) = [] ∧ ofMembers g c u = [] := by
  unfold structuralChanges
  split
  next hnone =>
    refine ⟨nofun, ?_⟩
    rintro ⟨_, c, hc, hfrom, _⟩
    simp [hc, hfrom] at hnone
  next c hsome =>
    obtain ⟨hc, hfrom⟩ := Option.filter_eq_some_iff.mp hsome
    simp only [hc, Option.some.injEq, exists_eq_left']
    cases u.library with
    | true => simp
    | false => simp [hfrom]

/-- A class as its unit declares it, members apart. -/
theorem bare_without_members {c : ClassNode} {v : CompiledUnit} {origin : Origin}
    (hc : c.bare = (v.fullNode origin).bare) :
    ({ c with members := ∅ } : ClassNode).bare = (v.node origin).bare :=
  congrArg (fun c : ClassNode => { c with members := ∅ }) hc

section Versions

variable (hp : p.Admissible) (hl : p.Linked g)
include hp hl

/-- The class that a file was known for is the one of the unit that comes from it. -/
theorem Linked.eq_of_comesFrom (hpath : ∀ t ∈ p.units, t.source.same s.source = true → t = s)
    {name : String} {c : ClassNode} (hc : g.class? name = some c)
    (hfrom : comesFrom c s.source = true) : name = s.unit.name := by
  unfold comesFrom at hfrom
  split at hfrom
  next source horigin =>
    have hprog : c.isProgram = true := by rw [ClassNode.isProgram, horigin]; rfl
    obtain ⟨t, ht, rfl⟩ := List.mem_map.mp (hl.mem_names_of_isProgram hc hprog)
    obtain ⟨d, hd, hbare⟩ := hl.class?_unit hp ht
    obtain rfl := Option.some.inj (hc.symm.trans hd)
    have hsource := (ClassNode.profile_of_bare_eq hbare).origin
    rw [horigin] at hsource
    obtain rfl : source = t.source := Origin.program.inj hsource
    rw [hpath t ht hfrom]
  next => cases hfrom

/-- A new version of a unit passes just if it belongs to the program and declares the same. -/
theorem Linked.structuralChanges_eq_nil_iff (hs : s ∈ p.units)
    (hpath : ∀ t ∈ p.units, t.source.same s.source = true → t = s) (hu : u.check = .ok ()) :
    g.structuralChanges s.source u = [] ↔ u.library = false ∧ s.unit.SameDeclarations u := by
  obtain ⟨c, hc, hbare⟩ := hl.class?_unit hp hs
  have hprofile := ClassNode.profile_of_bare_eq hbare
  have hlisted : ∀ id, id ∈ c.members ↔ id ∈ s.unit.memberNodes.map MemberNode.id := fun id => by
    rw [ClassNode.members_of_bare_eq hbare]
    exact SortedSet.mem_ofList
  have hclass_iff : u.name = s.unit.name → (ofClass c (u.node (.program s.source)) = [] ↔
      (s.unit.node (.program s.source)).bare = (u.node (.program s.source)).bare) := fun hsame => by
    have hname : c.name = (u.node (.program s.source)).name := hprofile.name.trans hsame.symm
    rw [ofClass_eq_nil_iff hname hprofile.origin, bare_without_members hbare]
    rfl
  rw [structuralChanges_eq_nil]
  refine and_congr_right fun _ => ?_
  constructor
  · rintro ⟨d, hd, hfrom, hclass, hmember⟩
    have hsame := hl.eq_of_comesFrom hp hpath hd hfrom
    rw [hsame] at hd
    obtain rfl := Option.some.inj (hc.symm.trans hd)
    rw [hclass_iff hsame] at hclass
    obtain ⟨hold, hnew⟩ := (ofMembers_eq_nil_iff hu).mp hmember
    refine ⟨fun origin => ?_, fun n hn => ?_, fun k hk => ?_⟩
    · exact congrArg (fun c : ClassNode => { c with origin := origin }) hclass.symm
    · obtain ⟨k, hk, hid⟩ := List.mem_map.mp
        (hold n.id ((hlisted _).mpr (List.mem_map_of_mem hn)))
      obtain ⟨_, old, hold, hk'⟩ := hnew k hk
      obtain ⟨old', hold', hn'⟩ := hl.member?_unit hp hs hn
      rw [hid, hold'] at hold
      exact ⟨k, hk, by rw [← hk', ← hn', Option.some.inj hold]⟩
    · obtain ⟨hin, old, hold, hk'⟩ := hnew k hk
      obtain ⟨n, hn, hid⟩ := List.mem_map.mp ((hlisted _).mp hin)
      obtain ⟨old', hold', hn'⟩ := hl.member?_unit hp hs hn
      rw [hid, hold] at hold'
      exact ⟨n, hn, by rw [← hk', ← hn', Option.some.inj hold']⟩
  · intro hd
    refine ⟨c, hd.name_eq ▸ hc, ?_, ?_, (ofMembers_eq_nil_iff hu).mpr ⟨fun id hid => ?_, fun k hk => ?_⟩⟩
    · rw [comesFrom, hprofile.origin]
      exact decide_eq_true rfl
    · exact (hclass_iff hd.name_eq).mpr (hd.class_ _).symm
    · exact hd.mem_ids ((hlisted id).mp hid)
    · obtain ⟨n, hn, hkn⟩ := hd.back k hk
      obtain ⟨old, hold, hn'⟩ := hl.member?_unit hp hs hn
      have hid : n.id = k.id := (MemberNode.of_bare_eq hkn).1
      exact ⟨(hlisted _).mpr (hid ▸ List.mem_map_of_mem hn), old, hid ▸ hold, hn'.trans hkn⟩

/-- The edges from a node of a unit to the types of annotations are those of its visible ones. -/
theorem Linked.annotatedBy_iff (hs : s ∈ p.units) {id : NodeId} (name : String)
    (hid : id.className = s.unit.name) : (⟨id, .class_ name, .annotatedBy⟩ : Edge) ∈ g.edges ↔
      ∃ type, s.unit.ShowsOn id type ∧ g.mentioned? p.platform false type = some name := by
  rw [hl.edges _ rfl (by nofun), links_annotatedBy_iff rfl]
  constructor
  · rintro ⟨t, ht, type, hshow, target, hmention, htarget⟩
    obtain rfl : t = s := List.inj_on_of_nodup_map hp.distinct ht hs
      ((CompiledUnit.className_of_mem_nodeIds hshow.mem_nodeIds).symm.trans hid)
    obtain rfl := NodeId.class_.inj htarget
    exact ⟨type, hshow, by rw [← hl.core.mentioned? p.tame_skeleton hl.tame, hmention]⟩
  · rintro ⟨type, hshow, hmention⟩
    rw [← hl.core.mentioned? p.tame_skeleton hl.tame] at hmention
    exact ⟨s, hs, type, hshow, name, hmention, rfl⟩

end Versions

section Rebuilt

variable {g' : Graph} {e : Edge} (hp : p.Admissible) (hq : (p.replace u).Admissible) (hs : s ∈ p.units)
  (hd : s.unit.SameDeclarations u) (hl : p.Linked g) (hl' : (p.replace u).Linked g')
include hp hq hs hd hl hl'

theorem Linked.sameCore_replace : SameCore g g' :=
  hl.core.symm.trans ((agree_skeleton_replace hp hs hd hq).sameCore.trans hl'.core)

/-- Edges of declarations, annotations apart, of overriding methods and of the hierarchy are there
again. -/
theorem Linked.mem_edges_replace (he : e ∈ g.edges) (hbody : e.kind.isBody = false)
    (hkind : e.kind ≠ .annotatedBy) : e ∈ g'.edges := by
  cases hh : e.kind.isHierarchy with
  | true =>
    have hladder : g'.ladder = g.ladder := by
      rw [hl.ladder, hl'.ladder, ladder_skeleton, ladder_skeleton,
        (agree_skeleton_replace hp hs hd hq).edges]
    have hmem : e ∈ g'.ladder := hladder ▸ List.mem_filter.mpr ⟨he, hh⟩
    exact (List.mem_filter.mp hmem).1
  | false =>
    have hsignature : e.kind ≠ .signature := by
      intro hk
      rw [hk] at hbody
      cases hbody
    exact (hl'.edges e hh hsignature).mpr
      (((hl.edges e hh hsignature).mp he).replace hp hs hd hq hbody hkind)

/-- So are the edges to the types of annotations, if what was visible still is. -/
theorem Linked.annotatedBy_replace
    (hshow : ∀ id name, (∃ type, s.unit.ShowsOn id type ∧
        g.mentioned? p.platform false type = some name) →
      ∃ type, u.ShowsOn id type ∧ g.mentioned? p.platform false type = some name)
    (hk : e.kind = .annotatedBy) (he : e ∈ g.edges) : e ∈ g'.edges := by
  have hside : e.kind.isHierarchy = false ∧ e.kind ≠ .signature := by
    rw [hk]
    exact ⟨rfl, nofun⟩
  have hmentioned : ∀ type, p.skeleton.mentioned? p.platform false type =
      g.mentioned? p.platform false type := hl.core.mentioned? p.tame_skeleton hl.tame
  have hmentioned' : ∀ type, (p.replace u).skeleton.mentioned? p.platform false type =
      g.mentioned? p.platform false type := fun type =>
    (hl'.core.mentioned? (p.replace u).tame_skeleton hl'.tame type).trans
      ((hl.sameCore_replace hp hq hs hd hl').mentioned? hl.tame hl'.tame type).symm
  obtain ⟨t, ht, type, htype, name, hname, htarget⟩ :=
    (links_annotatedBy_iff hk).mp ((hl.edges e hside.1 hside.2).mp he)
  rw [hmentioned] at hname
  obtain ⟨t', ht', _, _, hversion⟩ := exists_version hp hs hd ht
  obtain ⟨type', htype', hname'⟩ : ∃ type', t'.unit.ShowsOn e.source type' ∧
      g.mentioned? p.platform false type' = some name := by
    rcases hversion with ⟨rfl, hunit⟩ | ⟨_, rfl⟩
    · exact hunit ▸ hshow _ _ ⟨type, htype, hname⟩
    · exact ⟨type, htype, hname⟩
  exact (hl'.edges e hside.1 hside.2).mpr ((links_annotatedBy_iff hk).mpr
    ⟨t', ht', type', htype', name, (hmentioned' type').trans hname', htarget⟩)

end Rebuilt

section Labels

/-- A class with annotations and a signature. -/
def labelled (annotations : List AnnotationUse) (signature : Option String) : CompiledUnit :=
  { CompiledUnit.blank "a/A" with annotations, signature }

def label (visible : Bool) : AnnotationUse := { type := "a/Ann", visible }

/-- The class with a signature and one annotation more, which is not visible. -/
def relabelled : CompiledUnit := labelled [label false, label true] (some "Ljava/lang/Object;")

/-- The class with one annotation, and the type of this. -/
def labels (visible : Bool) : Program where
  platform := {}
  units := [⟨{ CompiledUnit.blank "a/Ann" with modifiers := ⟨0x2601⟩ }, ⟨"in/Ann.json"⟩⟩,
    ⟨labelled [label visible] none, ⟨"in/A.json"⟩⟩]

theorem gathered_labels (visible : Bool) : (labels visible).Gathered :=
  gathered_iff.mpr (by cases visible <;> exact ⟨by decide +kernel, by decide, by decide⟩)

theorem exists_build_labels (visible : Bool) : ∃ g, (labels visible).build = .ok g := by
  have hnone : ∀ visible, (labels visible).skeleton.edges = [] := by decide +kernel
  exact ⟨_, build_of_edges_eq_nil (hnone visible)⟩

theorem labelled_mem_labels (visible : Bool) :
    (⟨labelled [label visible] none, ⟨"in/A.json"⟩⟩ : SourcedUnit) ∈ (labels visible).units :=
  List.mem_cons_of_mem _ (List.mem_singleton.mpr rfl)

theorem path_labels : ∀ visible, ∀ t ∈ (labels visible).units,
    t.source.same ⟨"in/A.json"⟩ = true → t = ⟨labelled [label visible] none, ⟨"in/A.json"⟩⟩ := by
  decide +kernel

theorem sameDeclarations_labelled {old new : List AnnotationUse} {signature : Option String}
    (htypes : AnnotationUse.types new = AnnotationUse.types old)
    (hrefs : AnnotationUse.allReferences new = AnnotationUse.allReferences old) :
    (labelled old none).SameDeclarations (labelled new signature) := by
  refine ⟨fun origin => ?_, nofun, nofun⟩
  simp only [labelled, CompiledUnit.node, ClassNode.bare, htypes, hrefs]

theorem showsOn_labelled {annotations : List AnnotationUse} {signature : Option String} {id : NodeId}
    {type : String} : (labelled annotations signature).ShowsOn id type ↔
      id = .class_ "a/A" ∧ ∃ a ∈ annotations, a.visible = true ∧ a.type = type := by
  constructor
  · rintro (h | ⟨_, hm, _⟩ | ⟨_, hf, _⟩)
    · exact h
    · cases hm
    · cases hf
  · exact .inl

end Labels

/-- Validation is complete but for the visibility of annotations. If a new version of a unit passes,
the program with it is accepted and built again, every class and member stands in the new graph as in
the old one apart from its signature, and the edges are the same apart from those of bodies and
signatures and those to the types of annotations. These too are the same just if on every node the
visible annotations of both versions lead to the same classes. -/
theorem rebuilt_alike_of_no_structuralChanges (hp : p.Gathered) (hb : p.build = .ok g)
    (hs : s ∈ p.units) (hpath : ∀ t ∈ p.units, t.source.same s.source = true → t = s)
    (hu : u.check = .ok ()) (hnone : g.structuralChanges s.source u = []) :
    u.name = s.unit.name ∧ (p.replace u).Gathered ∧ ∃ g', (p.replace u).build = .ok g' ∧
      SameCore g g' ∧
      (∀ id n n', g.node? id = some n → g'.node? id = some n' → n'.bare = n.bare) ∧
      (∀ e, e.kind.isBody = false → e.kind ≠ .annotatedBy → (e ∈ g'.edges ↔ e ∈ g.edges)) ∧
      ((∀ e, e.kind.isBody = false → (e ∈ g'.edges ↔ e ∈ g.edges)) ↔
        ∀ id name,
          (∃ type, u.ShowsOn id type ∧ g.mentioned? p.platform false type = some name) ↔
          ∃ type, s.unit.ShowsOn id type ∧ g.mentioned? p.platform false type = some name) := by
  have hadmissible := hp.admissible
  have hl := linked_of_build hb
  obtain ⟨hlib, hd⟩ := (hl.structuralChanges_eq_nil_iff hadmissible hs hpath hu).mp hnone
  have hq := admissible_replace hadmissible hs hd hu hlib
  obtain ⟨g', hb'⟩ := exists_build_replace hadmissible hs hd hq ⟨g, hb⟩
  have hl' := linked_of_build hb'
  have hcore := hl.sameCore_replace hadmissible hq hs hd hl'
  -- The old version is again a new version of the new one.
  have hs' : (⟨u, s.source⟩ : SourcedUnit) ∈ (p.replace u).units :=
    (mem_units_replace_iff hadmissible hs hd).mpr (.inl rfl)
  have hadmissible' : ((p.replace u).replace s.unit).Admissible := by
    rwa [replace_replace hadmissible hs hd]
  have hlinked' : ((p.replace u).replace s.unit).Linked g := by
    rwa [replace_replace hadmissible hs hd]
  have hmentioned : ∀ type, g'.mentioned? p.platform false type =
      g.mentioned? p.platform false type := fun type =>
    (hcore.mentioned? hl.tame hl'.tame type).symm
  have hsame : ∀ e : Edge, e.kind.isBody = false → e.kind ≠ .annotatedBy →
      (e ∈ g'.edges ↔ e ∈ g.edges) := fun e hbody hkind =>
    ⟨fun he => hl'.mem_edges_replace hq hadmissible' hs' hd.symm hlinked' he hbody hkind,
      fun he => hl.mem_edges_replace hadmissible hq hs hd hl' he hbody hkind⟩
  refine ⟨hd.name_eq, hq.gathered, g', hb', hcore, fun id n n' => hcore.bare_eq hl.tame hl'.tame, hsame,
    fun hall id name => ?_, fun hshow e hbody => ?_⟩
  · by_cases hid : id.className = s.unit.name
    · have hnew := hl'.annotatedBy_iff hq hs' name (hid.trans hd.name_eq.symm)
      have hold := hl.annotatedBy_iff hadmissible hs name hid
      change _ ↔ ∃ type, u.ShowsOn id type ∧ g'.mentioned? p.platform false type = some name at hnew
      simp only [hmentioned] at hnew
      rw [← hnew, ← hold]
      exact hall _ rfl
    · have hnot : ∀ v : CompiledUnit, v.name = s.unit.name → ∀ type, ¬ v.ShowsOn id type :=
        fun v hv type htype =>
          hid ((CompiledUnit.className_of_mem_nodeIds htype.mem_nodeIds).trans hv)
      exact ⟨fun ⟨type, htype, _⟩ => (hnot u hd.name_eq type htype).elim,
        fun ⟨type, htype, _⟩ => (hnot s.unit rfl type htype).elim⟩
  · by_cases hk : e.kind = .annotatedBy
    · refine ⟨hl'.annotatedBy_replace hq hadmissible' hs' hd.symm hlinked' (fun id name => ?_) hk,
        hl.annotatedBy_replace hadmissible hq hs hd hl' (fun id name => (hshow id name).mpr) hk⟩
      change (∃ type, u.ShowsOn id type ∧ g'.mentioned? p.platform false type = some name) →
        ∃ type, s.unit.ShowsOn id type ∧ g'.mentioned? p.platform false type = some name
      simp only [hmentioned]
      exact (hshow id name).mp
    · exact hsame e hbody hk

theorem rebuilt_alike_of_no_structuralChanges_labels :
    (labels true).Gathered ∧ relabelled.check = .ok () ∧ ∃ g, (labels true).build = .ok g ∧
      g.structuralChanges ⟨"in/A.json"⟩ relabelled = [] ∧
      ∃ g', ((labels true).replace relabelled).build = .ok g' ∧
        ∀ e : Edge, e.kind.isBody = false → (e ∈ g'.edges ↔ e ∈ g.edges) := by
  have hu : relabelled.check = .ok () := by decide +kernel
  obtain ⟨g, hb⟩ := exists_build_labels true
  have hnone : g.structuralChanges ⟨"in/A.json"⟩ relabelled = [] :=
    ((linked_of_build hb).structuralChanges_eq_nil_iff (gathered_labels true).admissible
      (labelled_mem_labels true) (path_labels true) hu).mpr
      ⟨rfl, sameDeclarations_labelled (by decide) (by decide)⟩
  obtain ⟨_, _, g', hb', _, _, _, hiff⟩ := rebuilt_alike_of_no_structuralChanges (gathered_labels true)
    hb (labelled_mem_labels true) (path_labels true) hu hnone
  refine ⟨gathered_labels true, hu, g, hb, hnone, g', hb', hiff.mpr fun id name => ?_⟩
  simp [relabelled, showsOn_labelled, label]

/-- An annotation that becomes visible passes, and leads to its type only in the new graph. -/
theorem visible_annotation_passes :
    (labels false).Gathered ∧ (labelled [label true] none).check = .ok () ∧
    ∃ g, (labels false).build = .ok g ∧
      g.structuralChanges ⟨"in/A.json"⟩ (labelled [label true] none) = [] ∧
      ∃ g', ((labels false).replace (labelled [label true] none)).build = .ok g' ∧
        ⟨.class_ "a/A", .class_ "a/Ann", .annotatedBy⟩ ∈ g'.edges ∧
        ⟨.class_ "a/A", .class_ "a/Ann", .annotatedBy⟩ ∉ g.edges := by
  have hu : (labelled [label true] none).check = .ok () := by decide +kernel
  have hp := (gathered_labels false).admissible
  have hs := labelled_mem_labels false
  have hd : (labelled [label false] none).SameDeclarations (labelled [label true] none) :=
    sameDeclarations_labelled (by decide) (by decide)
  have hq := admissible_replace hp hs hd hu rfl
  obtain ⟨g, hb⟩ := exists_build_labels false
  obtain ⟨g', hb'⟩ := exists_build_replace hp hs hd hq ⟨g, hb⟩
  have hl := linked_of_build hb
  have hl' := linked_of_build hb'
  refine ⟨gathered_labels false, hu, g, hb,
    (hl.structuralChanges_eq_nil_iff hp hs (path_labels false) hu).mpr ⟨rfl, hd⟩, g', hb', ?_, ?_⟩
  · rw [hl'.annotatedBy_iff hq ((mem_units_replace_iff hp hs hd).mpr (.inl rfl)) "a/Ann" rfl]
    refine ⟨"a/Ann", showsOn_labelled.mpr ⟨rfl, _, List.mem_singleton.mpr rfl, rfl, rfl⟩, ?_⟩
    have hknown : (labels false).skeleton.mentioned? (labels false).platform false "a/Ann" =
        some "a/Ann" := by
      decide +kernel
    have hcore := hl.core.trans (hl.sameCore_replace hp hq hs hd hl')
    exact (hcore.mentioned? (labels false).tame_skeleton hl'.tame "a/Ann").symm.trans hknown
  · rw [hl.annotatedBy_iff hp hs "a/Ann" rfl]
    rintro ⟨type, hshow, _⟩
    obtain ⟨_, a, ha, hv, _⟩ := showsOn_labelled.mp hshow
    rw [List.mem_singleton.mp ha] at hv
    cases hv

end Program

end Winnow
