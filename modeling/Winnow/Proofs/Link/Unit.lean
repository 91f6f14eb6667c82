import Winnow.Link.Unit
import Winnow.Proofs.Graph.Ladder

/-!
# The links of a unit, as edges

All links of a unit start at its own nodes. Those of its declarations and those
of its bodies stand for edges of different kinds, and neither for edges of the
hierarchy; so what they stand for can be read off any graph with the same core.
-/
namespace Winnow

namespace Link

/-- The link makes no demand on the hierarchy, and leads to no class that has to be there already
unless for a signature. -/
structure Lateral (l : Link) : Prop where
  outside : l.inHierarchy = false
  kinds : l.Kinds (·.isHierarchy = false)
  known : ∀ e, l = .known e → e.kind = .signature ∨ e.target.isClass = false

theorem lateral_mention {source : NodeId} {kind : EdgeKind} {name : String}
    (hk : kind.isHierarchy = false) : (Link.mention source kind name).Lateral :=
  ⟨rfl, hk, fun _ h => by cases h⟩

end Link

section Declarations
variable {u : CompiledUnit} {l : Link} {source : NodeId}

/-- What is said of each link of a declaration. -/
structure DeclarationLink (source : NodeId) (l : Link) : Prop where
  lateral : l.Lateral
  source_eq : l.source = source
  kinds : l.Kinds (·.isBody = false)
  within : ∀ e, l = .known e → e.target.className = source.className
  /-- A class that is mentioned is kept with the source. -/
  mentions : (∃ kind name, l = .mention source kind name ∧ kind.propagation = .shell) ∨
    ∃ e, l = .known e

theorem declarationLink_mention {kind : EdgeKind} {name : String}
    (hk : kind.isHierarchy = false ∧ kind.isBody = false ∧ kind.propagation = .shell) :
    DeclarationLink source (.mention source kind name) :=
  ⟨Link.lateral_mention hk.1, rfl, hk.2.1, nofun, .inl ⟨kind, name, rfl, hk.2.2⟩⟩

theorem declarationLink_known {target : NodeId} {kind : EdgeKind} (ht : target.isClass = false)
    (hc : target.className = source.className)
    (hk : kind.isHierarchy = false ∧ kind.isBody = false) :
    DeclarationLink source (.known ⟨source, target, kind⟩) :=
  ⟨⟨rfl, hk.1, fun e h => by cases h; exact .inr ht⟩, rfl, hk.2,
    fun e h => by cases h; exact hc, .inr ⟨_, rfl⟩⟩

theorem AnnotationUse.declarationLink {a : AnnotationUse} (hl : l ∈ a.links source) :
    DeclarationLink source l := by
  rcases List.mem_append.mp hl with hl | hl
  · split at hl
    · rw [List.mem_singleton.mp hl]
      exact declarationLink_mention ⟨rfl, rfl, rfl⟩
    · cases hl
  · obtain ⟨_, _, rfl⟩ := List.mem_map.mp hl
    exact declarationLink_mention ⟨rfl, rfl, rfl⟩

theorem Descriptor.declarationLink {descriptor : String} (hl : l ∈ Descriptor.links source descriptor) :
    DeclarationLink source l := by
  unfold Descriptor.links at hl
  split at hl
  · obtain ⟨_, _, rfl⟩ := List.mem_map.mp hl
    exact declarationLink_mention ⟨rfl, rfl, rfl⟩
  · cases hl

theorem CompiledUnit.id_mem_nodeIds (u : CompiledUnit) : u.id ∈ u.nodeIds := by simp [nodeIds]

theorem CompiledUnit.method_mem_nodeIds {m : Method} (hm : m ∈ u.methods) :
    m.id u.name ∈ u.nodeIds := by
  simp only [nodeIds, List.cons_append, List.mem_cons, List.mem_append, List.mem_map]
  exact .inr (.inl ⟨m, hm, rfl⟩)

theorem CompiledUnit.field_mem_nodeIds {f : Field} (hf : f ∈ u.fields) :
    f.id u.name ∈ u.nodeIds := by
  simp only [nodeIds, List.cons_append, List.mem_cons, List.mem_append, List.mem_map]
  exact .inr (.inr ⟨f, hf, rfl⟩)

theorem CompiledUnit.className_of_mem_nodeIds {id : NodeId} (h : id ∈ u.nodeIds) :
    id.className = u.name := by
  simp only [nodeIds, List.cons_append, List.mem_cons, List.mem_append, List.mem_map] at h
  rcases h with rfl | ⟨_, _, rfl⟩ | ⟨_, _, rfl⟩ <;> rfl

theorem CompiledUnit.declarationLink_method {m : Method} (hl : l ∈ u.methodLinks m) :
    DeclarationLink u.id l ∨ DeclarationLink (m.id u.name) l := by
  simp only [methodLinks, List.cons_append, List.append_assoc, List.mem_cons, List.mem_append] at hl
  rcases hl with rfl | hl | hl | hl | hl | hl
  · exact .inl (declarationLink_known rfl rfl ⟨rfl, rfl⟩)
  · exact .inr (Descriptor.declarationLink hl)
  · obtain ⟨_, _, rfl⟩ := List.mem_map.mp hl
    exact .inr (declarationLink_mention ⟨rfl, rfl, rfl⟩)
  · obtain ⟨_, _, hl⟩ := List.mem_flatMap.mp hl
    exact .inr (AnnotationUse.declarationLink hl)
  · obtain ⟨_, _, rfl⟩ := List.mem_map.mp hl
    exact .inr (declarationLink_mention ⟨rfl, rfl, rfl⟩)
  · split at hl
    · rw [List.mem_singleton.mp hl]
      exact .inl (declarationLink_known rfl rfl ⟨rfl, rfl⟩)
    · cases hl

theorem CompiledUnit.declarationLink_field {f : Field} (hl : l ∈ u.fieldLinks f) :
    DeclarationLink u.id l ∨ DeclarationLink (f.id u.name) l := by
  simp only [fieldLinks, List.cons_append, List.mem_cons, List.mem_append] at hl
  rcases hl with rfl | hl | hl
  · exact .inl (declarationLink_known rfl rfl ⟨rfl, rfl⟩)
  · exact .inr (Descriptor.declarationLink hl)
  · obtain ⟨_, _, hl⟩ := List.mem_flatMap.mp hl
    exact .inr (AnnotationUse.declarationLink hl)

/-- Every link of the declarations of a unit starts at one of its nodes and is no matter of the
hierarchy or of bodies. -/
theorem CompiledUnit.declarationLink_of_mem (hl : l ∈ u.declarationLinks) :
    ∃ source ∈ u.nodeIds, DeclarationLink source l := by
  simp only [declarationLinks, List.append_assoc, List.mem_append] at hl
  rcases hl with hl | hl | hl | hl
  · obtain ⟨_, _, hl⟩ := List.mem_flatMap.mp hl
    exact ⟨u.id, u.id_mem_nodeIds, AnnotationUse.declarationLink hl⟩
  · obtain ⟨_, _, rfl⟩ := List.mem_map.mp hl
    exact ⟨u.id, u.id_mem_nodeIds, declarationLink_mention ⟨rfl, rfl, rfl⟩⟩
  · obtain ⟨m, hm, hl⟩ := List.mem_flatMap.mp hl
    rcases declarationLink_method hl with hl | hl
    · exact ⟨_, u.id_mem_nodeIds, hl⟩
    · exact ⟨_, method_mem_nodeIds hm, hl⟩
  · obtain ⟨f, hf, hl⟩ := List.mem_flatMap.mp hl
    rcases declarationLink_field hl with hl | hl
    · exact ⟨_, u.id_mem_nodeIds, hl⟩
    · exact ⟨_, field_mem_nodeIds hf, hl⟩

end Declarations

section Bodies
variable {u : CompiledUnit} {l : Link} {source : NodeId}

/-- What is said of each link of a body. -/
structure BodyLink (source : NodeId) (l : Link) : Prop where
  lateral : l.Lateral
  source_eq : l.source = source
  kinds : l.Kinds (∃ use, · = .uses use)

theorem bodyLink_mention {use : Use} {name : String} :
    BodyLink source (.mention source (.uses use) name) :=
  ⟨Link.lateral_mention rfl, rfl, use, rfl⟩

theorem Instruction.bodyLink {i : Instruction} (hl : l ∈ i.links u source) : BodyLink source l := by
  cases i with
  | invoke dispatch target =>
    simp only [links] at hl
    split at hl
    · cases hl
    · rcases List.mem_cons.mp hl with rfl | hl
      · exact bodyLink_mention
      · rw [List.mem_singleton.mp hl]
        exact ⟨⟨rfl, fun _ => rfl, fun _ h => by cases h⟩, rfl, fun use => ⟨use, rfl⟩⟩
  | field target =>
    rcases List.mem_cons.mp hl with rfl | hl
    · exact bodyLink_mention
    · rw [List.mem_singleton.mp hl]
      exact ⟨⟨rfl, fun _ => rfl, fun _ h => by cases h⟩, rfl, fun use => ⟨use, rfl⟩⟩
  | new name | type name | classLiteral name =>
    rw [List.mem_singleton.mp hl]
    exact bodyLink_mention
  | reflect name member descriptor =>
    rcases List.mem_cons.mp hl with rfl | hl
    · exact bodyLink_mention
    · obtain ⟨_, _, rfl⟩ := List.mem_map.mp hl
      exact ⟨⟨rfl, fun _ => rfl, fun _ h => by cases h⟩, rfl, fun use => ⟨use, rfl⟩⟩

/-- The mention of a class in a signature. -/
def IsSignatureLink (source : NodeId) (l : Link) : Prop :=
  ∃ name, l = .known ⟨source, .class_ name, .signature⟩

theorem Signature.isSignatureLink {signature : Option String}
    (hl : l ∈ Signature.links source signature) : IsSignatureLink source l := by
  cases signature with
  | none => cases hl
  | some signature =>
    obtain ⟨name, _, rfl⟩ := List.mem_map.mp hl
    exact ⟨name, rfl⟩

theorem CompiledUnit.instruction_link_mem (hu : u.library = false) {m : Method} (hm : m ∈ u.methods)
    {i : Instruction} (hi : i ∈ m.body) (hl : l ∈ i.links u (m.id u.name)) : l ∈ u.bodyLinks := by
  simp only [bodyLinks, hu, Bool.false_eq_true, if_false, List.mem_append, List.mem_flatMap]
  exact .inr ⟨m, hm, .inr ⟨i, hi, hl⟩⟩

/-- The links that change with bodies and signatures come from signatures and instructions. -/
theorem CompiledUnit.of_mem_bodyLinks (hl : l ∈ u.bodyLinks) :
    (∃ source ∈ u.nodeIds, IsSignatureLink source l) ∨
      u.library = false ∧ ∃ m ∈ u.methods, ∃ i ∈ m.body, l ∈ i.links u (m.id u.name) := by
  unfold bodyLinks at hl
  split at hl
  next => cases hl
  next hlib =>
    simp only [List.append_assoc, List.mem_append, List.mem_flatMap] at hl
    rcases hl with hl | ⟨f, hf, hl⟩ | ⟨m, hm, hl | ⟨i, hi, hl⟩⟩
    · exact .inl ⟨u.id, u.id_mem_nodeIds, Signature.isSignatureLink hl⟩
    · exact .inl ⟨_, field_mem_nodeIds hf, Signature.isSignatureLink hl⟩
    · exact .inl ⟨_, method_mem_nodeIds hm, Signature.isSignatureLink hl⟩
    · exact .inr ⟨by simpa using hlib, m, hm, i, hi, hl⟩

/-- What a body stands for comes from an instruction, or it is for a signature. -/
theorem CompiledUnit.of_mem_bodyLinks_edges {platform : Platform} {g : Graph} {e : Edge}
    (hl : l ∈ u.bodyLinks) (he : e ∈ l.edges platform g) (hsig : e.kind ≠ .signature) :
    u.library = false ∧ ∃ m ∈ u.methods, ∃ i ∈ m.body, l ∈ i.links u (m.id u.name) := by
  refine (of_mem_bodyLinks hl).resolve_left ?_
  rintro ⟨source, _, name, rfl⟩
  have hkinds : (Link.known ⟨source, .class_ name, .signature⟩).Kinds (· = .signature) := rfl
  exact hsig (hkinds.of_mem_edges he)

theorem IsSignatureLink.lateral (hl : IsSignatureLink source l) : l.Lateral := by
  obtain ⟨name, rfl⟩ := hl
  exact ⟨rfl, rfl, fun e h => by cases h; exact .inl rfl⟩

theorem CompiledUnit.lateral_of_mem_bodyLinks (hl : l ∈ u.bodyLinks) :
    l.Lateral ∧ l.source ∈ u.nodeIds ∧ l.Kinds (·.isBody = true) := by
  rcases of_mem_bodyLinks hl with ⟨source, hs, hl⟩ | ⟨_, m, hm, i, _, hl⟩
  · refine ⟨hl.lateral, ?_⟩
    obtain ⟨name, rfl⟩ := hl
    exact ⟨hs, rfl⟩
  · have hb := Instruction.bodyLink hl
    refine ⟨hb.lateral, hb.source_eq ▸ method_mem_nodeIds hm, ?_⟩
    have hkinds := hb.kinds
    cases l with
    | supertype _ _ _ | mention _ _ _ | known _ =>
      obtain ⟨use, huse⟩ := hkinds
      simp only [Link.Kinds, huse]
      rfl
    | call _ _ _ _ _ | access _ _ _ | lookup _ _ _ _ => exact fun _ => rfl

theorem CompiledUnit.lateral_of_mem_declarationLinks (hl : l ∈ u.declarationLinks) :
    l.Lateral ∧ l.source ∈ u.nodeIds ∧ l.Kinds (·.isBody = false) := by
  obtain ⟨source, hs, hd⟩ := declarationLink_of_mem hl
  exact ⟨hd.lateral, hd.source_eq ▸ hs, hd.kinds⟩

/-- Declarations lead to classes and to members of their own class. -/
theorem CompiledUnit.target_of_mem_declarationLinks {platform : Platform} {g : Graph} {e : Edge}
    (hl : l ∈ u.declarationLinks) (he : e ∈ l.edges platform g) :
    e.target.isClass = true ∨ e.target.className = u.name := by
  obtain ⟨source, hs, hd⟩ := declarationLink_of_mem hl
  cases l with
  | supertype source kind name =>
    have := hd.lateral.outside
    cases this
  | mention source kind name =>
    obtain ⟨_, _, rfl⟩ := List.mem_map.mp he
    exact .inl rfl
  | known edge =>
    simp only [Link.edges] at he
    split at he
    · rw [List.mem_singleton.mp he, hd.within edge rfl]
      exact .inr (className_of_mem_nodeIds hs)
    · cases he
  | call source dispatch start receiver key => cases hd.kinds .call
  | access source owner key => cases hd.kinds .call
  | lookup source name member descriptor => cases hd.kinds .call

end Bodies

namespace Graph

variable {S g g' : Graph} {platform : Platform} {links : List Link} {x : Edge}

/-- A lateral link stands for the same edges in graphs with the same core, if not for a signature. -/
theorem SameCore.mem_edges_iff (h : SameCore S g) (hS : S.Tame platform) (hg : g.Tame platform)
    {l : Link} (hl : l.Lateral) (hx : x.kind ≠ .signature) :
    x ∈ l.edges platform S ↔ x ∈ l.edges platform g := by
  by_cases hk : ∃ e, l = .known e ∧ e.kind = .signature
  · obtain ⟨e, rfl, he⟩ := hk
    -- Such a link stands for edges of signatures only.
    have hnot : ∀ g : Graph, x ∉ (Link.known e).edges platform g := by
      intro g hmem
      simp only [Link.edges] at hmem
      split at hmem
      · exact hx (by rw [List.mem_singleton.mp hmem, he])
      · cases hmem
    exact ⟨fun hmem => (hnot S hmem).elim, fun hmem => (hnot g hmem).elim⟩
  · have hknown : ∀ e, l = .known e → e.target.isClass = false := by
      intro e he
      exact (hl.known e he).resolve_left fun hsig => hk ⟨e, he, hsig⟩
    rw [h.link_edges hS hg hl.outside hknown]

/-- Lateral links add exactly the edges that they stand for in any graph with the same core. Edges
for signatures are left out of account: these depend on which stand-ins are there. -/
theorem SameCore.mem_applyLinks (h : SameCore S g) (hS : S.Tame platform) (hg : g.Tame platform)
    (hl : ∀ l ∈ links, l.Lateral) (hs : ∀ l ∈ links, g.contains l.source = true)
    (hx : x.kind ≠ .signature) : x ∈ (applyLinks platform g links).edges ↔
      x ∈ g.edges ∨ ∃ l ∈ links, x ∈ l.edges platform S := by
  induction links generalizing g with
  | nil => simp [applyLinks]
  | cons l links ih =>
    have hlat := hl l List.mem_cons_self
    have hext : Extension platform false g (applyLink platform g l) := by
      have hext : Extension platform l.inHierarchy g (applyLink platform g l) := applyLink_extension
      rwa [hlat.outside] at hext
    have hsame := h.symm.mem_edges_iff hg hS hlat hx
    have hrest := ih (h.trans hext.sameCore) (hg.extend hext)
      (fun k hk => hl k (List.mem_cons_of_mem l hk))
      (fun k hk => hext.contains (hs k (List.mem_cons_of_mem l hk)))
    rw [applyLinks, List.foldl_cons, ← applyLinks, hrest, mem_applyLink, hsame, or_assoc]
    simp only [hs l List.mem_cons_self, true_and, List.mem_cons, exists_eq_or_imp]

/-- All edges that links add start at the source of a link and are of a kind that it stands for. -/
theorem of_mem_applyLinks {P : EdgeKind → Prop} (hl : ∀ l ∈ links, l.Kinds P)
    (hx : x ∈ (applyLinks platform g links).edges) :
    x ∈ g.edges ∨ P x.kind ∧ ∃ l ∈ links, x.source = l.source := by
  induction links generalizing g with
  | nil => exact .inl hx
  | cons l links ih =>
    rcases ih (fun k hk => hl k (List.mem_cons_of_mem l hk)) hx with hx | ⟨hk, k, hmem, hs⟩
    · rcases mem_applyLink.mp hx with hx | ⟨_, hx⟩
      · exact .inl hx
      · exact .inr ⟨(hl l List.mem_cons_self).of_mem_edges hx, l, List.mem_cons_self,
          Link.source_of_mem_edges hx⟩
    · exact .inr ⟨hk, k, List.mem_cons_of_mem l hmem, hs⟩

/-- A link of other kinds leaves the edges of given kinds as they were, in order. -/
theorem Applied.filter_edges {l : Link} {fresh : List Edge} {q : EdgeKind → Bool}
    (h : Applied platform g l g' fresh) (hl : l.Kinds (q · = false)) :
    g'.edges.filter (q ·.kind) = g.edges.filter (q ·.kind) := by
  have hadded : ∀ e ∈ l.edges platform g, q e.kind = false := fun e he => hl.of_mem_edges he
  cases h with
  | absent => rfl
  | mention => rw [filter_addEdges hadded, edges_provide]
  | known => exact filter_addEdges hadded
  | missing => rw [edges_recordMissing]

theorem filter_applyLinks {q : EdgeKind → Bool} (hl : ∀ l ∈ links, l.Kinds (q · = false)) :
    (applyLinks platform g links).edges.filter (q ·.kind) = g.edges.filter (q ·.kind) := by
  induction links generalizing g with
  | nil => rfl
  | cons l links ih =>
    exact (ih fun k hk => hl k (List.mem_cons_of_mem l hk)).trans
      (applied_applyLink.filter_edges (hl l List.mem_cons_self))

theorem ladder_applyLinks (hl : ∀ l ∈ links, l.Lateral) :
    (applyLinks platform g links).ladder = g.ladder :=
  filter_applyLinks fun l hmem => (hl l hmem).kinds

theorem applyLinks_extension_of_lateral (hl : ∀ l ∈ links, l.Lateral) :
    Extension platform false g (applyLinks platform g links) :=
  applyLinks_extension fun l hmem hh => by simp [(hl l hmem).outside] at hh

end Graph

end Winnow
