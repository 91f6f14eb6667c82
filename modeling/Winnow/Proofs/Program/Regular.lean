import Winnow.Proofs.Program.Declared
import Winnow.Proofs.Program.Relink

/-!
# Where edges lead

In a graph that stands for a program, edges start at known nodes, bodies belong
to members, the receivers of virtual calls are known, and whatever an edge or a
dispatched call can make a marking keep is a class or a member that its class
lists.
-/
namespace Winnow

/-- The uses that calls make. -/
inductive Use.IsCall : Use → Prop
  | call : IsCall .call
  | virtualCall (receiver : String) : IsCall (.virtualCall receiver)

namespace Graph

variable {g g' : Graph} {platform : Platform} {id : NodeId} {name : String} {key : MemberKey}

/-- A member stands in the list of its class. -/
def Lists (g : Graph) (id : NodeId) : Prop :=
  id.isClass = true ∨ ∃ c, g.class? id.className = some c ∧ id ∈ c.members

/-- What a marking relies on besides the form of the graph. -/
structure Regular (platform : Platform) (g : Graph) : Prop where
  wellFormed : g.WellFormed
  tame : g.Tame platform
  sources : ∀ e ∈ g.edges, g.core e.source ≠ none
  uses : ∀ e ∈ g.edges, ∀ use, e.kind = .uses use → e.source.isClass = false
  receivers : ∀ e ∈ g.edges, ∀ receiver, e.kind = .uses (.virtualCall receiver) →
    g.core (.class_ receiver) ≠ none
  /-- A class lists its own members only. -/
  own : ∀ name c, g.class? name = some c → ∀ id ∈ c.members,
    id.isClass = false ∧ id.className = name
  /-- A class of the program lists all of its members. -/
  complete : ∀ id c, g.contains id = true → g.class? id.className = some c → c.isProgram = true →
    g.Lists id
  targets : ∀ e ∈ g.edges, ∀ d, e.demand? = some d → g.Lists e.target

theorem SameCore.lists (h : SameCore g g') (hg : g.Tame platform) (hg' : g'.Tame platform)
    (hl : g.Lists id) : g'.Lists id := by
  rcases hl with hc | ⟨c, hc, hmem⟩
  · exact .inl hc
  · rcases h.class?_of_eq_some hg hg' hc with ⟨d, hd, hb⟩ | rfl
    · exact .inr ⟨d, hd, by rwa [ClassNode.members_of_bare_eq hb]⟩
    · exact absurd hmem (SortedSet.not_mem_empty id)

/-- Nothing is found above a class of which nothing is known. -/
theorem Blank.eq_of_mem_searchOrder (hb : g.Blank name) {s : String}
    (hs : s ∈ g.searchOrder name) : s = name := by
  have habove : SameAbove (· = name) g g := by
    refine ⟨?_, fun _ _ => rfl, fun _ _ => rfl⟩
    rintro n rfl s (hs | hs)
    · rw [hb.superclass?] at hs
      cases hs
    · rw [hb.interfacesOf] at hs
      cases hs
  exact habove.of_mem_searchOrder rfl hs

/-- A member that is found is declared by a class of the program. -/
theorem resolve_eq_declared {start : String} {kind : NodeKind}
    (h : g.resolve start kind key = .declared id) :
    ∃ s ∈ g.searchOrder start, ∃ c, g.class? s = some c ∧ c.isProgram = true ∧
      g.declared s kind key = some id := by
  unfold resolve at h
  cases hf : (g.searchOrder start).findSome? (g.resolveIn kind key) with
  | none =>
    simp only [hf] at h
    split at h <;> cases h
  | some r =>
    simp only [hf] at h
    obtain ⟨s, hs, hr⟩ := List.exists_of_findSome?_eq_some hf
    rw [h] at hr
    refine ⟨s, hs, ?_⟩
    unfold resolveIn at hr
    split at hr
    · split at hr <;> cases hr
    · obtain ⟨c, hc, hr⟩ := Option.bind_eq_some_iff.mp hr
      obtain ⟨id', hd, hr⟩ := Option.bind_eq_some_iff.mp hr
      cases hp : c.isProgram with
      | true =>
        rw [hp] at hr
        cases hr
        exact ⟨c, hc, hp, hd⟩
      | false =>
        rw [hp] at hr
        cases hr

/-- A search that finds something starts at a known class. -/
theorem Tame.core_of_resolve (hg : g.Tame platform) {start : String} {kind : NodeKind}
    (h : g.resolve start kind key = .declared id) : g.core (.class_ start) ≠ none := by
  intro hnone
  have hk : g.known? start = none := by rw [known?, hnone]; rfl
  have hb := hg.blank_of_known? hk
  obtain ⟨s, hs, c, hc, hp, _⟩ := resolve_eq_declared h
  obtain rfl := hb.eq_of_mem_searchOrder hs
  rcases hb with hb | hb
  · rw [hb] at hc
    cases hc
  · obtain rfl := Option.some.inj (hc.symm.trans hb)
    cases hp

/-- What runs on a receiver is declared by a class of the program. -/
theorem implementation_eq_some {h : Hierarchy} {class_ : NodeId}
    (hi : g.implementation h class_ key = some id) :
    ∃ s c, g.class? s = some c ∧ c.isProgram = true ∧ g.declared s .method key = some id := by
  unfold implementation at hi
  split at hi
  next decision hd =>
    obtain ⟨s, _, hs⟩ := List.exists_of_findSome?_eq_some hd
    rw [hi] at hs
    unfold chainDecision at hs
    obtain ⟨c, hc, hs⟩ := Option.bind_eq_some_iff.mp hs
    obtain ⟨id', hdecl, hs⟩ := Option.bind_eq_some_iff.mp hs
    obtain ⟨m, _, hs⟩ := Option.bind_eq_some_iff.mp hs
    split at hs
    · cases hs
    · split at hs
      · cases hs
      next hno =>
        cases hs
        refine ⟨s, c, hc, ?_, hdecl⟩
        simp only [Bool.or_eq_true, Bool.not_eq_true', not_or, Bool.not_eq_false] at hno
        exact hno.2
  next =>
    obtain ⟨s, _, hs⟩ := List.exists_of_findSome?_eq_some hi
    unfold defaultMethod? at hs
    obtain ⟨n, hn, hs⟩ := Option.bind_eq_some_iff.mp hs
    obtain ⟨c, hc, hs⟩ := Option.bind_eq_some_iff.mp hs
    split at hs
    · cases hs
    next hno =>
      obtain ⟨id', hdecl, hs⟩ := Option.bind_eq_some_iff.mp hs
      obtain ⟨m, _, hs⟩ := Option.bind_eq_some_iff.mp hs
      split at hs
      · cases hs
      · cases hs
        simp only [Bool.or_eq_true, Bool.not_eq_true', not_or, Bool.not_eq_false] at hno
        refine ⟨c.name, c, ?_, hno.2, hdecl⟩
        cases n with
        | member _ => cases hc
        | class_ d =>
          obtain rfl := Option.some.inj hc
          refine class?_of_node? ?_
          have hid : NodeId.class_ d.name = s := id_of_node? hn
          rw [hid, hn]

theorem mem_lookedUp_listed {member : String} {descriptor : Option String}
    (h : id ∈ g.lookedUp name member descriptor) : ∃ c, g.class? name = some c ∧ id ∈ c.members := by
  obtain ⟨m, hm, rfl⟩ := List.mem_map.mp h
  have hmem := List.mem_of_mem_filter hm
  unfold membersOf at hmem
  cases hc : g.class? name with
  | none => simp [hc] at hmem
  | some c =>
    simp only [hc] at hmem
    obtain ⟨x, hx, hxm⟩ := List.mem_filterMap.mp hmem
    exact ⟨c, rfl, (member?_eq_some hxm).2 ▸ hx⟩

end Graph

namespace Program

open Graph

variable {p : Program} {g : Graph} {e : Edge} {id : NodeId} {name : String}

/-- A class lists its own members only. -/
theorem own_skeleton {c : ClassNode} (hc : p.skeleton.class? name = some c) (hid : id ∈ c.members) :
    id.isClass = false ∧ id.className = name := by
  rcases of_class?_skeleton hc with hd | ⟨_, origin, rfl, _⟩
  · obtain ⟨u, _, rfl, origin, rfl, _⟩ := of_class?_declared hd
    obtain ⟨hmem, hclass⟩ := CompiledUnit.mem_members_fullNode.mp hid
    exact ⟨hclass, CompiledUnit.className_of_mem_nodeIds hmem⟩
  · exact absurd hid (SortedSet.not_mem_empty id)

/-- A class of the program lists all of its members. -/
theorem lists_skeleton (hp : p.Admissible) (hname : id.className ∈ p.names)
    (hin : p.skeleton.contains id = true) : p.skeleton.Lists id := by
  cases hc : id.isClass with
  | true => exact .inl hc
  | false =>
    obtain ⟨m, hm⟩ := member?_of_contains hc hin
    rw [p.skeleton_extension.member?] at hm
    obtain ⟨s, hs, heq⟩ := List.mem_map.mp hname
    have hmem := mem_nodeIds_of_contains hp hs heq.symm
      (contains_iff_node?.mpr ⟨_, (member?_eq_some hm).1⟩)
    refine .inr ⟨_, heq ▸ class?_skeleton hp hs, CompiledUnit.mem_members_fullNode.mpr ⟨hmem, hc⟩⟩

theorem lists_of_declared (hp : p.Admissible) {kind : NodeKind} {key : MemberKey} {c : ClassNode}
    (hc : p.skeleton.class? name = some c) (hprog : c.isProgram = true)
    (hd : p.skeleton.declared name kind key = some id) : p.skeleton.Lists id :=
  lists_skeleton hp ((declared_spec hd).2 ▸ (isProgram_iff hc).mp hprog) (contains_of_declared hd)

/-- The hierarchy leads to classes. -/
theorem isClass_of_mem_edges_skeleton (he : e ∈ p.skeleton.edges) : e.target.isClass = true := by
  revert he
  refine List.foldlRecOn (motive := fun g : Graph => e ∈ g.edges → e.target.isClass = true) _ _ ?_ ?_
  · rw [edges_declared]
    nofun
  · intro g hg u _
    refine List.foldlRecOn (motive := fun g : Graph => e ∈ g.edges → e.target.isClass = true) _ _ hg ?_
    intro g hg l hl he
    refine (mem_applyLink.mp he).elim hg fun he => ?_
    have hedge := he.2
    rcases List.mem_append.mp hl with hl | hl
    all_goals
      obtain ⟨_, _, rfl⟩ := List.mem_map.mp hl
      obtain ⟨_, _, rfl⟩ := List.mem_map.mp hedge
      rfl

theorem eq_of_mem_resolvedEdges {source : NodeId} {use : NodeId → Use} {r : Resolution}
    (he : e ∈ Link.resolvedEdges source use r) :
    ∃ id, r = .declared id ∧ e = ⟨source, id, .uses (use id)⟩ := by
  cases r with
  | declared id => exact ⟨id, rfl, List.mem_singleton.mp he⟩
  | external | missing => cases he

/-- Bodies lead to classes, to members of the program, and to members that their class lists. -/
theorem lists_of_body (hp : p.Admissible) {u : CompiledUnit} {source : NodeId} {i : Instruction}
    {l : Link} (hl : l ∈ i.links u source) (he : e ∈ l.edges p.platform p.skeleton) :
    p.skeleton.Lists e.target := by
  have hresolved : ∀ {start : String} {kind : NodeKind} {key : MemberKey} {use : NodeId → Use},
      e ∈ Link.resolvedEdges source use (p.skeleton.resolve start kind key) →
      p.skeleton.Lists e.target := by
    intro start kind key use he
    obtain ⟨id, hr, rfl⟩ := eq_of_mem_resolvedEdges he
    obtain ⟨s, _, c, hc, hprog, hd⟩ := resolve_eq_declared hr
    exact lists_of_declared hp hc hprog hd
  cases l with
  | supertype _ _ _ | mention _ _ _ =>
    obtain ⟨_, _, rfl⟩ := List.mem_map.mp he
    exact .inl rfl
  | known k => cases i <;> simp [Instruction.links] at hl
  | call source' _ _ _ _ =>
    obtain rfl : source' = source := (Instruction.bodyLink hl).source_eq
    exact hresolved he
  | access source' _ _ =>
    obtain rfl : source' = source := (Instruction.bodyLink hl).source_eq
    exact hresolved he
  | lookup _ name member descriptor =>
    obtain ⟨name', _, he⟩ := List.mem_flatMap.mp he
    obtain ⟨id, hid, rfl⟩ := List.mem_map.mp he
    obtain ⟨c, hc, hmem⟩ := mem_lookedUp_listed hid
    exact .inr ⟨c, (own_skeleton hc hmem).2 ▸ hc, hmem⟩

theorem kind_of_mention {source : NodeId} {kind : EdgeKind}
    (he : e ∈ (Link.mention source kind name).edges p.platform p.skeleton) : e.kind = kind := by
  obtain ⟨_, _, rfl⟩ := List.mem_map.mp he
  rfl

/-- A use that is a call comes from a call and leads to what the search for its method finds. -/
theorem call_of_body {u : CompiledUnit} {source : NodeId} {i : Instruction} {l : Link} {use : Use}
    (hl : l ∈ i.links u source) (he : e ∈ l.edges p.platform p.skeleton) (hk : e.kind = .uses use)
    (hcall : use.IsCall) : ∃ dispatch target id, i = .invoke dispatch target ∧
      Text.startsWith target.owner "[" = false ∧
      p.skeleton.resolve (Instruction.searchStart u dispatch target) .method target.key =
        .declared id ∧
      e = ⟨source, id, .uses (p.skeleton.useOfCall dispatch target.owner id)⟩ := by
  cases i with
  | invoke dispatch target =>
    simp only [Instruction.links] at hl
    split at hl
    · cases hl
    next harray =>
      rcases List.mem_cons.mp hl with rfl | hl
      · cases (kind_of_mention he).symm.trans hk
        cases hcall
      · rw [List.mem_singleton.mp hl] at he
        obtain ⟨id, hr, heq⟩ := eq_of_mem_resolvedEdges he
        exact ⟨dispatch, target, id, rfl, Bool.eq_false_iff.mpr harray, hr, heq⟩
  | field target =>
    simp only [Instruction.links, List.mem_cons, List.not_mem_nil, or_false] at hl
    rcases hl with rfl | rfl
    · cases (kind_of_mention he).symm.trans hk
      cases hcall
    · obtain ⟨id, _, rfl⟩ := eq_of_mem_resolvedEdges he
      cases hk
      cases hcall
  | new class_ | type class_ | classLiteral class_ =>
    rw [List.mem_singleton.mp hl] at he
    cases (kind_of_mention he).symm.trans hk
    cases hcall
  | reflect class_ member descriptor =>
    rcases List.mem_cons.mp hl with rfl | hl
    · cases (kind_of_mention he).symm.trans hk
      cases hcall
    · obtain ⟨m, _, rfl⟩ := List.mem_map.mp hl
      obtain ⟨_, _, he⟩ := List.mem_flatMap.mp he
      obtain ⟨_, _, rfl⟩ := List.mem_map.mp he
      cases hk
      cases hcall

/-- A virtual call is found by a search that starts at its receiver. -/
theorem receiver_of_body {u : CompiledUnit} {source : NodeId} {i : Instruction} {l : Link}
    {receiver : String} (hl : l ∈ i.links u source) (he : e ∈ l.edges p.platform p.skeleton)
    (hk : e.kind = .uses (.virtualCall receiver)) : p.skeleton.core (.class_ receiver) ≠ none := by
  obtain ⟨dispatch, target, id, _, _, hr, rfl⟩ := call_of_body hl he hk (.virtualCall receiver)
  -- Only the two kinds of calls that choose a method at run time give such an edge.
  have hstart : target.owner = receiver ∧
      Instruction.searchStart u dispatch target = target.owner := by
    cases dispatch with
    | static | special => cases hk
    | virtual | interface =>
      simp only [useOfCall] at hk
      split at hk
      · cases hk
      · cases hk
        refine ⟨rfl, ?_⟩
        unfold Instruction.searchStart
        split <;> simp
  rw [← hstart.1, ← hstart.2]
  exact p.tame_skeleton.core_of_resolve hr

/-- An edge that is no matter of the hierarchy or of signatures is one that the program says. -/
theorem Linked.links (hl : p.Linked g) (he : e ∈ g.edges) :
    e ∈ p.skeleton.edges ∨ e.kind = .signature ∨ p.Links e := by
  by_cases hk : e.kind.isHierarchy = true
  · left
    have : e ∈ g.ladder := List.mem_filter.mpr ⟨he, hk⟩
    rw [hl.ladder] at this
    exact List.mem_of_mem_filter this
  · by_cases hs : e.kind = .signature
    · exact .inr (.inl hs)
    · exact .inr (.inr ((hl.edges e (by simpa using hk) hs).mp he))

/-- A use comes from a body. -/
theorem Linked.body_of_use (hl : p.Linked g) (he : e ∈ g.edges) {use : Use}
    (hk : e.kind = .uses use) : ∃ s ∈ p.units, ∃ m ∈ s.unit.methods, ∃ i ∈ m.body,
      ∃ l ∈ i.links s.unit (m.id s.unit.name), e ∈ l.edges p.platform p.skeleton := by
  rcases hl.links he with he | hs | hlinks
  · have := (of_mem_edges_skeleton he).1
    rw [hk] at this
    cases this
  · rw [hk] at hs
    cases hs
  · cases hlinks with
    | declaration hmem hl he =>
      have := (CompiledUnit.lateral_of_mem_declarationLinks hl).2.2.of_mem_edges he
      rw [hk] at this
      cases this
    | @body s m i l hmem hlib hm hi hl he => exact ⟨s, hmem, m, hm, i, hi, l, hl, he⟩
    | override hmem hm he =>
      rcases kind_of_mem_overrideEdges he with ⟨hk', _⟩ | rfl
      · rw [hk] at hk'
        cases hk'
      · cases hk

theorem Linked.mem_names_of_isProgram (hl : p.Linked g) {name : String} {c : ClassNode}
    (hc : g.class? name = some c) (hprog : c.isProgram = true) : name ∈ p.names := by
  rcases hl.core.symm.class?_of_eq_some hl.tame p.tame_skeleton hc with ⟨d, hd, hb⟩ | rfl
  · exact (isProgram_iff hd).mp ((ClassNode.profile_of_bare_eq hb).isProgram.trans hprog)
  · cases hprog

/-- A member that is there and whose class is a unit of the program is listed there. -/
theorem Linked.lists_of_mem_names (hp : p.Admissible) (hl : p.Linked g) {id : NodeId}
    (hin : g.contains id = true) (hname : id.isClass = false → id.className ∈ p.names) :
    g.Lists id := by
  refine hl.core.lists p.tame_skeleton hl.tame ?_
  cases hclass : id.isClass with
  | true => exact .inl hclass
  | false => exact lists_skeleton hp (hname hclass) (hl.core.contains_eq hclass ▸ hin)

/-- What edges other than signatures lead to is listed. -/
theorem Linked.lists_target (hp : p.Admissible) (hl : p.Linked g) (he : e ∈ g.edges) {d : Demand}
    (hd : e.demand? = some d) : g.Lists e.target := by
  have hmember : ∀ s ∈ p.units, e.target.isClass = true ∨ e.target.className = s.unit.name →
      g.Lists e.target := by
    intro s hs htarget
    refine hl.lists_of_mem_names hp (hl.wellFormed.ends e he).2 fun hclass => ?_
    rw [hclass] at htarget
    rw [htarget.resolve_left Bool.false_ne_true]
    exact mem_names hs
  rcases hl.links he with he | hs | hlinks
  · exact .inl (isClass_of_mem_edges_skeleton he)
  · rw [Edge.demand?, hs] at hd
    cases hd
  · cases hlinks with
    | @declaration s l hmem hlink he =>
      exact hmember s hmem (CompiledUnit.target_of_mem_declarationLinks hlink he)
    | body hmem hlib hm hi hlink he =>
      exact hl.core.lists p.tame_skeleton hl.tame (lists_of_body hp hlink he)
    | @override s m hmem hm he =>
      rcases kind_of_mem_overrideEdges he with ⟨hk, _⟩ | rfl
      · rw [Edge.demand?, hk] at hd
        cases hd
      · exact hmember s hmem (.inr rfl)

/-- A graph that stands for a program is regular. -/
theorem Linked.regular (hp : p.Admissible) (hl : p.Linked g) : g.Regular p.platform where
  wellFormed := hl.wellFormed
  tame := hl.tame
  sources e he := by
    obtain ⟨u, hu, hid⟩ := hl.sources e he
    exact hl.core_of_roster hu hid
  uses e he use hk := by
    obtain ⟨s, _, m, _, i, _, l, hlink, he⟩ := hl.body_of_use he hk
    rw [Link.source_of_mem_edges he, (Instruction.bodyLink hlink).source_eq]
    rfl
  receivers e he receiver hk := by
    obtain ⟨s, _, m, _, i, _, l, hlink, he⟩ := hl.body_of_use he hk
    rw [← hl.core]
    exact receiver_of_body hlink he hk
  own name c hc id hid := by
    rcases hl.core.symm.class?_of_eq_some hl.tame p.tame_skeleton hc with ⟨d, hd, hb⟩ | rfl
    · rw [← ClassNode.members_of_bare_eq hb] at hid
      exact own_skeleton hd hid
    · exact absurd hid (SortedSet.not_mem_empty id)
  complete id c hin hc hprog :=
    hl.lists_of_mem_names hp hin fun _ => hl.mem_names_of_isProgram hc hprog
  targets e he d hd := hl.lists_target hp he hd

end Program

end Winnow
