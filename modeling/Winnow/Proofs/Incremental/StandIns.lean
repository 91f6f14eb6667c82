import Winnow.Proofs.Incremental.Placeholders
import Winnow.Proofs.Pruning.Linking

/-!
# Marking again never takes from stand-ins

Over-deletion passes stand-ins by, since they are kept in any case. How much of one is kept
depends on the code that mentions it all the same: once kept in full, a stand-in stays so for as
long as it is there, whereas marking the new graph from scratch may leave a shell. On everything
else the two agree.
-/
namespace Winnow

open Graph Marking

namespace Assignment

variable {g : Graph} {h : Hierarchy} {platform : Platform} {isRoot : Node → Bool} {A : Assignment}
  {t : CounterTable} {id : NodeId} {s : KeepState}

/-- The assignment, but with as much of every stand-in as a table keeps. -/
def withStandIns (A : Assignment) (g : Graph) (t : CounterTable) : Assignment :=
  { A with keeps := fun id s => A.keeps id s ∨ g.StandsIn id ∧ t.keeps id s }

theorem Closed.shell_of_standsIn (hA : A.Closed g h isRoot) (hid : g.StandsIn id) :
    A.keeps id .shell := by
  obtain ⟨c, hc, hu⟩ := standsIn_iff.mp hid
  have := hA.unresolved _ (mem_of_node? hc) (decide_eq_true hu)
  rwa [id_of_node? hc] at this

theorem Closed.shell_of_withStandIns (hA : A.Closed g h isRoot)
    (hk : (A.withStandIns g t).keeps id s) : A.keeps id .shell :=
  hk.elim hA.shell_of_keeps fun hk => hA.shell_of_standsIn hk.1

/-- No rule asks for anything because of how much of a stand-in is kept. -/
theorem Closed.withStandIns (hA : A.Closed g h isRoot) :
    (A.withStandIns g t).Closed g h isRoot where
  shell_of_full _ hk := .inl (hA.shell_of_withStandIns hk)
  member k hk hkeep := .inl (hA.member k hk (hA.shell_of_withStandIns hkeep))
  unresolved n hn hu := .inl (hA.unresolved n hn hu)
  root n hn hp hr := .inl (hA.root n hn hp hr)
  root_live := hA.root_live
  owner k hk hkeep := .inl (hA.owner k hk (hA.shell_of_withStandIns hkeep))
  edge e he hs d hd := .inl (hA.edge e he (hA.shell_of_withStandIns hs) d hd)
  instantiate e he hs := hA.instantiate e he (hA.shell_of_withStandIns hs)
  call e he hs := hA.call e he (hA.shell_of_withStandIns hs)
  dispatch class_ hl receiver decl hcall hsub id hi :=
    .inl (hA.dispatch class_ hl receiver decl hcall hsub id hi)

/-- Some kept node asks for the whole of the node. -/
def AsksFor (A : Assignment) (g : Graph) (id : NodeId) : Prop :=
  ∃ e ∈ g.edges, A.keeps e.source .shell ∧ e.demand? = some ⟨id, .full⟩

/-- The assignment without those stand-ins in full that nothing asks for. -/
def sparing (A : Assignment) (g : Graph) : Assignment :=
  { A with keeps := fun id s => A.keeps id s ∧ (g.StandsIn id → s = .full → A.AsksFor g id) }

theorem Closed.sparing (hA : A.Closed g h isRoot) (hg : g.WellFormed) :
    (A.sparing g).Closed g h isRoot where
  shell_of_full id hk := ⟨hA.shell_of_full id hk.1, nofun⟩
  member k hk hkeep := ⟨hA.member k hk hkeep.1, fun hid => absurd hid.2 (hg.core_member hk)⟩
  unresolved n hn hu := ⟨hA.unresolved n hn hu, nofun⟩
  root n hn hp hr := by
    refine ⟨hA.root n hn hp hr, fun hid => ?_⟩
    have hu := core_eq_none_iff.mp hid.2 n (hg.node?_of_mem hn)
    rw [isUnresolved_of_inProgram hp] at hu
    cases hu
  root_live := hA.root_live
  owner k hk hkeep := ⟨hA.owner k hk hkeep.1, nofun⟩
  edge e he hs d hd := by
    refine ⟨hA.edge e he hs.1 d hd, fun _ hfull => ⟨e, he, hs.1, ?_⟩⟩
    rw [hd, ← hfull]
  instantiate e he hs := hA.instantiate e he hs.1
  call e he hs := hA.call e he hs.1
  dispatch class_ hl receiver decl hcall hsub id hi := by
    refine ⟨hA.dispatch class_ hl receiver decl hcall hsub id hi, fun hid => ?_⟩
    obtain ⟨c, hc, _⟩ := standsIn_iff.mp hid
    have hclass := isClass_of_implementationOf hi
    rw [← id_of_node? hc] at hclass
    cases hclass

/-- Of a stand-in the least assignment keeps all just if some kept node asks for it. -/
theorem full_iff_asksFor (hA : IsLeast {A : Assignment | A.Closed g h isRoot} A)
    (hg : g.WellFormed) (hid : g.StandsIn id) : A.keeps id .full ↔ A.AsksFor g id := by
  constructor
  · intro hk
    exact ((hA.2 (hA.1.sparing hg)).1 id .full hk).2 hid rfl
  · rintro ⟨e, he, hs, hd⟩
    exact hA.1.edge e he hs _ hd

end Assignment

namespace Marking

variable {g g' : Graph} {h : Hierarchy} {platform : Platform} {isRoot : Node → Bool}
  {A A' : Assignment} {m : Marking} {delta : EdgeDelta} {t : CounterTable} {id : NodeId}
  {s : KeepState}

/-- What is marked stays so while the rest is marked up from it. -/
theorem has_rederive {deleted : List NodeId} {added : List Edge} (hf : h.Functional)
    (hk : m.has id s) : (rederive g h m deleted added).has id s := by
  rw [rederive_eq]
  refine run_induction (P := fun m => m.has id s) (fun _ _ hm hs => (step_leadsTo hf hs).1 id s hm)
    (drain_run _) ?_
  exact (demands_restarted m deleted added).grows.has id s hk

/-- Over-deletion passes stand-ins by. -/
theorem not_mem_overDeleted (hid : g.StandsIn id) {removed : List Edge} :
    id ∉ overDeleted g h m removed :=
  fun hdel => (isDeletable_iff.mp (mem_overDeleted hdel).2).2 hid.2

/-- After marking again a table keeps what the new least assignment keeps, and of a stand-in also
what was kept before. -/
theorem Tracks.keeps_remark (hg : g.Regular platform) (hg' : g'.Regular platform)
    (hcore : SameCore g g') (hblind : Blind isRoot) (hc : Changes g g' delta)
    (hA : IsLeast {A : Assignment | A.Closed g h isRoot} A) (hf : h.Functional)
    (hA' : IsLeast {A : Assignment | A.Closed g' h isRoot} A') (ht : Tracks g isRoot A t) :
    (((restore g t).remark g' h delta).1.table g').keeps id s ↔
      A'.keeps id s ∨ g'.StandsIn id ∧ t.keeps id s := by
  have hstale := ht.stale hg hcore hc hA hg'
  have hremnant := hstale.remnant (h := h) hg hg' hcore hblind hc hA
  obtain ⟨hproper, -, hclosed, hbelow⟩ := hremnant.rederive hg' hf hc.present
  rw [remark_fst, hproper.keeps_table]
  constructor
  · refine (hbelow (A'.withStandIns g' t) hA'.1.withStandIns fun x s hx => ?_).1 id s
    obtain ⟨hhas, hdel⟩ := has_unmark.mp hx
    by_cases hknown : g'.core x = none
    · have hkept := (has_restore ht).mp (has_surviving.mp hhas).1
      obtain ⟨r, hr, _⟩ := hhas
      obtain ⟨_, n, hn, _⟩ := hstale.proper x r hr
      exact .inr ⟨⟨contains_iff_node?.mpr ⟨n, hn⟩, hknown⟩, hkept⟩
    · exact .inl (hstale.keeps_of_not_deleted hA hA'.1 hg hg' hcore hblind hc hf
        (hstale.sound x s hknown hhas) hknown hdel)
  · rintro (hk | ⟨hid, hk⟩)
    · exact (hA'.2 hclosed).1 id s hk
    · refine has_rederive hf (has_unmark.mpr ⟨has_surviving.mpr ⟨?_, ?_⟩, not_mem_overDeleted hid⟩)
      · exact (has_restore ht).mpr hk
      · exact hc.not_dropped hid.1

end Marking

namespace Program

variable {p : Program} {g : Graph} {isRoot : Node → Bool} {batch : List CompiledUnit} {id : NodeId}
  {s : KeepState}

/-- One batch leaves what marking the new graph from scratch keeps, and of a stand-in also what was
kept before. -/
theorem InStep.keeps_advance {r : Graph × CounterTable} (hr : p.InStep isRoot r)
    (hblind : Blind isRoot) (hb : p.IsEdit batch) :
    let r' := Winnow.advance p.platform r batch
    r'.2.keeps id s ↔
      (r'.1.mark r'.1.hierarchy isRoot).keeps id s ∨ r'.1.StandsIn id ∧ r.2.keeps id s := by
  obtain ⟨hp, hl, A, hA, ht⟩ := hr
  have h := hl.relinked hp hb
  obtain ⟨hA', hrecords⟩ := h.after.wellFormed.isLeast_mark isRoot
  dsimp only [Winnow.advance]
  rw [hrecords.keeps]
  exact ht.keeps_remark h.before h.after h.core hblind h.changes hA
    h.before.wellFormed.functional (h.isLeast hA')

/-- Of a stand-in marking from scratch keeps all just if some kept node asks for it. -/
theorem isFullyKept_mark_iff (hg : g.WellFormed) (hid : g.StandsIn id) :
    (g.mark g.hierarchy isRoot).isFullyKept id = true ↔
      ∃ e ∈ g.edges, (g.mark g.hierarchy isRoot).isKept e.source = true ∧
        e.demand? = some ⟨id, .full⟩ := by
  obtain ⟨hA, hrecords⟩ := hg.isLeast_mark isRoot
  simp only [CounterTable.isFullyKept_iff, CounterTable.isKept_iff, hrecords.keeps]
  exact Assignment.full_iff_asksFor hA hg hid

/-- Marking again after a batch of edits to bodies and signatures finds the roots that marking the
new graph from scratch finds, and the kept states of all nodes but stand-ins. A stand-in is kept
either way, but in full also if it was so before, which nothing in the new graph need ask for. -/
theorem states_advance_eq_mark_iff (hp : p.Gathered) (hb : p.build = .ok g)
    (select : NodeProfile → Bool) (hbatch : p.IsEdit batch) :
    let isRoot : Node → Bool := fun n => select n.profile
    let before := g.mark g.hierarchy isRoot
    let r := advance p.platform (g, before) batch
    let fresh := r.1.mark r.1.hierarchy isRoot
    r.2.roots = fresh.roots ∧
      (∀ id, ¬ r.1.StandsIn id → r.2.state? id = fresh.state? id) ∧
      (∀ id, r.1.StandsIn id →
        r.2.isKept id = true ∧ fresh.isKept id = true ∧
        (fresh.isFullyKept id = true ↔ ∃ e ∈ r.1.edges, fresh.isKept e.source = true ∧
          e.demand? = some ⟨id, .full⟩) ∧
        (r.2.isFullyKept id = true ↔ fresh.isFullyKept id = true ∨ before.isFullyKept id = true)) ∧
      ((∀ id, r.2.state? id = fresh.state? id) ↔
        ∀ id, r.1.StandsIn id → before.isFullyKept id = true → fresh.isFullyKept id = true) := by
  intro isRoot before r fresh
  have hblind := blind_profile select
  have hbefore := inStep_mark hp hb isRoot
  have hr := hbefore.advance hblind hbatch
  have hwf : r.1.WellFormed := hr.linked.wellFormed
  have hkeeps : ∀ {id s}, r.2.keeps id s ↔ fresh.keeps id s ∨ r.1.StandsIn id ∧ before.keeps id s :=
    hbefore.keeps_advance hblind hbatch
  have hfresh : (p.edit batch).InStep isRoot (r.1, fresh) :=
    ⟨hr.admissible, hr.linked, hwf.exists_tracks isRoot⟩
  have hothers : ∀ id, ¬ r.1.StandsIn id → r.2.state? id = fresh.state? id := fun id hid =>
    CounterTable.state?_eq_of_keeps fun s =>
      hkeeps.trans (or_iff_left fun hk => hid hk.1)
  have hshell : ∀ id, r.1.StandsIn id → fresh.keeps id .shell := by
    intro id hid
    obtain ⟨hA, hrecords⟩ := hwf.isLeast_mark isRoot
    exact (hrecords.keeps id .shell).mpr (hA.1.shell_of_standsIn hid)
  have hfull : ∀ id, r.1.StandsIn id →
      (r.2.isFullyKept id = true ↔ fresh.isFullyKept id = true ∨ before.isFullyKept id = true) := by
    intro id hid
    rw [CounterTable.isFullyKept_iff, CounterTable.isFullyKept_iff, CounterTable.isFullyKept_iff,
      hkeeps, and_iff_right hid]
  refine ⟨(hr.agree hblind hfresh).2.1, hothers, fun id hid => ?_, fun h id hid hold => ?_,
    fun h id => ?_⟩
  · exact ⟨CounterTable.isKept_iff.mpr (hkeeps.mpr (.inl (hshell id hid))),
      CounterTable.isKept_iff.mpr (hshell id hid), isFullyKept_mark_iff hwf hid, hfull id hid⟩
  · have hnow := (hfull id hid).mpr (.inr hold)
    rwa [CounterTable.isFullyKept, h id] at hnow
  · by_cases hid : r.1.StandsIn id
    · refine CounterTable.state?_eq_of_keeps fun s => ?_
      cases s with
      | shell => exact iff_of_true (hkeeps.mpr (.inl (hshell id hid))) (hshell id hid)
      | full =>
        rw [← CounterTable.isFullyKept_iff, ← CounterTable.isFullyKept_iff, hfull id hid]
        exact or_iff_left_of_imp (h id hid)
    · exact hothers id hid

section Holder

/-- A class with a field of an unknown class, of which its method makes an instance or does not. -/
def holderMain (used : Bool) : CompiledUnit :=
  { CompiledUnit.blank "a/Main" with
    methods := [if used then (Method.blank "main" "()V").extend (.new "x/Gone")
      else .blank "main" "()V"]
    fields := [.blank "held" "Lx/Gone;"] }

def holder (used : Bool) : Program where
  platform := {}
  units := [⟨holderMain used, ⟨"in/Main.json"⟩⟩]
  libraries := []

theorem gathered_holder : (holder true).Gathered :=
  gathered_iff.mpr ⟨by decide +kernel, by decide +kernel, by decide⟩

theorem exists_build_holder : ∃ g, (holder true).build = .ok g :=
  ⟨_, build_of_edges_eq_nil (by decide +kernel)⟩

theorem isEdit_holder : (holder true).IsEdit [holderMain false] :=
  ⟨by decide, by decide +kernel⟩

theorem states_advance_eq_mark_iff_holder :
    (holder true).Gathered ∧ (holder true).IsEdit [holderMain false] ∧
      ∃ g, (holder true).build = .ok g ∧
        let isRoot : Node → Bool := fun n => n.profile.memberName = some "main"
        let before := g.mark g.hierarchy isRoot
        let r := advance (holder true).platform (g, before) [holderMain false]
        let fresh := r.1.mark r.1.hierarchy isRoot
        r.2.roots = fresh.roots ∧
          (∀ id, ¬ r.1.StandsIn id → r.2.state? id = fresh.state? id) ∧
          (∀ id, r.1.StandsIn id →
            r.2.isKept id = true ∧ fresh.isKept id = true ∧
            (fresh.isFullyKept id = true ↔ ∃ e ∈ r.1.edges, fresh.isKept e.source = true ∧
              e.demand? = some ⟨id, .full⟩) ∧
            (r.2.isFullyKept id = true ↔
              fresh.isFullyKept id = true ∨ before.isFullyKept id = true)) ∧
          ((∀ id, r.2.state? id = fresh.state? id) ↔
            ∀ id, r.1.StandsIn id → before.isFullyKept id = true → fresh.isFullyKept id = true) := by
  obtain ⟨g, hb⟩ := exists_build_holder
  exact ⟨gathered_holder, isEdit_holder, g, hb, states_advance_eq_mark_iff gathered_holder hb
    (fun profile => profile.memberName = some "main") isEdit_holder⟩

/-- The method no longer makes an instance of the unknown class, and what is left of it is still
kept in full, where marking from scratch keeps a shell. -/
theorem standIn_still_full :
    (holder true).Gathered ∧ (holder true).IsEdit [holderMain false] ∧
      ∃ g, (holder true).build = .ok g ∧
        let isRoot : Node → Bool := fun n => n.profile.memberName = some "main"
        let r := advance (holder true).platform (g, g.mark g.hierarchy isRoot) [holderMain false]
        "x/Gone" ∈ r.1.unresolvedClasses ∧ r.2.state? (.class_ "x/Gone") = some .full ∧
          (r.1.mark r.1.hierarchy isRoot).state? (.class_ "x/Gone") = some .shell := by
  obtain ⟨g, hb⟩ := exists_build_holder
  refine ⟨gathered_holder, isEdit_holder, g, hb, ?_⟩
  obtain ⟨_, rfl⟩ := build_eq_ok_iff.mp hb
  decide +kernel

end Holder

end Program

end Winnow
