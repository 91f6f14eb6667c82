import Winnow.Proofs.Marking.Run
import Winnow.Proofs.Program.Build

/-!
# Marking finds the least closed assignment

For every graph that is built and every choice of roots. The order in which
marking takes up nodes, edges and demands makes no difference: every order comes
to an end, and all of them to the same one.
-/
namespace Winnow

theorem Assignment.le_antisymm {A B : Assignment} (hAB : A ≤ B) (hBA : B ≤ A) : A = B := by
  have hkeeps : A.keeps = B.keeps := by
    funext id s
    exact propext ⟨hAB.1 id s, hBA.1 id s⟩
  have hlive : A.live = B.live := Set.ext fun _ => ⟨@hAB.2.1 _, @hBA.2.1 _⟩
  have hcalled : A.called = B.called := Set.ext fun _ => ⟨@hAB.2.2 _, @hBA.2.2 _⟩
  cases A
  cases B
  simp_all

namespace Marking

variable {g : Graph} {h : Hierarchy} {m m' : Marking}

theorem remaining_step_lt (hs : Step g h m m') : m'.remaining g < m.remaining g := by
  cases hs with
  | absent hq _ =>
    have := hq.length_eq
    simp only [remaining, potential, List.length_cons] at this ⊢
    omega
  | @pass id rest n edges liveness demands demands' hq _ _ _ _ =>
    have hle := remaining_keepAll_le g { m with queue := rest, liveness := liveness } demands'
    have := hq.length_eq
    simp only [remaining, potential, List.length_cons] at this hle ⊢
    omega

/-- Every order of work comes to an end. -/
theorem wellFounded_step : WellFounded (fun m' m => Step g h m m') :=
  Subrelation.wf (fun hs => remaining_step_lt hs) (measure (remaining g)).wf

end Marking

namespace Graph

open Marking

variable {p : Program} {g : Graph}

theorem mem_roots_table {m : Marking} {id : NodeId} :
    id ∈ (m.table g).roots ↔ id ∈ m.roots ∧ g.contains id = true := SortedSet.mem_filter

/-- The roots of a marking are the nodes of the program that are selected, and what it keeps,
together with the classes that are alive and the calls that are seen, is the least assignment that
is closed under the rules of marking. Every order of work ends, and with the same table. -/
theorem mark_isLeast (hp : p.build = .ok g) (isRoot : Node → Bool) :
    (∀ id, id ∈ (g.mark g.hierarchy isRoot).roots ↔
      ∃ n ∈ g.nodes, n.id = id ∧ inProgram g n = true ∧ isRoot n = true) ∧
    (∃ A : Assignment, A.keeps = (g.mark g.hierarchy isRoot).keeps ∧
      IsLeast {A : Assignment | A.Closed g g.hierarchy isRoot} A ∧
      ∀ nodes m, nodes.Perm g.nodes →
        Relation.ReflTransGen (Step g g.hierarchy) (seedIn g g.hierarchy isRoot nodes) m →
        m.queue = [] → m.assignment = A ∧
          (m.table g).roots = (g.mark g.hierarchy isRoot).roots ∧
          ∀ id, (m.table g).state? id = (g.mark g.hierarchy isRoot).state? id) ∧
    WellFounded (fun m' m => Step g g.hierarchy m m') := by
  have hg := Program.wellFormed_of_build hp
  have hf := hg.functional
  have hrun : Relation.ReflTransGen (Step g g.hierarchy) (seedIn g g.hierarchy isRoot g.nodes)
      (drain g g.hierarchy (seed g g.hierarchy isRoot)) := drain_run _
  have hleast := isLeast_of_seedIn_run hg hf (.refl _) hrun (queue_drain _)
  have hproper := (progress_of_seedIn_run hf hrun).proper
  have hroots : ∀ id, id ∈ (g.mark g.hierarchy isRoot).roots ↔
      ∃ n ∈ g.nodes, n.id = id ∧ inProgram g n = true ∧ isRoot n = true := by
    intro id
    rw [mark, mem_roots_table, mem_roots_of_seedIn_run hrun, and_iff_left_iff_imp]
    rintro ⟨n, hn, rfl, _⟩
    exact contains_of_mem hn
  refine ⟨hroots, ⟨_, ?_, hleast, fun nodes m hn hrun' hq => ?_⟩, wellFounded_step⟩
  · funext id s
    exact propext hproper.keeps_table.symm
  · have hleast' := isLeast_of_seedIn_run hg hf hn hrun' hq
    have hsame : m.assignment = (drain g g.hierarchy (seed g g.hierarchy isRoot)).assignment :=
      Assignment.le_antisymm (hleast'.2 hleast.1) (hleast.2 hleast'.1)
    refine ⟨hsame, SortedSet.ext_mem fun id => ?_, fun id => ?_⟩
    · rw [hroots, mem_roots_table, mem_roots_of_seedIn_run hrun', and_iff_left_of_imp]
      · simp only [hn.mem_iff]
      · rintro ⟨n, hmem, rfl, _⟩
        exact contains_of_mem (hn.mem_iff.mp hmem)
    · refine CounterTable.state?_eq_of_keeps fun s => ?_
      rw [(progress_of_seedIn_run hf hrun').proper.keeps_table, mark, hproper.keeps_table]
      exact iff_of_eq (congrFun (congrFun (congrArg Assignment.keeps hsame) id) s)

/-- Taken up from the last node on, the shapes come to the same. The method of the class is kept,
which only dispatch leads to. -/
theorem mark_isLeast_shapes : ∃ g, Program.shapes.build = .ok g ∧
    let isRoot : Node → Bool := (·.id = Program.shapesMain)
    let table := g.mark g.hierarchy isRoot
    let m := drain g g.hierarchy (seedIn g g.hierarchy isRoot g.nodes.reverse)
    (∀ id, id ∈ table.roots ↔ id = Program.shapesMain) ∧
    table.isFullyKept (.method ⟨"a/Disc", "area", "()I"⟩) = true ∧
    (∃ A : Assignment, A.keeps = table.keeps ∧
      IsLeast {A : Assignment | A.Closed g g.hierarchy isRoot} A ∧ m.assignment = A ∧
      (m.table g).roots = table.roots ∧ ∀ id, (m.table g).state? id = table.state? id) ∧
    WellFounded (fun m' m => Step g g.hierarchy m m') := by
  obtain ⟨g, hg⟩ := Program.exists_build_shapes
  have hfacts : (∃ n ∈ g.nodes, n.id = Program.shapesMain ∧ inProgram g n = true) ∧
      (g.mark g.hierarchy (·.id = Program.shapesMain)).isFullyKept
        (.method ⟨"a/Disc", "area", "()I"⟩) = true := by
    obtain ⟨_, rfl⟩ := Program.build_eq_ok_iff.mp hg
    decide +kernel
  obtain ⟨⟨n, hn, hid, hprogram⟩, hkept⟩ := hfacts
  obtain ⟨hroots, ⟨A, hkeeps, hleast, horder⟩, hends⟩ :=
    mark_isLeast hg (·.id = Program.shapesMain)
  refine ⟨g, hg, fun id => ?_, hkept, ⟨A, hkeeps, hleast, horder _ _ (List.reverse_perm g.nodes)
    (drain_run _) (queue_drain _)⟩, hends⟩
  rw [hroots]
  constructor
  · rintro ⟨n, _, rfl, _, hroot⟩
    exact of_decide_eq_true hroot
  · rintro rfl
    exact ⟨n, hn, hid, hprogram, decide_eq_true hid⟩

end Graph

end Winnow
