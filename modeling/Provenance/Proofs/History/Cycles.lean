import Mathlib.Data.List.TFAE
import Provenance.Proofs.Graph.Cycles
import Provenance.Proofs.Graph.Reached
import Provenance.Proofs.History.Cloud
import Provenance.Proofs.History.Runs

/-! # Cycles of a history

What a history cannot do because of a cycle is refused by different parts of the graph. All of them
refuse the same histories.
-/

open Relation (TransGen)

namespace Provenance.History

variable {h : History}

theorem Valid.cycles_eq_nil_iff (valid : h.Valid) :
    h.cycles = [] ↔ ∀ a, ¬ TransGen h.Recorded a a := by
  rw [cycles, List.map_eq_nil_iff, Graph.cyclicGroups_eq_nil_iff valid.graph, valid.acyclic_iff]

theorem Valid.sortedImages_ok_iff (valid : h.Valid) :
    (∃ images, h.sortedImages = .ok images) ↔ ∀ a, ¬ TransGen h.Recorded a a := by
  rw [← valid.acyclic_iff, ← Graph.topologicalSort_ok_iff valid.graph, sortedImages]
  cases h.graph.topologicalSort <;> simp [asked]

/-- All tests for cycles agree: on a graph, whatever flags and extent they are asked with, and on a
history. -/
theorem cycle_tests_agree {N E : Type} [Inhabited N] [Inhabited E] {g : Graph N E}
    (reached : g.Reached) {start : Start} {h₀ : History} (opened : start.initial = .ok h₀)
    (cs : List Change) :
    (∀ flags extent, List.TFAE [
      ∀ v, ¬ TransGen g.Joined v v,
      g.isAcyclic = true,
      ∃ order, g.topologicalSort = .ok order,
      ∃ closure, g.transitiveClosure flags = .ok closure,
      ∃ result, g.transitiveReductionWithRemoved flags = .ok result,
      g.cyclicGroups = [],
      ∀ v, g.containsVertex v = true → ∃ distances, g.distances v extent = .ok distances,
      ∀ v, g.containsVertex v = true → ∃ path, g.longestPath v = .ok path]) ∧
    let h := h₀.after cs
    List.TFAE [
      h.cycles = [],
      ∃ images, h.sortedImages = .ok images,
      ∃ cloud, h.relationCloud = .ok cloud,
      ∃ result, h.reduceEdges = .ok result] := by
  constructor
  · intro flags extent
    have valid := reached.valid
    refine List.tfae_of_forall (∀ v, ¬ TransGen g.Joined v v) _ ?_
    simp only [List.forall_mem_cons, List.not_mem_nil, false_imp_iff, implies_true, and_true,
      true_and]
    exact ⟨Graph.isAcyclic_iff valid, Graph.topologicalSort_ok_iff valid,
      Graph.transitiveClosure_ok_iff valid flags, Graph.transitiveReduction_ok_iff valid flags,
      Graph.cyclicGroups_eq_nil_iff valid, Graph.distances_ok_iff valid extent,
      Graph.longestPath_ok_iff valid⟩
  · intro h
    obtain ⟨config, opening⟩ := Start.grows opened
    have valid : h.Valid := (grows_after opening.valid cs).valid
    refine List.tfae_of_forall (∀ a, ¬ TransGen h.Recorded a a) _ ?_
    simp only [List.forall_mem_cons, List.not_mem_nil, false_imp_iff, implies_true, and_true]
    exact ⟨valid.cycles_eq_nil_iff, valid.sortedImages_ok_iff, valid.relationCloud_ok_iff,
      valid.reduceEdges_ok_iff⟩

/-- A vertex joined to itself, and two images that descend from each other. -/
theorem cycle_tests_find_loops :
    let v : Vertex := ⟨0, 0⟩
    let g : Graph Unit Unit := (Graph.empty .parentToChild).after [.addVertex, .addEdge v v]
    let h := (empty {}).after [.addRelations [⟨⟨2⟩, ⟨1⟩⟩, ⟨⟨1⟩, ⟨2⟩⟩]]
    (g.isAcyclic ≠ true ∧ g.cyclicGroups ≠ [] ∧
      ¬ ∃ closure, g.transitiveClosure .nothing = .ok closure) ∧
    h.cycles ≠ [] ∧ (¬ ∃ images, h.sortedImages = .ok images) ∧
      (¬ ∃ cloud, h.relationCloud = .ok cloud) ∧ ¬ ∃ result, h.reduceEdges = .ok result := by
  intro v g h
  have opened : (Start.blank {}).initial = .ok (empty {}) := rfl
  obtain ⟨agree, agree'⟩ := cycle_tests_agree (g := g) ⟨_, _, rfl⟩ opened
    [.addRelations [⟨⟨2⟩, ⟨1⟩⟩, ⟨⟨1⟩, ⟨2⟩⟩]]
  have agree := agree .nothing .shortest
  have joined : g.Joined v v := by
    unfold Graph.Joined
    decide
  have loop : ¬ ∀ v, ¬ TransGen g.Joined v v := fun acyclic => acyclic v (.single joined)
  have valid : h.Valid := (grows_after (valid_empty {}) _).valid
  have cyclic : h.cycles ≠ [] := by
    intro none_found
    refine valid.cycles_eq_nil_iff.mp none_found ⟨1⟩ (.tail (.single (b := ⟨2⟩) ?_) ?_)
    · unfold Recorded
      decide
    · unfold Recorded
      decide
  exact ⟨⟨(agree.out 0 1).not.mp loop, (agree.out 0 5).not.mp loop, (agree.out 0 3).not.mp loop⟩,
    cyclic, (agree'.out 0 1).not.mp cyclic, (agree'.out 0 2).not.mp cyclic,
    (agree'.out 0 3).not.mp cyclic⟩

end Provenance.History
