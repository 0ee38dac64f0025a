import Provenance.Graph.Search
import Provenance.Proofs.Digraph.Cycles
import Provenance.Proofs.Graph.Paths

/-! # Tests for cycles

A graph has a cycle if there is a way from a vertex back to it. Orders, closures, reductions, groups
and distances are all found by searches of their own, and each of them notices every cycle.
-/

open Relation (TransGen ReflTransGen)

namespace Provenance

theorem forall_clear_iff {α : Type} {r : α → α → Prop} :
    (∀ a, Clear r a) ↔ ∀ v, ¬ TransGen r v v :=
  ⟨fun clear v => clear v v .refl, fun acyclic _ v _ => acyclic v⟩

namespace Digraph

variable {n : Nat} {d : Digraph n}

/-- It is the same whether the edges are taken along or against. -/
theorem acyclic_leads_iff (way : Way) :
    (∀ v, ¬ TransGen (Leads (d.neighbors way)) v v) ↔ ∀ v, ¬ TransGen d.Edge v v := by
  cases way with
  | along => rfl
  | against =>
      have swapped : Leads (d.neighbors .against) = Function.swap d.Edge := by
        funext u w
        exact propext leads_against
      rw [swapped]
      exact forall_congr' fun v => Relation.transGen_swap.not

theorem routes?_isSome_iff_acyclic (way : Way) (extent : Extent) :
    (∀ v, (d.routes? way extent v).isSome) ↔ ∀ v, ¬ TransGen d.Edge v v := by
  simp only [routes?_isSome_iff, forall_clear_iff, acyclic_leads_iff]

theorem cyclicGroups_eq_nil_iff : d.cyclicGroups = [] ↔ ∀ v, ¬ TransGen d.Edge v v := by
  rw [List.eq_nil_iff_forall_not_mem]
  simp only [mem_cyclicGroups]
  exact ⟨fun no_groups v cycle => no_groups _ ⟨v, cycle, rfl⟩,
    fun acyclic _ ⟨v, cycle, _⟩ => acyclic v cycle⟩

end Digraph

namespace Graph

variable {N E : Type} {g : Graph N E}

theorem isAcyclic_iff (valid : g.Valid) : g.isAcyclic = true ↔ ∀ v, ¬ TransGen g.Joined v v :=
  Digraph.topologicalOrder?_isSome_iff.trans valid.acyclic_snapshot

theorem cyclicGroups_eq_nil_iff (valid : g.Valid) :
    g.cyclicGroups = [] ↔ ∀ v, ¬ TransGen g.Joined v v := by
  rw [cyclicGroups, List.map_eq_nil_iff, Digraph.cyclicGroups_eq_nil_iff, valid.acyclic_snapshot]

theorem forall_live_iff {p : Vertex → Prop} :
    (∀ v, g.containsVertex v = true → p v) ↔ ∀ i, p (g.snapshot.label i) := by
  constructor
  · exact fun all i => all _ (g.label_live i)
  · intro all v live
    obtain ⟨i, rfl⟩ := exists_label live
    exact all i

theorem distances_label (g : Graph N E) (extent : Extent) (i : Fin g.snapshot.size) :
    (∃ distances, g.distances (g.snapshot.label i) extent = .ok distances) ↔
      (g.snapshot.digraph.routes? (g.direction.way .leaves) extent i).isSome := by
  unfold distances
  dsimp only
  rw [number?_eq_some.mpr rfl]
  dsimp only
  cases g.snapshot.digraph.routes? (g.direction.way .leaves) extent i <;>
    simp [Operation.require]

/-- The distances from every vertex are known exactly if there is no cycle. -/
theorem distances_ok_iff (valid : g.Valid) (extent : Extent) :
    (∀ v, g.containsVertex v = true → ∃ distances, g.distances v extent = .ok distances) ↔
      ∀ v, ¬ TransGen g.Joined v v := by
  rw [forall_live_iff, ← valid.acyclic_snapshot,
    ← Digraph.routes?_isSome_iff_acyclic (g.direction.way .leaves) extent]
  exact forall_congr' (g.distances_label extent)

theorem longestPath_label (g : Graph N E) (i : Fin g.snapshot.size) :
    (∃ path, g.longestPath (g.snapshot.label i) = .ok path) ↔
      (g.snapshot.digraph.routes? (g.direction.way .roots) .longest i).isSome ∧
        (g.snapshot.digraph.routes? (g.direction.way .leaves) .longest i).isSome := by
  rw [longestPath_eq, Snapshot.longestPath, number?_eq_some.mpr rfl]
  dsimp only
  cases g.snapshot.digraph.routes? (g.direction.way .roots) .longest i <;>
    cases g.snapshot.digraph.routes? (g.direction.way .leaves) .longest i <;>
    cases g.direction <;> simp

/-- There is a longest path through every vertex exactly if there is no cycle. -/
theorem longestPath_ok_iff (valid : g.Valid) :
    (∀ v, g.containsVertex v = true → ∃ path, g.longestPath v = .ok path) ↔
      ∀ v, ¬ TransGen g.Joined v v := by
  simp only [forall_live_iff, longestPath_label, forall_and, Digraph.routes?_isSome_iff_acyclic,
    valid.acyclic_snapshot, and_self]

end Graph

end Provenance
