import Provenance.Proofs.Digraph.TopologicalOrder

/-! # Ways through a digraph

A search follows lists of neighbours, and which ways there are depends on the members of the lists
alone. The lists of sources have the edges of the lists of targets, taken against their direction.
-/

namespace Provenance

variable {n : Nat}

/-- A search can go from one vertex to another. -/
def Leads (next : Fin n → List (Fin n)) (u w : Fin n) : Prop := w ∈ next u

theorem Neighbors.mem_transpose {succ : Neighbors n} {u w : Fin n} :
    u ∈ succ.transpose.get w ↔ w ∈ succ.get u := by
  simp only [get_transpose, List.mem_flatMap, List.mem_finRange, true_and, List.mem_replicate,
    ne_eq, List.count_eq_zero, not_not]
  constructor
  · rintro ⟨v, listed, rfl⟩
    exact listed
  · exact fun listed => ⟨u, listed, rfl⟩

namespace Digraph

theorem leads_against {d : Digraph n} {u w : Fin n} :
    Leads (d.neighbors .against) u w ↔ d.Edge w u := by
  rw [Leads, neighbors, d.pred_eq]
  exact Neighbors.mem_transpose

/-- A search goes back where one goes that takes the edges the other way. -/
theorem leads_flip {d : Digraph n} {way : Way} {u w : Fin n} :
    Leads (d.neighbors way.flip) w u ↔ Leads (d.neighbors way) u w := by
  cases way with
  | along => exact leads_against
  | against => exact leads_against.symm

/-- The second digraph has the edges of the first one turned round. -/
def Opposite (d d' : Digraph n) : Prop := ∀ u w, d'.Edge u w ↔ d.Edge w u

namespace Opposite

variable {d d' : Digraph n}

theorem edge_eq (opposite : Opposite d d') : d'.Edge = Function.swap d.Edge := by
  funext u w
  exact propext (opposite u w)

/-- A search of one leads where a search of the other does that takes the edges the other way. -/
theorem leads_flip (opposite : Opposite d d') (way : Way) :
    Leads (d'.neighbors way.flip) = Leads (d.neighbors way) := by
  funext u w
  apply propext
  cases way with
  | along => exact leads_against.trans (opposite w u)
  | against => exact (opposite u w).trans leads_against.symm

theorem transGen_iff (opposite : Opposite d d') {u w : Fin n} :
    Relation.TransGen d'.Edge u w ↔ Relation.TransGen d.Edge w u := by
  rw [opposite.edge_eq]
  exact Relation.transGen_swap

theorem reflTransGen_iff (opposite : Opposite d d') {u w : Fin n} :
    Relation.ReflTransGen d'.Edge u w ↔ Relation.ReflTransGen d.Edge w u := by
  rw [opposite.edge_eq]
  exact Relation.reflTransGen_swap

end Opposite

end Digraph

end Provenance
