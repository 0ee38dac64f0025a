import Provenance.Digraph.Dominators
import Provenance.Graph.Search

/-! # Dominance in a graph

Walks go from a root toward the leaves.
-/

namespace Provenance.Graph

variable {N E : Type}

/-- Every vertex that can be reached from `root`, other than `root`, with the nearest vertex that
all walks to it pass through; in storage order. -/
def dominatorTree (g : Graph N E) (root : Vertex) : List (Vertex × Vertex) :=
  let t := g.snapshot
  match t.number? root with
  | some r =>
      let tree := t.digraph.dominators (g.direction.way .leaves) r
      (List.finRange t.size).filterMap fun v =>
        if v = r then none else (tree.parents.get v).map fun p => (t.label v, t.label p)
  | none => []

/-- The vertices that cannot be reached from `root` but through `v`, in order of discovery. -/
def dominatedBy (g : Graph N E) (v root : Vertex) (order : SearchOrder) : List Vertex :=
  let t := g.snapshot
  match t.number? v, t.number? root with
  | some a, some r =>
      let toLeaves := g.direction.way .leaves
      let below := (t.digraph.dominators toLeaves r).below a
      ((order.search t.digraph toLeaves r).filter (· ∈ below)).map t.label
  | _, _ => []

end Provenance.Graph
