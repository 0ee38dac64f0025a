import Provenance.Digraph.TopologicalOrder

/-! # Reach

The set of vertices that each vertex of an acyclic digraph reaches over one or more edges. It is
the union over the successors, so the vertices are taken from the last in topological order.
-/

namespace Provenance

abbrev Reach (n : Nat) := VertexMap (VertexSet n) n

namespace Reach

variable {n : Nat}

def through (reach : Reach n) (s : VertexSet n) (w : Fin n) : VertexSet n :=
  (s.insert w).union (reach.get w)

def settle (succ : Fin n → List (Fin n)) (reach : Reach n) (u : Fin n) : Reach n :=
  reach.set u ((succ u).foldl reach.through ∅)

/-- The pairs of a vertex and one that it reaches, in lexicographic order. -/
def pairs (reach : Reach n) : List (Fin n × Fin n) :=
  (List.finRange n).flatMap fun u => (reach.get u).toList.map (u, ·)

end Reach

namespace Digraph

variable {n : Nat}

/-- Every vertex of the list has to come before its successors. -/
def reachOf (d : Digraph n) (order : List (Fin n)) : Reach n :=
  order.reverse.foldl (Reach.settle (d.neighbors .along)) (.const ∅)

/-- None if the digraph has a cycle. -/
def reach? (d : Digraph n) : Option (Reach n) := d.topologicalOrder?.map d.reachOf

/-- Whether an edge is implied by a chain through another successor of its source. -/
def implied (d : Digraph n) (reach : Reach n) (u w : Fin n) : Bool :=
  (d.neighbors .along u).any fun v => v != w && w ∈ reach.get v

end Digraph

end Provenance
