import Provenance.Digraph.VertexMap
import Provenance.Direction

/-! # Digraphs

A directed graph on the vertices `0, …, n - 1`. The sources of the edges into a vertex are kept
beside the targets of the edges out of it, so that a walk can take the edges either way.
-/

namespace Provenance

/-- Lists of neighbours, one for each vertex. -/
abbrev Neighbors (n : Nat) := VertexMap (List (Fin n)) n

namespace Neighbors

variable {n : Nat}

def put (u : Fin n) (lists : Neighbors n) (w : Fin n) : Neighbors n :=
  lists.set w (u :: lists.get w)

/-- The answer lists, for each vertex, those whose list it is in, in increasing order. -/
def transpose (succ : Neighbors n) : Neighbors n :=
  (List.finRange n).foldr (fun u pred => (succ.get u).foldl (put u) pred)
    (.const [])

end Neighbors

structure Digraph (n : Nat) where
  succ : Neighbors n
  pred : Neighbors n := succ.transpose
  pred_eq : pred = succ.transpose := by rfl

namespace Digraph

variable {n : Nat}

/-- Targets of the edges out of a vertex, or sources of the edges into it. -/
def neighbors (d : Digraph n) : Way → Fin n → List (Fin n)
  | .along, u => d.succ.get u
  | .against, u => d.pred.get u

/-- The ends of all edges at a vertex, the targets first. -/
def bothSides (d : Digraph n) (u : Fin n) : List (Fin n) :=
  d.neighbors .along u ++ d.neighbors .against u

end Digraph

end Provenance
