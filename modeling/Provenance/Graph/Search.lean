import Provenance.Digraph.BreadthFirst
import Provenance.Digraph.Cycles
import Provenance.Digraph.Walk
import Provenance.Graph.Snapshot

/-! # Searches of a graph

What can be reached from a vertex toward one end of the graph, which vertices hang together, and
which lie on cycles. A dead handle reaches nothing.
-/

namespace Provenance

inductive SearchOrder where
  | breadthFirst
  | depthFirst
deriving DecidableEq

instance : Inhabited SearchOrder := ⟨.breadthFirst⟩

namespace SearchOrder

def search {n : Nat} (d : Digraph n) (way : Way) (start : Fin n) : SearchOrder → List (Fin n)
  | .breadthFirst => d.breadthFirst way start
  | .depthFirst => d.depthFirst way start

end SearchOrder

namespace Graph

variable {N E : Type}

/-- The vertices that can be reached from `start`, in order of discovery. -/
def discovered (g : Graph N E) (order : SearchOrder) (start : Vertex) (toward : Toward) :
    List Vertex :=
  let t := g.snapshot
  match t.number? start with
  | some s => (order.search t.digraph (g.direction.way toward) s).map t.label
  | none => []

def breadthFirst (g : Graph N E) (start : Vertex) (toward : Toward) : List Vertex :=
  g.discovered .breadthFirst start toward

def depthFirst (g : Graph N E) (start : Vertex) (toward : Toward) : List Vertex :=
  g.discovered .depthFirst start toward

/-- The weakly connected components, each from its first vertex on. -/
def components (g : Graph N E) : List (List Vertex) :=
  let t := g.snapshot
  t.digraph.components.map (·.map t.label)

/-- The groups of vertices on common cycles, in storage order. -/
def cyclicGroups (g : Graph N E) : List (List Vertex) :=
  let t := g.snapshot
  t.digraph.cyclicGroups.map (·.map t.label)

end Graph

end Provenance
