import Provenance.Digraph.TopologicalOrder
import Provenance.Graph.Error
import Provenance.Graph.Snapshot

/-! # Topological sorting of a graph -/

namespace Provenance.Graph

variable {N E : Type}

def isAcyclic (g : Graph N E) : Bool := g.snapshot.digraph.topologicalOrder?.isSome

/-- The live vertices, the source of every edge before its target. -/
def topologicalSort (g : Graph N E) : Except GraphError (List Vertex) := do
  let t := g.snapshot
  let order ← Operation.topologicalSort.require t.digraph.topologicalOrder?
  return order.map t.label

end Provenance.Graph
