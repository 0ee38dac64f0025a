/-! # Errors of graph operations -/

namespace Provenance

/-- The operations that have no answer on a graph with a cycle. -/
inductive Operation where
  | topologicalSort
  | shortestPath
  | longestPath
  | transitiveClosure
  | transitiveReduction
  | distances
deriving DecidableEq

namespace Operation

def name : Operation → String
  | .topologicalSort => "topological_sort"
  | .shortestPath => "shortest_path"
  | .longestPath => "longest_path_touching"
  | .transitiveClosure => "transitive_closure"
  | .transitiveReduction => "transitive_reduction"
  | .distances => "dag_distances"

end Operation

inductive GraphError where
  | notAcyclic (operation : Operation)
deriving DecidableEq

namespace GraphError

def message : GraphError → String
  | .notAcyclic operation => operation.name ++ " requires an acyclic graph, but a cycle was found"

end GraphError

/-- The result of an operation that needs an acyclic graph. -/
def Operation.require {α : Type} (operation : Operation) : Option α → Except GraphError α
  | some a => .ok a
  | none => .error (.notAcyclic operation)

end Provenance
