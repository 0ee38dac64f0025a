import Provenance.Digraph.Routes
import Provenance.Graph.Error
import Provenance.Graph.Snapshot

/-! # Paths of a graph

Only the part of the graph that a path search can reach has to be acyclic.
-/

namespace Provenance.Graph

variable {N E : Type}

/-- A shortest path along the edges from `v` to `w`, or else one from `w` to `v`, listed from `v`
to `w` all the same. Empty if there is neither. -/
def shortestPath (g : Graph N E) (v w : Vertex) : Except GraphError (List Vertex) := do
  let t := g.snapshot
  match t.number? v, t.number? w with
  | some a, some b =>
      if a = b then return [v]
      let forth ← Operation.shortestPath.require (t.digraph.routes? .along .shortest a)
      if forth.reaches b then return (forth.chainTo b).reverse.map t.label
      let back ← Operation.shortestPath.require (t.digraph.routes? .along .shortest b)
      if back.reaches a then return (back.chainTo a).map t.label
      return []
  | _, _ => return []

/-- A longest path through `v`, from a root to a leaf, listed along the edges. -/
def longestPath (g : Graph N E) (v : Vertex) : Except GraphError (List Vertex) := do
  let t := g.snapshot
  match t.number? v with
  | some a =>
      let toRoots := g.direction.way .roots
      let toLeaves := g.direction.way .leaves
      let up ← Operation.longestPath.require (t.digraph.routes? toRoots .longest a)
      let down ← Operation.longestPath.require (t.digraph.routes? toLeaves .longest a)
      let above :=
        match up.farthest? with
        | some root => up.chainTo root
        | none => [a]
      let below :=
        match down.farthest? with
        | some leaf => (down.chainTo leaf).reverse.tail
        | none => []
      let path := (above ++ below).map t.label
      match g.direction with
      | .parentToChild => return path
      | .childToParent => return path.reverse
  | none => return []

/-- The distance of every vertex that can be reached toward the leaves, in storage order. -/
def distances (g : Graph N E) (start : Vertex) (extent : Extent) :
    Except GraphError (List (Vertex × Nat)) := do
  let t := g.snapshot
  match t.number? start with
  | some s =>
      let toLeaves := g.direction.way .leaves
      let routes ← Operation.distances.require (t.digraph.routes? toLeaves extent s)
      return (List.finRange t.size).filterMap fun v =>
        (routes.distance? v).map fun distance => (t.label v, distance)
  | none => return []

end Provenance.Graph
