import Provenance.Digraph.Basic
import Provenance.Digraph.VertexSet

/-! # Breadth-first search

A queue holds the vertices that have been met. Each is taken from its front and listed, and its new
neighbours go to its end. The marks of one search are there for the next, which does not meet again
what they hold.
-/

namespace Provenance

variable {n : Nat}

/-- Lists the vertices of a queue and those met behind it; `seen` marks what has been met. The
marks at the end come with the list. -/
def flood (next : Fin n → List (Fin n)) (seen : VertexSet n) :
    List (Fin n) → List (Fin n) × VertexSet n
  | [] => ([], seen)
  | u :: queue =>
      let rest := flood next (seen.mark (next u)).2 (queue ++ (seen.mark (next u)).1)
      (u :: rest.1, rest.2)
termination_by queue => seen.missing (fun _ => 1) + queue.length
decreasing_by
  have le := seen.missing_mark_le (next u)
  rw [List.length_append, List.length_cons]
  omega

theorem flood_nil (next : Fin n → List (Fin n)) (seen : VertexSet n) :
    flood next seen [] = ([], seen) := by
  rw [flood]

theorem flood_cons (next : Fin n → List (Fin n)) (seen : VertexSet n) (u : Fin n)
    (queue : List (Fin n)) :
    flood next seen (u :: queue) =
      (u :: (flood next (seen.mark (next u)).2 (queue ++ (seen.mark (next u)).1)).1,
        (flood next (seen.mark (next u)).2 (queue ++ (seen.mark (next u)).1)).2) := by
  rw [flood]

/-- The vertices that can be reached from `start`, nearer ones first. -/
def discover (next : Fin n → List (Fin n)) (start : Fin n) : List (Fin n) :=
  (flood next (VertexSet.ofList [start]) [start]).1

namespace Digraph

def breadthFirst (d : Digraph n) (way : Way) (start : Fin n) : List (Fin n) :=
  discover (d.neighbors way) start

/-- The vertices joined to `v` by edges taken either way that have no mark yet, and the marks with
theirs. -/
def component (d : Digraph n) (seen : VertexSet n) (v : Fin n) : List (Fin n) × VertexSet n :=
  flood d.bothSides (seen.insert v) [v]

/-- One component for every vertex of the list that no component before it has marked. -/
def componentsOf (d : Digraph n) (seen : VertexSet n) : List (Fin n) → List (List (Fin n))
  | [] => []
  | v :: vs =>
      if v ∈ seen then d.componentsOf seen vs
      else (d.component seen v).1 :: d.componentsOf (d.component seen v).2 vs

/-- The weakly connected components, by their first vertices. -/
def components (d : Digraph n) : List (List (Fin n)) := d.componentsOf ∅ (List.finRange n)

end Digraph

end Provenance
