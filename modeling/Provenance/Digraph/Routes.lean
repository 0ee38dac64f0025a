import Provenance.Digraph.Walk

/-! # Shortest and longest routes

Distances from one vertex over the edges of an acyclic part, and for every vertex the neighbour
that its best distance comes from. The vertices are settled in topological order.
-/

namespace Provenance

inductive Extent where
  | shortest
  | longest
deriving DecidableEq

namespace Extent

/-- Whether a candidate distance replaces the one found before; the first of equals stays. -/
def improves (candidate found : Nat) : Extent → Bool
  | .shortest => candidate < found
  | .longest => found < candidate

end Extent

/-- What is known of a reached vertex. The vertex that the routes start at has no `previous`. -/
structure Milestone (n : Nat) where
  distance : Nat
  previous : Option (Fin n)
deriving DecidableEq

/-- One milestone for every vertex that can be reached. -/
abbrev Routes (n : Nat) := VertexMap (Option (Milestone n)) n

namespace Routes

variable {n : Nat}

def init (start : Fin n) : Routes n :=
  (VertexMap.const none).set start (some ⟨0, none⟩)

def reaches (routes : Routes n) (v : Fin n) : Bool := (routes.get v).isSome

def distance? (routes : Routes n) (v : Fin n) : Option Nat := (routes.get v).map Milestone.distance

def previous? (routes : Routes n) (v : Fin n) : Option (Fin n) :=
  (routes.get v).bind Milestone.previous

/-- Takes a milestone for `w` if there is none yet or if it improves on the one there. -/
def offer (extent : Extent) (milestone : Milestone n) (routes : Routes n) (w : Fin n) : Routes n :=
  match routes.get w with
  | none => routes.set w (some milestone)
  | some found =>
      if extent.improves milestone.distance found.distance then routes.set w (some milestone)
      else routes

/-- Extends the route to `u` by each edge from there. -/
def extend (next : Fin n → List (Fin n)) (extent : Extent) (routes : Routes n) (u : Fin n) :
    Routes n :=
  match routes.get u with
  | none => routes
  | some found => (next u).foldl (offer extent ⟨found.distance + 1, some u⟩) routes

/-- The vertices met on the way back from `v`, in at most `steps` steps. -/
def back (routes : Routes n) : Nat → Fin n → List (Fin n)
  | 0, v => [v]
  | steps + 1, v =>
      match routes.previous? v with
      | none => [v]
      | some u => v :: back routes steps u

/-- The route to a vertex, read from that vertex back to the start. -/
def chainTo (routes : Routes n) (v : Fin n) : List (Fin n) := routes.back n v

/-- Keeps the farther vertex; of two that are equally far, the first. -/
def farther (routes : Routes n) (best : Option (Fin n × Nat)) (v : Fin n) : Option (Fin n × Nat) :=
  match routes.distance? v, best with
  | none, _ => best
  | some d, none => if d = 0 then none else some (v, d)
  | some d, some (_, e) => if e < d then some (v, d) else best

/-- The vertex at the greatest distance above zero; of several, the first. -/
def farthest? (routes : Routes n) : Option (Fin n) :=
  ((List.finRange n).foldl routes.farther none).map Prod.fst

end Routes

namespace Digraph

variable {n : Nat}

/-- None if a vertex that can be reached from `start` lies on a cycle. -/
def routes? (d : Digraph n) (way : Way) (extent : Extent) (start : Fin n) : Option (Routes n) :=
  (d.reachableOrder? way start).map fun order =>
    order.foldl (Routes.extend (d.neighbors way) extent) (Routes.init start)

end Digraph

end Provenance
