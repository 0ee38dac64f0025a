import Provenance.Digraph.Basic
import Provenance.Digraph.VertexSet

/-! # Depth-first search

A walk keeps a stack of frames, one for each vertex on its way: the vertex and the neighbours that
it has not looked at yet. The events of the walk give the discovery and the finishing order.
-/

namespace Provenance

variable {n : Nat}

abbrev Frame (n : Nat) := Fin n × List (Fin n)

/-- The number of looks and returns that a stack of frames still holds. -/
def pending : List (Frame n) → Nat
  | [] => 0
  | (_, ws) :: frames => 1 + ws.length + pending frames

/-- The number of steps that a walk has left at most, whatever it still enters. -/
def stepsLeft (next : Fin n → List (Fin n)) (seen : VertexSet n) (frames : List (Frame n)) : Nat :=
  seen.missing (fun v => 2 + (next v).length) + pending frames

theorem stepsLeft_leave {next : Fin n → List (Fin n)} {seen : VertexSet n} {u : Fin n}
    {frames : List (Frame n)} :
    stepsLeft next seen frames < stepsLeft next seen ((u, []) :: frames) := by
  simp only [stepsLeft, pending]
  omega

theorem stepsLeft_skip {next : Fin n → List (Fin n)} {seen : VertexSet n} {u w : Fin n}
    {ws : List (Fin n)} {frames : List (Frame n)} :
    stepsLeft next seen ((u, ws) :: frames) < stepsLeft next seen ((u, w :: ws) :: frames) := by
  simp only [stepsLeft, pending, List.length_cons]
  omega

theorem stepsLeft_enter {next : Fin n → List (Fin n)} {seen : VertexSet n} {u w : Fin n}
    {ws : List (Fin n)} {frames : List (Frame n)} (h : w ∉ seen) :
    stepsLeft next (seen.insert w) ((w, next w) :: (u, ws) :: frames) <
      stepsLeft next seen ((u, w :: ws) :: frames) := by
  have le := VertexSet.missing_insert_le (fun v => 2 + (next v).length) h
  simp only [stepsLeft, pending, List.length_cons] at le ⊢
  omega

inductive Event (n : Nat) where
  | enter (v : Fin n)
  | leave (v : Fin n)

namespace Event

def entered? : Event n → Option (Fin n)
  | .enter v => some v
  | .leave _ => none

def left? : Event n → Option (Fin n)
  | .enter _ => none
  | .leave v => some v

end Event

/-- What happens from a given stack on; `seen` marks the vertices that have been entered. -/
def walkFrom (next : Fin n → List (Fin n)) (seen : VertexSet n) : List (Frame n) → List (Event n)
  | [] => []
  | (u, []) :: frames => .leave u :: walkFrom next seen frames
  | (u, w :: ws) :: frames =>
      if w ∈ seen then walkFrom next seen ((u, ws) :: frames)
      else .enter w :: walkFrom next (seen.insert w) ((w, next w) :: (u, ws) :: frames)
termination_by frames => stepsLeft next seen frames
decreasing_by
  · exact stepsLeft_leave
  · exact stepsLeft_skip
  · exact stepsLeft_enter ‹_›

def walk (next : Fin n → List (Fin n)) (start : Fin n) : List (Event n) :=
  .enter start :: walkFrom next (VertexSet.ofList [start]) [(start, next start)]

/-- As `walkFrom`, for the order in which vertices are left, the last one first and put before
`done`. A vertex that is seen and not `closed` is on the stack: meeting it again ends the walk. -/
def closeFrom? (next : Fin n → List (Fin n)) (seen closed : VertexSet n) (done : List (Fin n)) :
    List (Frame n) → Option (List (Fin n))
  | [] => some done
  | (u, []) :: frames => closeFrom? next seen (closed.insert u) (u :: done) frames
  | (u, w :: ws) :: frames =>
      if w ∈ closed then closeFrom? next seen closed done ((u, ws) :: frames)
      else if w ∈ seen then none
      else closeFrom? next (seen.insert w) closed done ((w, next w) :: (u, ws) :: frames)
termination_by frames => stepsLeft next seen frames
decreasing_by
  · exact stepsLeft_leave
  · exact stepsLeft_skip
  · exact stepsLeft_enter ‹_›

namespace Digraph

/-- The vertices that can be reached from `start`, in the order in which the walk enters them. -/
def depthFirst (d : Digraph n) (way : Way) (start : Fin n) : List (Fin n) :=
  (walk (d.neighbors way) start).filterMap Event.entered?

/-- The same vertices in the order in which the walk leaves them. -/
def finishing (d : Digraph n) (way : Way) (start : Fin n) : List (Fin n) :=
  (walk (d.neighbors way) start).filterMap Event.left?

/-- The vertices that can be reached from `start`, each before its neighbours. None if one of
them can be reached from itself. -/
def reachableOrder? (d : Digraph n) (way : Way) (start : Fin n) : Option (List (Fin n)) :=
  closeFrom? (d.neighbors way) (VertexSet.ofList [start]) ∅ [] [(start, d.neighbors way start)]

end Digraph

end Provenance
