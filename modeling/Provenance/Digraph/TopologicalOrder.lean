import Provenance.Digraph.Basic
import Provenance.Digraph.VertexSet

/-! # Topological order

A queue holds the vertices that wait for no predecessor any more. Each is taken from its front and
listed, and the vertices whose last predecessor it was go to its end. A vertex on a cycle, or behind
one, never gets into the queue.
-/

namespace Provenance

variable {n : Nat}

/-- How many predecessors of each vertex have not been listed. -/
abbrev Waiting (n : Nat) := VertexMap Nat n

namespace Waiting

/-- The number of vertices that wait for a predecessor. -/
def blocked (waiting : Waiting n) : Nat :=
  weigh (fun _ => 1) (0 < waiting.get ·) (List.finRange n)

/-- Takes one predecessor off each vertex of a list. The first part of the result holds those whose
last it was. -/
def release (waiting : Waiting n) : List (Fin n) → List (Fin n) × Waiting n
  | [] => ([], waiting)
  | w :: ws =>
      let rest := release (waiting.set w (waiting.get w - 1)) ws
      (if waiting.get w = 1 then w :: rest.1 else rest.1, rest.2)

theorem get_set_le (waiting : Waiting n) (w v : Fin n) :
    (waiting.set w (waiting.get w - 1)).get v ≤ waiting.get v := by
  rw [VertexMap.get_set]
  split
  next here => exact here ▸ Nat.sub_le _ _
  next => exact Nat.le_refl _

theorem blocked_set_le (waiting : Waiting n) (w : Fin n) :
    blocked (waiting.set w (waiting.get w - 1)) ≤ waiting.blocked := by
  refine weigh_le _ fun v _ positive => ?_
  exact decide_eq_true (Nat.lt_of_lt_of_le (of_decide_eq_true positive) (waiting.get_set_le w v))

theorem blocked_set_lt {waiting : Waiting n} {w : Fin n} (last : waiting.get w = 1) :
    blocked (waiting.set w (waiting.get w - 1)) + 1 ≤ waiting.blocked := by
  refine weigh_add_le (fun _ => 1) (fun v _ positive => ?_) (List.mem_finRange w) ?_ ?_
  · exact decide_eq_true (Nat.lt_of_lt_of_le (of_decide_eq_true positive) (waiting.get_set_le w v))
  · simp [last]
  · simp [last]

/-- What is released does not wait any more. -/
theorem blocked_release_le (waiting : Waiting n) (ws : List (Fin n)) :
    (waiting.release ws).2.blocked + (waiting.release ws).1.length ≤ waiting.blocked := by
  induction ws generalizing waiting with
  | nil => exact Nat.le_refl _
  | cons w ws ih =>
      have later := ih (waiting.set w (waiting.get w - 1))
      simp only [release]
      split
      next last =>
        have less := blocked_set_lt last
        rw [List.length_cons]
        omega
      next => exact Nat.le_trans later (blocked_set_le waiting w)

/-- Lists the vertices of a queue, and those that become free behind it. -/
def drain (next : Fin n → List (Fin n)) (waiting : Waiting n) : List (Fin n) → List (Fin n)
  | [] => []
  | u :: queue =>
      u :: drain next (waiting.release (next u)).2 (queue ++ (waiting.release (next u)).1)
termination_by queue => waiting.blocked + queue.length
decreasing_by
  have le := waiting.blocked_release_le (next u)
  rw [List.length_append, List.length_cons]
  omega

theorem drain_nil (next : Fin n → List (Fin n)) (waiting : Waiting n) :
    waiting.drain next [] = [] := by
  rw [drain]

theorem drain_cons (next : Fin n → List (Fin n)) (waiting : Waiting n) (u : Fin n)
    (queue : List (Fin n)) :
    waiting.drain next (u :: queue) = u :: drain next (waiting.release (next u)).2
      (queue ++ (waiting.release (next u)).1) := by
  rw [drain]

end Waiting

namespace Digraph

/-- The vertices that cannot be reached from a cycle, seeded with those without predecessors. -/
def peeled (d : Digraph n) : List (Fin n) :=
  let waiting : Waiting n := .ofFn fun v => (d.neighbors .against v).length
  waiting.drain (d.neighbors .along) ((List.finRange n).filter fun v => waiting.get v == 0)

/-- Every vertex before its successors; none if the digraph has a cycle. -/
def topologicalOrder? (d : Digraph n) : Option (List (Fin n)) :=
  let order := d.peeled
  if order.length = n then some order else none

end Digraph

end Provenance
