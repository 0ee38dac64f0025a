import Provenance.Digraph.Walk

/-! # Cyclic groups

Two vertices belong together if each can be reached from the other. One depth-first walk over all
vertices finds the groups: it numbers the vertices as it enters them and keeps them on a stack until
their group is complete. The lowlink of a vertex is the least number on the stack that has been seen
from it or from what was entered behind it. A vertex whose lowlink is its own number is the first of
its group, which stands on the stack from there on.
-/

namespace Provenance

variable {n : Nat}

/-- `count` vertices have been entered. The stack has its top first, and `groups` lists what has
been popped. -/
structure Tarjan (n : Nat) where
  count : Nat := 0
  stack : List (Fin n) := []
  onStack : VertexSet n := ∅
  indices : VertexMap (Option Nat) n := .const none
  lowlink : VertexMap Nat n := .const 0
  groups : List (List (Fin n)) := []

namespace Tarjan

/-- Numbers a vertex and puts it on the stack. -/
def visit (t : Tarjan n) (v : Fin n) : Tarjan n :=
  { t with
    count := t.count + 1
    stack := v :: t.stack
    onStack := t.onStack.insert v
    indices := t.indices.set v (some t.count)
    lowlink := t.lowlink.set v t.count }

/-- Takes a number into account that has been seen from a vertex. -/
def lower (t : Tarjan n) (v : Fin n) (low : Nat) : Tarjan n :=
  { t with lowlink := t.lowlink.set v (min (t.lowlink.get v) low) }

/-- What stands on a stack down to a vertex, the top first, and what is left of the stack. -/
def popped (v : Fin n) : List (Fin n) → List (Fin n) × List (Fin n)
  | [] => ([], [])
  | w :: stack =>
      if w = v then ([w], stack)
      else
        let rest := popped v stack
        (w :: rest.1, rest.2)

/-- Makes a group of what stands on the stack down to a vertex. -/
def popComponent (t : Tarjan n) (v : Fin n) : Tarjan n :=
  let parts := popped v t.stack
  { t with
    stack := parts.2
    onStack := parts.1.foldl VertexSet.erase t.onStack
    groups := t.groups ++ [parts.1] }

/-- Hands the lowlink of a vertex on to the one that it was entered from. -/
def handOn (t : Tarjan n) (v : Fin n) : List (Frame n) → Tarjan n
  | [] => t
  | (parent, _) :: _ => t.lower parent (t.lowlink.get v)

/-- Pops the group of a vertex that is the first of it. -/
def complete (t : Tarjan n) (v : Fin n) : Tarjan n :=
  if some (t.lowlink.get v) = t.indices.get v then t.popComponent v else t

/-- The number of steps that the walk has left at most, whatever it still enters. -/
def stepsLeft (next : Fin n → List (Fin n)) (t : Tarjan n) (frames : List (Frame n)) : Nat :=
  weigh (fun v => 2 + (next v).length) (fun v => (t.indices.get v).isNone) (List.finRange n) +
    pending frames

@[simp]
theorem indices_handOn (t : Tarjan n) (v : Fin n) (frames : List (Frame n)) :
    (t.handOn v frames).indices = t.indices := by
  cases frames <;> rfl

@[simp]
theorem indices_complete (t : Tarjan n) (v : Fin n) : (t.complete v).indices = t.indices := by
  unfold complete
  split <;> rfl

section Steps

variable {next : Fin n → List (Fin n)} {t : Tarjan n} {v w : Fin n} {ws : List (Fin n)}
  {frames : List (Frame n)}

theorem stepsLeft_leave :
    stepsLeft next ((t.handOn v frames).complete v) frames <
      stepsLeft next t ((v, []) :: frames) := by
  simp only [stepsLeft, indices_complete, indices_handOn, pending]
  omega

theorem stepsLeft_skip :
    stepsLeft next t ((v, ws) :: frames) < stepsLeft next t ((v, w :: ws) :: frames) := by
  simp only [stepsLeft, pending, List.length_cons]
  omega

theorem stepsLeft_lower (low : Nat) :
    stepsLeft next (t.lower v low) ((v, ws) :: frames) <
      stepsLeft next t ((v, w :: ws) :: frames) :=
  stepsLeft_skip (t := t)

/-- What a vertex costs is paid when it is entered. -/
theorem unvisited_visit_le (cost : Fin n → Nat) (new : t.indices.get w = none) :
    weigh cost (fun v => ((t.visit w).indices.get v).isNone) (List.finRange n) + cost w ≤
      weigh cost (fun v => (t.indices.get v).isNone) (List.finRange n) := by
  refine weigh_add_le cost (fun v _ unvisited => ?_) (List.mem_finRange w) (by simp [new])
    (by simp [visit])
  simp only [visit, VertexMap.get_set] at unvisited
  split at unvisited
  · cases unvisited
  · exact unvisited

theorem stepsLeft_enter (new : t.indices.get w = none) :
    stepsLeft next (t.visit w) ((w, next w) :: (v, ws) :: frames) <
      stepsLeft next t ((v, w :: ws) :: frames) := by
  have le := unvisited_visit_le (fun v => 2 + (next v).length) new
  simp only [stepsLeft, pending, List.length_cons]
  omega

end Steps

/-- Walks on from a stack of frames. -/
def connect (next : Fin n → List (Fin n)) (t : Tarjan n) : List (Frame n) → Tarjan n
  | [] => t
  | (v, []) :: frames => connect next ((t.handOn v frames).complete v) frames
  | (v, w :: ws) :: frames =>
      match _new : t.indices.get w with
      | none => connect next (t.visit w) ((w, next w) :: (v, ws) :: frames)
      | some i =>
          if w ∈ t.onStack then connect next (t.lower v i) ((v, ws) :: frames)
          else connect next t ((v, ws) :: frames)
termination_by frames => stepsLeft next t frames
decreasing_by
  · exact stepsLeft_leave
  · exact stepsLeft_enter _new
  · exact stepsLeft_lower i
  · exact stepsLeft_skip

section Connect

variable {next : Fin n → List (Fin n)} {t : Tarjan n} {v w : Fin n} {ws : List (Fin n)}
  {frames : List (Frame n)} {i : Nat}

theorem connect_nil : connect next t [] = t := by
  rw [connect]

theorem connect_leave :
    connect next t ((v, []) :: frames) = connect next ((t.handOn v frames).complete v) frames := by
  rw [connect]

theorem connect_enter (new : t.indices.get w = none) :
    connect next t ((v, w :: ws) :: frames) =
      connect next (t.visit w) ((w, next w) :: (v, ws) :: frames) := by
  rw [connect]
  split
  next => rfl
  next known => cases new.symm.trans known

theorem connect_known (known : t.indices.get w = some i) :
    connect next t ((v, w :: ws) :: frames) =
      connect next (if w ∈ t.onStack then t.lower v i else t) ((v, ws) :: frames) := by
  rw [connect]
  split
  next new => cases known.symm.trans new
  next known' =>
    obtain rfl := Option.some.inj (known.symm.trans known')
    split <;> rfl

end Connect

/-- A walk from a vertex that has not been entered before. -/
def start (next : Fin n → List (Fin n)) (t : Tarjan n) (v : Fin n) : Tarjan n :=
  if (t.indices.get v).isNone then connect next (t.visit v) [(v, next v)] else t

end Tarjan

/-- Whether a list starts with an entry that is no greater than the first one of another. -/
def byFirst {α : Type} [LE α] [DecidableLE α] : List α → List α → Bool
  | [], _ => true
  | _ :: _, [] => false
  | a :: _, b :: _ => a ≤ b

namespace Digraph

/-- The groups in the order in which they are complete. -/
def strongGroups (d : Digraph n) : List (List (Fin n)) :=
  ((List.finRange n).foldl (Tarjan.start (d.neighbors .along)) {}).groups

/-- A group in increasing order; none for a single vertex without an edge to itself. -/
def cycle? (d : Digraph n) (group : List (Fin n)) : Option (List (Fin n)) :=
  if 1 < group.length then some (group.mergeSort fun v w => v ≤ w)
  else if group.head?.any fun v => (d.neighbors .along v).contains v then some group
  else none

/-- The groups that hold a cycle, each in increasing order, by their first vertices. -/
def cyclicGroups (d : Digraph n) : List (List (Fin n)) :=
  (d.strongGroups.filterMap d.cycle?).mergeSort byFirst

end Digraph

end Provenance
