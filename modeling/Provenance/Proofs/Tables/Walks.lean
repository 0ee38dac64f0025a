import Provenance.Digraph.BreadthFirst
import Provenance.Digraph.Walk
import Provenance.Proofs.Tables.Basic

/-! # Walks on tables

Breadth-first and depth-first searches keep a mark for every vertex that they have met. A search may
take as many steps as the edges allow and no more.
-/

namespace Provenance

namespace Table

/-! ## Queues -/

/-- The vertices of a list that have no mark yet, each once, and the marks with theirs. -/
def unmarked? (marks : Array Bool) : List Nat → Option (List Nat × Array Bool)
  | [] => some ([], marks)
  | v :: vs => do
      if ← marks[v]? then unmarked? marks vs
      else
        let (fresh, marks) ← unmarked? (← write? marks v true) vs
        return (v :: fresh, marks)

/-- Fails if more vertices get into the queue than the given number. -/
def flood? (next : Nat → Option (List Nat)) :
    Nat → Array Bool → List Nat → Option (List Nat × Array Bool)
  | _, marks, [] => some ([], marks)
  | 0, _, _ :: _ => none
  | turns + 1, marks, u :: queue => do
      let (fresh, marks) ← unmarked? marks (← next u)
      let (rest, marks) ← flood? next turns marks (queue ++ fresh)
      return (u :: rest, marks)

def discover? (n : Nat) (next : Nat → Option (List Nat)) (start : Nat) : Option (List Nat) := do
  let marks ← write? (Array.replicate n false) start true
  return (← flood? next n marks [start]).1

def bothSides? (succ pred : Array (List Nat)) (u : Nat) : Option (List Nat) := do
  return (← succ[u]?) ++ (← pred[u]?)

def componentsOf? (n : Nat) (next : Nat → Option (List Nat)) (marks : Array Bool) :
    List Nat → Option (List (List Nat))
  | [] => some []
  | v :: vs => do
      if ← marks[v]? then componentsOf? n next marks vs
      else
        let (group, marks) ← flood? next n (← write? marks v true) [v]
        return group :: (← componentsOf? n next marks vs)

def components? (succ pred : Array (List Nat)) : Option (List (List Nat)) :=
  let n := succ.size
  componentsOf? n (bothSides? succ pred) (Array.replicate n false) (List.range n)

/-! ## Frames -/

/-- The vertices in the order in which a walk enters them, and in the order in which it leaves
them. Fails if the walk takes too many steps. -/
def walkFrom? (next : Array (List Nat)) :
    Nat → Array Bool → List (Nat × List Nat) → Option (List Nat × List Nat)
  | 0, _, _ => none
  | _ + 1, _, [] => some ([], [])
  | steps + 1, marks, (u, []) :: frames => do
      let (entered, left) ← walkFrom? next steps marks frames
      return (entered, u :: left)
  | steps + 1, marks, (u, w :: ws) :: frames => do
      if ← marks[w]? then walkFrom? next steps marks ((u, ws) :: frames)
      else
        let marks ← write? marks w true
        let (entered, left) ← walkFrom? next steps marks ((w, ← next[w]?) :: (u, ws) :: frames)
        return (w :: entered, left)

/-- Twice for each vertex, once for each edge, and once for the empty stack. -/
def stepBound (next : Array (List Nat)) : Nat :=
  (next.toList.map fun ws => 2 + ws.length).sum + 1

def walk? (next : Array (List Nat)) (start : Nat) : Option (List Nat × List Nat) := do
  let marks ← write? (Array.replicate next.size false) start true
  let (entered, left) ← walkFrom? next (stepBound next) marks [(start, ← next[start]?)]
  return (start :: entered, left)

/-- What the walk would list, or nothing if it meets a vertex that it has not left. -/
def closeFrom? (next : Array (List Nat)) :
    Nat → Array Bool → Array Bool → List Nat → List (Nat × List Nat) → Option (Option (List Nat))
  | 0, _, _, _, _ => none
  | _ + 1, _, _, done, [] => some (some done)
  | steps + 1, marks, closed, done, (u, []) :: frames => do
      closeFrom? next steps marks (← write? closed u true) (u :: done) frames
  | steps + 1, marks, closed, done, (u, w :: ws) :: frames => do
      if ← closed[w]? then closeFrom? next steps marks closed done ((u, ws) :: frames)
      else if ← marks[w]? then return none
      else
        let marks ← write? marks w true
        closeFrom? next steps marks closed done ((w, ← next[w]?) :: (u, ws) :: frames)

def reachableOrder? (next : Array (List Nat)) (start : Nat) : Option (Option (List Nat)) := do
  let blank := Array.replicate next.size false
  let marks ← write? blank start true
  closeFrom? next (stepBound next) marks blank [] [(start, ← next[start]?)]

end Table

variable {n : Nat}

/-! ## Nothing fails: queues -/

theorem unmarked?_eq (s : VertexSet n) (vs : List (Fin n)) :
    Table.unmarked? s.marks (vs.map Fin.val) =
      some ((s.mark vs).1.map Fin.val, (s.mark vs).2.marks) := by
  induction vs generalizing s with
  | nil => rfl
  | cons v vs ih =>
      simp only [List.map_cons, Table.unmarked?, VertexSet.getElem?_marks, VertexSet.mark,
        VertexSet.write?_marks, Option.bind_eq_bind, Option.bind_some, decide_eq_true_eq]
      split
      next => exact ih s
      next => simp [ih]

theorem flood?_eq {next : Fin n → List (Fin n)} {read : Nat → Option (List Nat)}
    (reads : ∀ u, read u.val = some ((next u).map Fin.val)) {seen : VertexSet n} {turns : Nat}
    {queue : List (Fin n)} (enough : seen.missing (fun _ => 1) + queue.length ≤ turns) :
    Table.flood? read turns seen.marks (queue.map Fin.val) =
      some ((flood next seen queue).1.map Fin.val, (flood next seen queue).2.marks) := by
  induction turns generalizing seen queue with
  | zero =>
      have none_left : queue.length = 0 := by omega
      obtain rfl := List.eq_nil_of_length_eq_zero none_left
      rw [flood_nil]
      rfl
  | succ turns ih =>
      cases queue with
      | nil =>
          rw [flood_nil]
          rfl
      | cons u queue =>
          have fewer := seen.missing_mark_le (next u)
          rw [List.length_cons] at enough
          have left : (seen.mark (next u)).2.missing (fun _ => 1) +
              (queue ++ (seen.mark (next u)).1).length ≤ turns := by
            rw [List.length_append]
            omega
          have rest := ih left
          rw [List.map_append] at rest
          rw [List.map_cons, Table.flood?, reads, flood_cons]
          simp only [Option.bind_eq_bind, Option.bind_some, unmarked?_eq, rest]
          rfl

/-- A queue that starts with a single new vertex takes in no more vertices than there are. -/
theorem missing_insert_add_one_le {seen : VertexSet n} {v : Fin n} (new : v ∉ seen) :
    (seen.insert v).missing (fun _ => 1) + [v].length ≤ n := by
  have less := VertexSet.missing_insert_le (fun _ => 1) new
  have all := VertexSet.missing_le_sum seen fun _ => 1
  rw [List.map_const', List.sum_replicate_nat, List.length_finRange] at all
  rw [List.length_singleton]
  omega

/-- A breadth-first search is done without a failing access. -/
theorem discover?_eq {next : Fin n → List (Fin n)} {read : Nat → Option (List Nat)}
    (reads : ∀ u, read u.val = some ((next u).map Fin.val)) (start : Fin n) :
    Table.discover? n read start.val = some ((discover next start).map Fin.val) := by
  have found := flood?_eq reads (missing_insert_add_one_le (VertexSet.not_mem_empty start))
  rw [List.map_singleton] at found
  rw [Table.discover?, VertexSet.replicate_eq_marks, VertexSet.write?_marks, Option.bind_eq_bind,
    Option.bind_some, found, discover, VertexSet.ofList_singleton]
  rfl

namespace Digraph

theorem bothSides?_eq (d : Digraph n) (u : Fin n) :
    Table.bothSides? (d.lists .along) (d.lists .against) u.val =
      some ((d.bothSides u).map Fin.val) := by
  simp [Table.bothSides?, bothSides]

theorem componentsOf?_eq (d : Digraph n) (seen : VertexSet n) (vs : List (Fin n)) :
    Table.componentsOf? n (Table.bothSides? (d.lists .along) (d.lists .against)) seen.marks
      (vs.map Fin.val) = some ((d.componentsOf seen vs).map (·.map Fin.val)) := by
  induction vs generalizing seen with
  | nil => rfl
  | cons v vs ih =>
      simp only [List.map_cons, Table.componentsOf?, VertexSet.getElem?_marks, componentsOf,
        VertexSet.write?_marks, Option.bind_eq_bind, Option.bind_some, decide_eq_true_eq]
      split
      next => exact ih seen
      next new =>
        have found := flood?_eq d.bothSides?_eq (missing_insert_add_one_le new)
        rw [List.map_singleton] at found
        simp [found, ih, component]

theorem components?_eq (d : Digraph n) :
    Table.components? (d.lists .along) (d.lists .against) =
      some (d.components.map (·.map Fin.val)) := by
  have vertices : List.range n = (List.finRange n).map Fin.val := by simp
  rw [Table.components?, size_lists, VertexSet.replicate_eq_marks, vertices]
  exact d.componentsOf?_eq ∅ _

end Digraph

/-! ## Nothing fails: frames -/

/-- A stack of frames by the numbers of the vertices. -/
def plainFrames (frames : List (Frame n)) : List (Nat × List Nat) :=
  frames.map fun (u, ws) => (u.val, ws.map Fin.val)

theorem plainFrames_cons (u : Fin n) (ws : List (Fin n)) (frames : List (Frame n)) :
    plainFrames ((u, ws) :: frames) = (u.val, ws.map Fin.val) :: plainFrames frames := rfl

theorem walkFrom?_eq (d : Digraph n) (way : Way) {seen : VertexSet n} {frames : List (Frame n)}
    {steps : Nat} (enough : stepsLeft (d.neighbors way) seen frames < steps) :
    Table.walkFrom? (d.lists way) steps seen.marks (plainFrames frames) =
      some (((walkFrom (d.neighbors way) seen frames).filterMap Event.entered?).map Fin.val,
        ((walkFrom (d.neighbors way) seen frames).filterMap Event.left?).map Fin.val) := by
  induction steps generalizing seen frames with
  | zero => omega
  | succ steps ih =>
      match frames with
      | [] =>
          rw [walkFrom]
          rfl
      | (u, []) :: frames =>
          have fewer : stepsLeft (d.neighbors way) seen frames < steps :=
            Nat.lt_of_lt_of_le stepsLeft_leave (Nat.le_of_lt_succ enough)
          have rest := ih fewer
          rw [walkFrom]
          simp only [plainFrames, List.map_cons, List.map_nil, Table.walkFrom?] at rest ⊢
          rw [rest]
          rfl
      | (u, w :: ws) :: frames =>
          rw [walkFrom]
          simp only [plainFrames, List.map_cons, Table.walkFrom?, VertexSet.getElem?_marks,
            Option.bind_eq_bind, Option.bind_some, decide_eq_true_eq]
          split
          next =>
            exact ih (Nat.lt_of_lt_of_le stepsLeft_skip (Nat.le_of_lt_succ enough))
          next new =>
            have rest := ih (Nat.lt_of_lt_of_le (stepsLeft_enter new) (Nat.le_of_lt_succ enough))
            simp only [plainFrames, List.map_cons] at rest
            rw [VertexSet.write?_marks, Option.bind_some, Digraph.getElem?_lists, Option.bind_some,
              rest]
            rfl

theorem closeFrom?_eq (d : Digraph n) (way : Way) {seen : VertexSet n} {frames : List (Frame n)}
    {steps : Nat} (enough : stepsLeft (d.neighbors way) seen frames < steps) (closed : VertexSet n)
    (done : List (Fin n)) :
    Table.closeFrom? (d.lists way) steps seen.marks closed.marks (done.map Fin.val)
      (plainFrames frames) =
      some ((closeFrom? (d.neighbors way) seen closed done frames).map (·.map Fin.val)) := by
  induction steps generalizing seen closed done frames with
  | zero => omega
  | succ steps ih =>
      match frames with
      | [] =>
          rw [closeFrom?]
          rfl
      | (u, []) :: frames =>
          have fewer : stepsLeft (d.neighbors way) seen frames < steps :=
            Nat.lt_of_lt_of_le stepsLeft_leave (Nat.le_of_lt_succ enough)
          rw [closeFrom?]
          simp only [plainFrames, List.map_cons, List.map_nil, Table.closeFrom?]
          rw [VertexSet.write?_marks, Option.bind_eq_bind, Option.bind_some]
          exact ih fewer (closed.insert u) (u :: done)
      | (u, w :: ws) :: frames =>
          rw [closeFrom?]
          simp only [plainFrames, List.map_cons, Table.closeFrom?, VertexSet.getElem?_marks,
            Option.bind_eq_bind, Option.bind_some, decide_eq_true_eq]
          split
          next =>
            exact ih (Nat.lt_of_lt_of_le stepsLeft_skip (Nat.le_of_lt_succ enough)) closed done
          next =>
            split
            next => rfl
            next new =>
              rw [VertexSet.write?_marks, Option.bind_some, Digraph.getElem?_lists,
                Option.bind_some]
              exact ih (Nat.lt_of_lt_of_le (stepsLeft_enter new) (Nat.le_of_lt_succ enough))
                closed done

namespace Digraph

variable (d : Digraph n) (way : Way) (start : Fin n)

theorem stepBound_eq :
    Table.stepBound (d.lists way) =
      ((List.finRange n).map fun v => 2 + (d.neighbors way v).length).sum + 1 := by
  simp [Table.stepBound, lists, VertexMap.table, VertexMap.ofFn, List.ofFn_eq_map,
    Function.comp_def]

/-- A walk that starts at a new vertex ends in time. -/
theorem stepsLeft_lt_stepBound {seen : VertexSet n} (new : start ∉ seen) :
    stepsLeft (d.neighbors way) (seen.insert start) [(start, d.neighbors way start)] <
      Table.stepBound (d.lists way) := by
  have less := VertexSet.missing_insert_le (fun v => 2 + (d.neighbors way v).length) new
  have all := VertexSet.missing_le_sum seen fun v => 2 + (d.neighbors way v).length
  rw [stepBound_eq]
  simp only [stepsLeft, pending]
  omega

/-- A depth-first search is done without a failing access. -/
theorem walk?_eq :
    Table.walk? (d.lists way) start.val =
      some ((d.depthFirst way start).map Fin.val, (d.finishing way start).map Fin.val) := by
  have found := walkFrom?_eq d way
    (d.stepsLeft_lt_stepBound way start (VertexSet.not_mem_empty start))
  rw [Table.walk?, size_lists, VertexSet.replicate_eq_marks, VertexSet.write?_marks]
  simp only [Option.bind_eq_bind, Option.bind_some, getElem?_lists]
  simp only [plainFrames, List.map_cons, List.map_nil] at found
  rw [found]
  rfl

theorem reachableOrder?_eq :
    Table.reachableOrder? (d.lists way) start.val =
      some ((d.reachableOrder? way start).map (·.map Fin.val)) := by
  have found := closeFrom?_eq d way
    (d.stepsLeft_lt_stepBound way start (VertexSet.not_mem_empty start)) ∅ []
  rw [Table.reachableOrder?, size_lists, VertexSet.replicate_eq_marks, VertexSet.write?_marks]
  simp only [Option.bind_eq_bind, Option.bind_some, getElem?_lists]
  simp only [plainFrames, List.map_cons, List.map_nil] at found
  exact found

end Digraph

end Provenance
