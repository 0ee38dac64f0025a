import Provenance.Proofs.Digraph.Cycles
import Provenance.Proofs.Tables.Walks

/-! # Cyclic groups on tables

The walk keeps a number, a lowlink and a mark for every vertex. The first vertex of a group is taken
without asking whether there is one: every group holds the vertex at which it is popped.
-/

namespace Provenance

namespace Table

/-- The state of the walk, with tables in place of maps. -/
structure Tarjan where
  count : Nat
  stack : List Nat
  onStack : Array Bool
  indices : Array (Option Nat)
  lowlink : Array Nat
  groups : List (List Nat)

namespace Tarjan

def visit? (t : Tarjan) (v : Nat) : Option Tarjan := do
  return { t with
    count := t.count + 1
    stack := v :: t.stack
    onStack := ← write? t.onStack v true
    indices := ← write? t.indices v (some t.count)
    lowlink := ← write? t.lowlink v t.count }

def lower? (t : Tarjan) (v : Nat) (low : Nat) : Option Tarjan := do
  return { t with lowlink := ← write? t.lowlink v (min (← t.lowlink[v]?) low) }

/-- What stands on a stack down to a vertex, what is left, and the marks without what is popped. -/
def popped? (v : Nat) : List Nat → Array Bool → Option (List Nat × List Nat × Array Bool)
  | [], marks => some ([], [], marks)
  | w :: stack, marks => do
      let marks ← write? marks w false
      if w = v then return ([w], stack, marks)
      let (group, rest, marks) ← popped? v stack marks
      return (w :: group, rest, marks)

def popComponent? (t : Tarjan) (v : Nat) : Option Tarjan := do
  let (group, rest, marks) ← popped? v t.stack t.onStack
  return { t with stack := rest, onStack := marks, groups := t.groups ++ [group] }

def handOn? (t : Tarjan) (v : Nat) : List (Nat × List Nat) → Option Tarjan
  | [] => some t
  | (parent, _) :: _ => do t.lower? parent (← t.lowlink[v]?)

def complete? (t : Tarjan) (v : Nat) : Option Tarjan := do
  if some (← t.lowlink[v]?) = (← t.indices[v]?) then t.popComponent? v else return t

/-- Fails if the walk takes too many steps. -/
def connect? (next : Array (List Nat)) : Nat → Tarjan → List (Nat × List Nat) → Option Tarjan
  | 0, _, _ => none
  | _ + 1, t, [] => some t
  | steps + 1, t, (v, []) :: frames => do
      connect? next steps (← (← t.handOn? v frames).complete? v) frames
  | steps + 1, t, (v, w :: ws) :: frames => do
      match ← t.indices[w]? with
      | none => connect? next steps (← t.visit? w) ((w, ← next[w]?) :: (v, ws) :: frames)
      | some i =>
          if ← t.onStack[w]? then connect? next steps (← t.lower? v i) ((v, ws) :: frames)
          else connect? next steps t ((v, ws) :: frames)

def start? (next : Array (List Nat)) (t : Tarjan) (v : Nat) : Option Tarjan := do
  if (← t.indices[v]?).isNone then connect? next (stepBound next) (← t.visit? v) [(v, ← next[v]?)]
  else return t

def initial (n : Nat) : Tarjan where
  count := 0
  stack := []
  onStack := Array.replicate n false
  indices := Array.replicate n none
  lowlink := Array.replicate n 0
  groups := []

end Tarjan

def strongGroups? (succ : Array (List Nat)) : Option (List (List Nat)) := do
  return (← (List.range succ.size).foldlM (Tarjan.start? succ) (.initial succ.size)).groups

/-- Fails if the group is empty. -/
def cycle? (succ : Array (List Nat)) (group : List Nat) : Option (Option (List Nat)) := do
  if 1 < group.length then return some (group.mergeSort fun v w => v ≤ w)
  let v ← group.head?
  return if (← succ[v]?).contains v then some group else none

def cyclicGroups? (succ : Array (List Nat)) : Option (List (List Nat)) := do
  return (← filterMap? (cycle? succ) (← strongGroups? succ)).mergeSort byFirst

end Table

variable {n : Nat}

/-! ## Nothing fails: the walk -/

namespace Tarjan

/-- The state by the numbers of the vertices. -/
def plain (t : Tarjan n) : Table.Tarjan where
  count := t.count
  stack := t.stack.map Fin.val
  onStack := t.onStack.marks
  indices := t.indices.table
  lowlink := t.lowlink.table
  groups := t.groups.map (·.map Fin.val)

theorem plain_initial : Table.Tarjan.initial n = ({} : Tarjan n).plain := by
  simp [plain, Table.Tarjan.initial, VertexSet.replicate_eq_marks]

variable (t : Tarjan n) (v w : Fin n)

theorem visit?_eq : t.plain.visit? v.val = some (t.visit v).plain := by
  simp [Table.Tarjan.visit?, plain, visit, VertexSet.write?_marks]

theorem lower?_eq (low : Nat) : t.plain.lower? v.val low = some (t.lower v low).plain := by
  simp [Table.Tarjan.lower?, plain, lower]

theorem popped?_eq (stack : List (Fin n)) (s : VertexSet n) :
    Table.Tarjan.popped? v.val (stack.map Fin.val) s.marks =
      some ((popped v stack).1.map Fin.val, (popped v stack).2.map Fin.val,
        ((popped v stack).1.foldl VertexSet.erase s).marks) := by
  induction stack generalizing s with
  | nil => rfl
  | cons w stack ih =>
      rw [List.map_cons, Table.Tarjan.popped?, VertexSet.write?_marks_false, Option.bind_eq_bind,
        Option.bind_some, ih, popped]
      by_cases here : w = v
      · simp [here]
      · simp [here, Fin.val_inj]

theorem popComponent?_eq : t.plain.popComponent? v.val = some (t.popComponent v).plain := by
  unfold Table.Tarjan.popComponent?
  simp only [plain, popped?_eq, Option.bind_eq_bind, Option.bind_some]
  simp [popComponent]

theorem handOn?_eq (frames : List (Frame n)) :
    t.plain.handOn? v.val (plainFrames frames) = some (t.handOn v frames).plain := by
  cases frames with
  | nil => rfl
  | cons frame frames =>
      have low : t.plain.lowlink[v.val]? = some (t.lowlink.get v) := t.lowlink.getElem?_table v
      rw [plainFrames, List.map_cons, Table.Tarjan.handOn?, low]
      exact t.lower?_eq frame.1 _

theorem complete?_eq : t.plain.complete? v.val = some (t.complete v).plain := by
  have low : t.plain.lowlink[v.val]? = some (t.lowlink.get v) := t.lowlink.getElem?_table v
  have index : t.plain.indices[v.val]? = some (t.indices.get v) := t.indices.getElem?_table v
  unfold Table.Tarjan.complete? complete
  simp only [low, index, Option.bind_eq_bind, Option.bind_some]
  split
  · exact t.popComponent?_eq v
  · rfl

end Tarjan

namespace Digraph

variable (d : Digraph n)

theorem connect?_eq {t : Tarjan n} {frames : List (Frame n)} {steps : Nat}
    (enough : Tarjan.stepsLeft (d.neighbors .along) t frames < steps) :
    Table.Tarjan.connect? (d.lists .along) steps t.plain (plainFrames frames) =
      some (Tarjan.connect (d.neighbors .along) t frames).plain := by
  induction steps generalizing t frames with
  | zero => omega
  | succ steps ih =>
      match frames with
      | [] =>
          rw [Tarjan.connect_nil]
          rfl
      | (v, []) :: frames =>
          have rest := ih (Nat.lt_of_lt_of_le Tarjan.stepsLeft_leave (Nat.le_of_lt_succ enough))
          rw [Tarjan.connect_leave, plainFrames_cons, List.map_nil, Table.Tarjan.connect?,
            Tarjan.handOn?_eq, Option.bind_eq_bind, Option.bind_some, Tarjan.complete?_eq,
            Option.bind_some, rest]
      | (v, w :: ws) :: frames =>
          have index : t.plain.indices[w.val]? = some (t.indices.get w) :=
            t.indices.getElem?_table w
          have mark : t.plain.onStack[w.val]? = some (decide (w ∈ t.onStack)) :=
            t.onStack.getElem?_marks w
          rw [plainFrames_cons, List.map_cons, Table.Tarjan.connect?, index, Option.bind_eq_bind,
            Option.bind_some]
          cases known : t.indices.get w with
          | none =>
              have rest := ih (Nat.lt_of_lt_of_le (Tarjan.stepsLeft_enter known)
                (Nat.le_of_lt_succ enough))
              rw [plainFrames_cons, plainFrames_cons] at rest
              simp only [Tarjan.connect_enter known, Tarjan.visit?_eq, getElem?_lists,
                Option.bind_eq_bind, Option.bind_some, rest]
          | some i =>
              rw [Tarjan.connect_known known]
              simp only [mark, Option.bind_eq_bind, Option.bind_some, decide_eq_true_eq]
              split
              next =>
                have rest := ih (Nat.lt_of_lt_of_le (Tarjan.stepsLeft_lower i)
                  (Nat.le_of_lt_succ enough))
                rw [plainFrames_cons] at rest
                simp only [Tarjan.lower?_eq, Option.bind_some, rest]
              next =>
                exact ih (Nat.lt_of_lt_of_le Tarjan.stepsLeft_skip (Nat.le_of_lt_succ enough))

/-- A walk that starts at a new vertex ends in time. -/
theorem start?_eq (t : Tarjan n) (v : Fin n) :
    t.plain.start? (d.lists .along) v.val = some (t.start (d.neighbors .along) v).plain := by
  have index : t.plain.indices[v.val]? = some (t.indices.get v) := t.indices.getElem?_table v
  unfold Table.Tarjan.start? Tarjan.start
  simp only [index, Option.bind_eq_bind, Option.bind_some]
  split
  next new =>
    have cost := Tarjan.unvisited_visit_le (fun v => 2 + (d.neighbors .along v).length)
      (Option.isNone_iff_eq_none.mp new)
    have all := weigh_le_sum (fun v => 2 + (d.neighbors .along v).length)
      (fun v => (t.indices.get v).isNone) (List.finRange n)
    have enough : Tarjan.stepsLeft (d.neighbors .along) (t.visit v) [(v, d.neighbors .along v)] <
        Table.stepBound (d.lists .along) := by
      rw [stepBound_eq]
      simp only [Tarjan.stepsLeft, pending]
      omega
    have walked := d.connect?_eq enough
    rw [plainFrames_cons] at walked
    rw [Tarjan.visit?_eq, Option.bind_some, getElem?_lists, Option.bind_some]
    exact walked
  next => rfl

theorem strongGroups?_eq :
    Table.strongGroups? (d.lists .along) = some (d.strongGroups.map (·.map Fin.val)) := by
  have vertices : List.range n = (List.finRange n).map Fin.val := by simp
  have walked := Table.foldlM_eq_some d.start?_eq (List.finRange n) {}
  rw [Table.strongGroups?, size_lists, vertices, Tarjan.plain_initial, walked]
  rfl

/-! ## Nothing fails: the groups -/

theorem mergeSort_map_val (group : List (Fin n)) :
    (group.map Fin.val).mergeSort (fun v w => v ≤ w) =
      (group.mergeSort fun v w => v ≤ w).map Fin.val :=
  (List.map_mergeSort (f := Fin.val) fun _ _ _ _ => rfl).symm

theorem mergeSort_byFirst_map_val (groups : List (List (Fin n))) :
    (groups.map (·.map Fin.val)).mergeSort byFirst =
      (groups.mergeSort byFirst).map (·.map Fin.val) := by
  refine (List.map_mergeSort (f := List.map Fin.val) fun group _ group' _ => ?_).symm
  cases group <;> cases group' <;> rfl

/-- A group of vertices that belong together has a first one. -/
theorem cycle?_eq {group : List (Fin n)} (listed : group ∈ d.strongGroups) :
    Table.cycle? (d.lists .along) (group.map Fin.val) =
      some ((d.cycle? group).map (·.map Fin.val)) := by
  obtain ⟨v, member⟩ := (d.strongGroups_spec.1 group listed).mem_iff
  have here := (member v).mpr ⟨.refl, .refl⟩
  cases group with
  | nil => cases here
  | cons first rest =>
      unfold Table.cycle? cycle?
      cases rest with
      | nil => simp [Fin.val_inj]
      | cons second rest =>
          have more : 1 < (first :: second :: rest).length := by simp
          rw [List.length_map, if_pos more, if_pos more, mergeSort_map_val]
          rfl

/-- The cyclic groups are found without a failing access. -/
theorem cyclicGroups?_eq :
    Table.cyclicGroups? (d.lists .along) = some (d.cyclicGroups.map (·.map Fin.val)) := by
  have cycles := Table.filterMap?_eq_some fun group (listed : group ∈ d.strongGroups) =>
    d.cycle?_eq listed
  rw [← List.map_filterMap] at cycles
  rw [Table.cyclicGroups?, d.strongGroups?_eq, Option.bind_eq_bind, Option.bind_some, cycles,
    Option.bind_some, mergeSort_byFirst_map_val]
  rfl

end Digraph

end Provenance
