import Provenance.Digraph.Reach
import Provenance.Proofs.Digraph.Routes
import Provenance.Proofs.Tables.Basic

/-! # Searches on tables

A topological order takes one from the count of a vertex for each edge into it, and there are as
many edges as the count says. The other searches only have to stay within their tables.
-/

namespace Provenance

namespace Table

/-! ## Topological orders -/

/-- Takes one from the count of each vertex in a list; the first part holds those that come to
nothing. Fails if there is nothing to take it from. -/
def release? (waiting : Array Nat) : List Nat → Option (List Nat × Array Nat)
  | [] => some ([], waiting)
  | w :: ws =>
      match waiting[w]? with
      | some (left + 1) => do
          let (free, waiting) ← release? (← write? waiting w left) ws
          return (if left = 0 then w :: free else free, waiting)
      | _ => none

/-- Fails if more vertices get into the queue than the given number. -/
def drain? (succ : Array (List Nat)) : Nat → Array Nat → List Nat → Option (List Nat)
  | _, _, [] => some []
  | 0, _, _ :: _ => none
  | turns + 1, waiting, u :: queue => do
      let (freed, waiting) ← release? waiting (← succ[u]?)
      return u :: (← drain? succ turns waiting (queue ++ freed))

/-- The vertices whose counts are zero. -/
def unblocked? (waiting : Array Nat) (vs : List Nat) : Option (List Nat) :=
  vs.foldlM (fun free v => do return if (← waiting[v]?) = 0 then free ++ [v] else free) []

def topologicalOrder? (succ pred : Array (List Nat)) : Option (Option (List Nat)) := do
  let n := pred.size
  let waiting := pred.map List.length
  let order ← drain? succ n waiting (← unblocked? waiting (List.range n))
  return if order.length = n then some order else none

/-! ## What is reached -/

variable {n : Nat}

/-- Marks a vertex by its number. -/
def mark (s : VertexSet n) (v : Nat) : VertexSet n := ⟨s.bits ||| BitVec.twoPow n v⟩

def settle? (succ : Array (List Nat)) (reach : Array (VertexSet n)) (u : Nat) :
    Option (Array (VertexSet n)) := do
  let through (s : VertexSet n) (w : Nat) : Option (VertexSet n) := do
    return (mark s w).union (← reach[w]?)
  write? reach u (← (← succ[u]?).foldlM through ∅)

def reachOf? (n : Nat) (succ : Array (List Nat)) (order : List Nat) :
    Option (Array (VertexSet n)) :=
  order.reverse.foldlM (settle? succ) (Array.replicate n ∅)

/-! ## Routes -/

/-- The distances, and the vertices that they come from. -/
abbrev Milestones := Array (Option Nat) × Array (Option Nat)

def offer? (extent : Extent) (distance previous : Nat) (t : Milestones) (w : Nat) :
    Option Milestones := do
  let better :=
    match ← t.1[w]? with
    | none => true
    | some found => extent.improves distance found
  if better then
    return (← write? t.1 w (some distance), ← write? t.2 w (some previous))
  return t

def extend? (next : Array (List Nat)) (extent : Extent) (t : Milestones) (u : Nat) :
    Option Milestones := do
  match ← t.1[u]? with
  | none => return t
  | some distance => (← next[u]?).foldlM (offer? extent (distance + 1) u) t

def routes? (next : Array (List Nat)) (extent : Extent) (start : Nat) (order : List Nat) :
    Option Milestones := do
  let blank : Array (Option Nat) := Array.replicate next.size none
  order.foldlM (extend? next extent) (← write? blank start (some 0), blank)

/-- Fails if the start is not met within the given number of steps. -/
def back? (previous : Array (Option Nat)) : Nat → Nat → Option (List Nat)
  | 0, v =>
      match previous[v]? with
      | some none => some [v]
      | _ => none
  | steps + 1, v =>
      match previous[v]? with
      | some none => some [v]
      | some (some u) => (back? previous steps u).map (v :: ·)
      | none => none

end Table

variable {n : Nat}

/-! ## Nothing fails -/

theorem release?_eq {waiting : Waiting n} {ws : List (Fin n)}
    (enough : ∀ v, ws.count v ≤ waiting.get v) :
    Table.release? waiting.table (ws.map Fin.val) =
      some ((waiting.release ws).1.map Fin.val, (waiting.release ws).2.table) := by
  induction ws generalizing waiting with
  | nil => rfl
  | cons w ws ih =>
      obtain ⟨left, here⟩ : ∃ left, waiting.get w = left + 1 := by
        have more := enough w
        rw [List.count_cons_self] at more
        exact Nat.exists_eq_add_one_of_ne_zero (by omega)
      have enough' : ∀ v, ws.count v ≤ (waiting.set w left).get v := by
        intro v
        have more := enough v
        rw [List.count_cons] at more
        rw [VertexMap.get_set]
        split
        next same =>
          subst same
          simp only [beq_self_eq_true, if_true] at more
          omega
        next other => simpa [other] using more
      have rest := ih enough'
      simp only [Waiting.release, List.map_cons, Table.release?, VertexMap.getElem?_table, here,
        VertexMap.write?_table, Nat.add_sub_cancel, Option.bind_eq_bind, Option.bind_some, rest,
        Nat.add_eq_right]
      split <;> rfl

theorem drain?_eq {d : Digraph n} {waiting : Waiting n} {gone queue : List (Fin n)} {turns : Nat}
    (peeling : Peeling (d.neighbors .along) waiting gone queue)
    (enough : waiting.blocked + queue.length ≤ turns) :
    Table.drain? (d.lists .along) turns waiting.table (queue.map Fin.val) =
      some ((waiting.drain (d.neighbors .along) queue).map Fin.val) := by
  induction turns generalizing waiting gone queue with
  | zero =>
      have none_left : queue.length = 0 := by omega
      obtain rfl := List.eq_nil_of_length_eq_zero none_left
      rw [Waiting.drain_nil]
      rfl
  | succ turns ih =>
      cases queue with
      | nil =>
          rw [Waiting.drain_nil]
          rfl
      | cons u queue =>
          have front : ∀ v, (d.neighbors .along u).count v ≤ waiting.get v := by
            have taken : Peeling (d.neighbors .along) waiting gone ([u] ++ queue) := peeling
            simpa using taken.enough
          have fewer := waiting.blocked_release_le (d.neighbors .along u)
          rw [List.length_cons] at enough
          have rest := ih peeling.step (by rw [List.length_append]; omega)
          rw [List.map_append] at rest
          rw [List.map_cons, Table.drain?, Digraph.getElem?_lists, Waiting.drain_cons]
          simp only [Option.bind_eq_bind, Option.bind_some, release?_eq front, rest]
          rfl

theorem unblocked?_eq (waiting : Waiting n) (vs : List (Fin n)) :
    Table.unblocked? waiting.table (vs.map Fin.val) =
      some ((vs.filter fun v => waiting.get v == 0).map Fin.val) := by
  have kept : ∀ free : List (Fin n), vs.foldl
      (fun free v => if waiting.get v = 0 then free ++ [v] else free) free =
        free ++ vs.filter fun v => waiting.get v == 0 := by
    induction vs with
    | nil => simp
    | cons v vs ih =>
        intro free
        rw [List.foldl_cons, ih]
        by_cases zero : waiting.get v = 0 <;> simp [zero]
  have loop := Table.foldlM_eq_some (i := Fin.val) (t := (List.map Fin.val : List (Fin n) → _))
    (f := fun free v => do return if (← waiting.table[v]?) = 0 then free ++ [v] else free)
    (g := fun free v => if waiting.get v = 0 then free ++ [v] else free)
    (fun free v => by by_cases zero : waiting.get v = 0 <;> simp [zero]) vs []
  rw [kept] at loop
  exact loop

/-- Each vertex waits for a predecessor or is in the queue at the beginning. -/
theorem blocked_add_length (waiting : Waiting n) :
    waiting.blocked + ((List.finRange n).filter fun v => waiting.get v == 0).length = n := by
  have all := List.length_eq_length_filter_add (l := List.finRange n) (0 < waiting.get ·)
  rw [List.length_finRange] at all
  have free : (fun v => waiting.get v == 0) = fun v => !decide (0 < waiting.get v) := by
    funext v
    by_cases zero : waiting.get v = 0 <;> simp [zero, Nat.pos_iff_ne_zero]
  rw [Waiting.blocked, weigh_one, free]
  exact all.symm

/-- A topological order is found without a failing access, and no count is taken below zero. -/
theorem topologicalOrder?_eq (d : Digraph n) :
    Table.topologicalOrder? (d.lists .along) (d.lists .against) =
      some (d.topologicalOrder?.map (·.map Fin.val)) := by
  let waiting : Waiting n := .ofFn fun v => (d.neighbors .against v).length
  have counts : (d.lists .against).map List.length = waiting.table := by
    refine VertexMap.table_ext _ (by simp) fun v => ?_
    simp [waiting]
  have vertices : List.range n = (List.finRange n).map Fin.val := by simp
  have order : Table.drain? (d.lists .along) n waiting.table
      (((List.finRange n).filter fun v => waiting.get v == 0).map Fin.val) =
        some (d.peeled.map Fin.val) :=
    drain?_eq d.peeling_start (Nat.le_of_eq (blocked_add_length waiting))
  unfold Table.topologicalOrder? Digraph.topologicalOrder?
  dsimp only
  rw [counts, Digraph.size_lists, vertices, unblocked?_eq, Option.bind_eq_bind, Option.bind_some,
    order, Option.bind_some, List.length_map]
  split <;> rfl

/-! ## Nothing fails: what is reached -/

theorem settle?_eq (d : Digraph n) (reach : Reach n) (u : Fin n) :
    Table.settle? (d.lists .along) reach.table u.val =
      some (Reach.settle (d.neighbors .along) reach u).table := by
  have through := Table.foldlM_eq_some (i := Fin.val) (t := (id : VertexSet n → _))
    (f := fun s w => do return (Table.mark s w).union (← reach.table[w]?)) (g := reach.through)
    (fun s w => by simp [Reach.through, Table.mark, VertexSet.insert]) (d.neighbors .along u) ∅
  dsimp only [id] at through
  unfold Table.settle? Reach.settle
  simp only [Digraph.getElem?_lists, Option.bind_eq_bind, Option.bind_some]
  simp only [Option.bind_eq_bind] at through
  rw [through, Option.bind_some, VertexMap.write?_table]

theorem reachOf?_eq (d : Digraph n) (order : List (Fin n)) :
    Table.reachOf? n (d.lists .along) (order.map Fin.val) = some (d.reachOf order).table := by
  rw [Table.reachOf?, ← List.map_reverse, ← VertexMap.table_const]
  exact Table.foldlM_eq_some (settle?_eq d) _ _

/-! ## Nothing fails: routes -/

/-- The tables that stand for some routes. -/
def Routes.tables (routes : Routes n) : Table.Milestones :=
  ((routes.map (·.map Milestone.distance)).table,
    (routes.map fun found => (found.bind Milestone.previous).map Fin.val).table)

theorem offer?_eq (extent : Extent) (distance : Nat) (u : Fin n) (routes : Routes n) (w : Fin n) :
    Table.offer? extent distance u.val routes.tables w.val =
      some (Routes.tables (Routes.offer extent ⟨distance, some u⟩ routes w)) := by
  unfold Table.offer? Routes.offer
  cases known : routes.get w with
  | none => simp [Routes.tables, VertexMap.map_set, known]
  | some found =>
      by_cases better : extent.improves distance found.distance = true
      · simp [Routes.tables, VertexMap.map_set, known, better]
      · simp [Routes.tables, known, better]

theorem extend?_eq (d : Digraph n) (way : Way) (extent : Extent) (routes : Routes n) (u : Fin n) :
    Table.extend? (d.lists way) extent routes.tables u.val =
      some (Routes.tables (Routes.extend (d.neighbors way) extent routes u)) := by
  unfold Table.extend? Routes.extend
  cases known : routes.get u with
  | none => simp [Routes.tables, known]
  | some found =>
      have offers := Table.foldlM_eq_some (i := Fin.val) (t := Routes.tables)
        (offer?_eq extent (found.distance + 1) u) (d.neighbors way u) routes
      simpa [Routes.tables, known] using offers

/-- Routes are found without a failing access. -/
theorem routes?_eq (d : Digraph n) (way : Way) (extent : Extent) (start : Fin n)
    (order : List (Fin n)) :
    Table.routes? (d.lists way) extent start.val (order.map Fin.val) =
      some (Routes.tables (order.foldl (Routes.extend (d.neighbors way) extent)
        (Routes.init start))) := by
  have init : Table.write? (Array.replicate n none) start.val (some 0) =
      some (Routes.tables (Routes.init start)).1 ∧
      Array.replicate n none = (Routes.tables (Routes.init start)).2 := by
    rw [← VertexMap.table_const, VertexMap.write?_table]
    simp [Routes.tables, Routes.init, VertexMap.map_set, VertexMap.map_const,
      VertexMap.set_const]
  unfold Table.routes?
  dsimp only
  rw [Digraph.size_lists, init.1, Option.bind_eq_bind, Option.bind_some, init.2]
  exact Table.foldlM_eq_some (extend?_eq d way extent) order _

/-- The way back from any vertex ends, without a failing access. -/
theorem back?_eq {next : Fin n → List (Fin n)} {extent : Extent} {start : Fin n} {routes : Routes n}
    (settled : Settling next extent start [] routes) {steps : Nat} {v : Fin n}
    (enough : ∀ d, routes.distance? v = some d → d ≤ steps) :
    Table.back? routes.tables.2 steps v.val = some ((routes.back steps v).map Fin.val) := by
  have read : ∀ w : Fin n, (Routes.tables routes).2[w.val]? =
      some ((routes.previous? w).map Fin.val) := fun w => by
    simp [Routes.tables, Routes.previous?]
  induction steps generalizing v with
  | zero =>
      have first : routes.previous? v = none := by
        rw [Option.eq_none_iff_forall_ne_some]
        intro u back
        obtain ⟨-, e, -, there⟩ := settled.of_previous? back
        exact Nat.not_succ_le_zero e (enough (e + 1) there)
      rw [Table.back?, read, first]
      rfl
  | succ steps ih =>
      rw [Table.back?, read, Routes.back]
      cases back : routes.previous? v with
      | none => rfl
      | some u =>
          obtain ⟨-, e, before, there⟩ := settled.of_previous? back
          have left := enough (e + 1) there
          have rest := @ih u fun e' known => by
            obtain rfl := Option.some.inj (before.symm.trans known)
            omega
          simp [rest]

end Provenance
