import Mathlib.Data.Fintype.EquivFin
import Mathlib.Data.List.FinRange
import Mathlib.Logic.Relation
import Provenance.Digraph.TopologicalOrder

/-! # Topological orders

A vertex gets into the queue once all of its predecessors have been listed. What never gets into it
has a predecessor that never does, so nothing is left of a digraph without cycles.
-/

namespace Provenance

variable {n : Nat}

/-! ## Counting predecessors -/

namespace Neighbors

theorem get_put (u : Fin n) (ws : List (Fin n)) (lists : Neighbors n) (v : Fin n) :
    (ws.foldl (put u) lists).get v = List.replicate (ws.count v) u ++ lists.get v := by
  induction ws generalizing lists with
  | nil => rfl
  | cons w ws ih =>
      rw [List.foldl_cons, ih, put, VertexMap.get_set, List.count_cons]
      by_cases same : w = v
      · subst same
        simp [List.replicate_add]
      · simp [same]

/-- A vertex is listed for a predecessor as often as it is one for a successor. -/
theorem get_transpose (succ : Neighbors n) (v : Fin n) :
    succ.transpose.get v =
      (List.finRange n).flatMap fun u => List.replicate ((succ.get u).count v) u := by
  unfold transpose
  induction List.finRange n with
  | nil => simp
  | cons u us ih => rw [List.foldr_cons, get_put, ih, List.flatMap_cons]

/-- A vertex has as many predecessors as it is listed for a successor. -/
theorem length_transpose (succ : Neighbors n) (v : Fin n) :
    (succ.transpose.get v).length = ((List.finRange n).flatMap succ.get).count v := by
  simp [get_transpose, List.length_flatMap, List.count_flatMap, Function.comp_def]

end Neighbors

/-! ## Releasing -/

namespace Waiting

theorem get_release (waiting : Waiting n) (ws : List (Fin n)) (v : Fin n) :
    (waiting.release ws).2.get v = waiting.get v - ws.count v := by
  induction ws generalizing waiting with
  | nil => rfl
  | cons w ws ih =>
      rw [release, ih, VertexMap.get_set, List.count_cons]
      by_cases same : w = v
      · subst same
        simp
        omega
      · simp [same]

theorem mem_release {waiting : Waiting n} {ws : List (Fin n)} {v : Fin n} :
    v ∈ (waiting.release ws).1 ↔ 0 < waiting.get v ∧ waiting.get v ≤ ws.count v := by
  induction ws generalizing waiting with
  | nil =>
      simp only [release, List.not_mem_nil, List.count_nil, false_iff]
      omega
  | cons w ws ih =>
      have later := @ih (waiting.set w (waiting.get w - 1))
      rw [VertexMap.get_set] at later
      rw [List.count_cons]
      by_cases same : w = v
      · subst same
        by_cases one : waiting.get w = 1
        · simp [release, one]
        · simp only [release, one, if_false, later]
          simp
          omega
      · have other : v ≠ w := Ne.symm same
        rw [if_neg same] at later
        by_cases one : waiting.get w = 1
        · simp only [one, Nat.sub_self] at later
          simp [release, one, other, same, later]
        · simp [release, one, same, later]

theorem nodup_release (waiting : Waiting n) (ws : List (Fin n)) :
    (waiting.release ws).1.Nodup := by
  induction ws generalizing waiting with
  | nil => exact List.nodup_nil
  | cons w ws ih =>
      by_cases one : waiting.get w = 1
      · have used : w ∉ (release (waiting.set w (waiting.get w - 1)) ws).1 := by
          simp [mem_release, one]
        simpa [release, one] using ⟨by simpa [one] using used, ih (waiting.set w 0)⟩
      · simpa [release, one] using ih (waiting.set w (waiting.get w - 1))

/-- Releasing one list after another is releasing both in one go. -/
theorem release_append (waiting : Waiting n) (ws ws' : List (Fin n)) :
    waiting.release (ws ++ ws') =
      ((waiting.release ws).1 ++ ((waiting.release ws).2.release ws').1,
        ((waiting.release ws).2.release ws').2) := by
  induction ws generalizing waiting with
  | nil => rfl
  | cons w ws ih =>
      simp only [List.cons_append, release, ih]
      split <;> rfl

end Waiting

/-! ## The queue -/

/-- A stage of the loop. The vertices in `gone` have been listed and those of the queue are next; a
vertex still waits for its predecessors outside `gone`. -/
structure Peeling (next : Fin n → List (Fin n)) (waiting : Waiting n)
    (gone queue : List (Fin n)) : Prop where
  nodup : (gone ++ queue).Nodup
  waits : ∀ v, waiting.get v + (gone.flatMap next).count v =
    ((List.finRange n).flatMap next).count v
  free : ∀ v, waiting.get v = 0 ↔ v ∈ gone ++ queue
  ordered : (gone ++ queue).Pairwise fun a b => a ∉ next b
  loopless : ∀ a ∈ gone ++ queue, a ∉ next a

namespace Peeling

variable {next : Fin n → List (Fin n)} {waiting : Waiting n} {gone queue front back : List (Fin n)}

/-- All vertices, with some of them put first. -/
theorem perm_rest {vs : List (Fin n)} (nodup : vs.Nodup) :
    List.Perm (List.finRange n) (vs ++ (List.finRange n).filter (· ∉ vs)) := by
  refine (List.perm_ext_iff_of_nodup (List.nodup_finRange n) ?_).mpr fun u => ?_
  · refine List.nodup_append.mpr ⟨nodup, (List.nodup_finRange n).filter _, ?_⟩
    rintro u listed w others rfl
    simp [listed] at others
  · simp [em]

/-- Distinct vertices have no more successors than all vertices together. -/
theorem count_add (next : Fin n → List (Fin n)) {vs : List (Fin n)} (nodup : vs.Nodup)
    (v : Fin n) :
    (vs.flatMap next).count v + (((List.finRange n).filter (· ∉ vs)).flatMap next).count v =
      ((List.finRange n).flatMap next).count v := by
  rw [((perm_rest nodup).flatMap_right next).count_eq, List.flatMap_append, List.count_append]

/-- A vertex waits for nothing once all its predecessors are gone. -/
theorem free_iff {waiting : Waiting n} {gone : List (Fin n)} (nodup : gone.Nodup) {v : Fin n}
    (waits : waiting.get v + (gone.flatMap next).count v =
      ((List.finRange n).flatMap next).count v) :
    waiting.get v = 0 ↔ ∀ u, v ∈ next u → u ∈ gone := by
  constructor
  · intro free u edge
    by_contra left
    have more := count_add next (List.nodup_cons.mpr ⟨left, nodup⟩) v
    have here := List.count_pos_iff.mpr edge
    rw [List.flatMap_cons, List.count_append] at more
    omega
  · intro all
    have others := count_add next nodup v
    have none_left : (((List.finRange n).filter (· ∉ gone)).flatMap next).count v = 0 := by
      rw [List.count_eq_zero, List.mem_flatMap]
      rintro ⟨u, left, edge⟩
      simp [all u edge] at left
    omega

/-- A vertex waits for all those in the queue that lead to it. -/
theorem enough (peeling : Peeling next waiting gone (front ++ back)) (v : Fin n) :
    (front.flatMap next).count v ≤ waiting.get v := by
  have nodup : (gone ++ front).Nodup := peeling.nodup.sublist (by simp)
  have all := count_add next nodup v
  have waits := peeling.waits v
  rw [List.flatMap_append, List.count_append] at all
  omega

/-- The stage after the vertices at the front of the queue have been listed. -/
theorem take (peeling : Peeling next waiting gone (front ++ back)) :
    Peeling next (waiting.release (front.flatMap next)).2 (gone ++ front)
      (back ++ (waiting.release (front.flatMap next)).1) := by
  have regroup : gone ++ front ++ (back ++ (waiting.release (front.flatMap next)).1) =
      gone ++ (front ++ back) ++ (waiting.release (front.flatMap next)).1 := by simp
  have waits : ∀ v, (waiting.release (front.flatMap next)).2.get v +
      ((gone ++ front).flatMap next).count v = ((List.finRange n).flatMap next).count v := by
    intro v
    have before := peeling.waits v
    have some_left := peeling.enough v
    rw [Waiting.get_release, List.flatMap_append, List.count_append]
    omega
  have fresh : ∀ v ∈ (waiting.release (front.flatMap next)).1, v ∉ gone ++ (front ++ back) := by
    intro v freed listed
    have free := (peeling.free v).mpr listed
    have waited := (Waiting.mem_release.mp freed).1
    omega
  have free : ∀ v, (waiting.release (front.flatMap next)).2.get v = 0 ↔
      v ∈ gone ++ (front ++ back) ++ (waiting.release (front.flatMap next)).1 := by
    intro v
    have before := peeling.free v
    rw [List.mem_append, ← before, Waiting.mem_release, Waiting.get_release]
    omega
  have nodup : (gone ++ (front ++ back) ++ (waiting.release (front.flatMap next)).1).Nodup := by
    refine List.nodup_append.mpr ⟨peeling.nodup, Waiting.nodup_release _ _, ?_⟩
    rintro v listed w freed rfl
    exact fresh v freed listed
  -- nothing that is free has a predecessor that is freed only now
  have behind : ∀ v ∈ gone ++ (front ++ back) ++ (waiting.release (front.flatMap next)).1,
      ∀ u, v ∈ next u → u ∈ gone ++ (front ++ back) := by
    intro v listed u edge
    have early := (free_iff (peeling.nodup.sublist (by simp)) (waits v)).mp ((free v).mpr listed)
    exact (List.append_assoc gone front back) ▸ List.mem_append_left back (early u edge)
  rw [← regroup] at free nodup
  refine ⟨nodup, waits, free, ?_, ?_⟩
  · rw [regroup]
    refine List.pairwise_append.mpr ⟨peeling.ordered, ?_, fun a listed b freed edge => ?_⟩
    · refine List.pairwise_of_forall_mem_list fun a ha b hb edge => ?_
      exact fresh b hb (behind a (List.mem_append_right _ ha) b edge)
    · exact fresh b freed (behind a (List.mem_append_left _ listed) b edge)
  · rw [regroup]
    intro a listed edge
    rcases List.mem_append.mp listed with old | freed
    · exact peeling.loopless a old edge
    · exact fresh a freed (behind a listed a edge)

/-- What one turn of the loop keeps. -/
theorem step {u : Fin n} (peeling : Peeling next waiting gone (u :: queue)) :
    Peeling next (waiting.release (next u)).2 (gone ++ [u])
      (queue ++ (waiting.release (next u)).1) := by
  have alone : ([u] : List (Fin n)).flatMap next = next u := List.flatMap_singleton next u
  have taken : Peeling next waiting gone ([u] ++ queue) := peeling
  exact alone ▸ taken.take

theorem exhaust (peeling : Peeling next waiting gone queue) :
    ∃ waiting', Peeling next waiting' (gone ++ waiting.drain next queue) [] := by
  fun_induction Waiting.drain next waiting queue generalizing gone with
  | case1 waiting => exact ⟨waiting, by simpa using peeling⟩
  | case2 waiting u queue ih =>
      obtain ⟨waiting', done⟩ := ih peeling.step
      exact ⟨waiting', by simpa using done⟩

end Peeling

/-! ## The order -/

namespace Digraph

def Edge (d : Digraph n) (u w : Fin n) : Prop := w ∈ d.neighbors .along u

/-- A list of all vertices in which every edge points ahead. -/
structure Topological (d : Digraph n) (order : List (Fin n)) : Prop where
  nodup : order.Nodup
  complete : ∀ v, v ∈ order
  ordered : order.Pairwise fun a b => ¬ d.Edge b a
  loopless : ∀ v, ¬ d.Edge v v

/-- In the beginning a vertex waits for each of its predecessors. -/
theorem peeling_start (d : Digraph n) :
    let waiting : Waiting n := .ofFn fun v => (d.neighbors .against v).length
    Peeling (d.neighbors .along) waiting []
      ((List.finRange n).filter fun v => waiting.get v == 0) := by
  intro waiting
  have counted : ∀ v, waiting.get v = ((List.finRange n).flatMap (d.neighbors .along)).count v := by
    intro v
    rw [VertexMap.get_ofFn]
    simp only [neighbors, d.pred_eq]
    exact Neighbors.length_transpose d.succ v
  have ready : ∀ v ∈ (List.finRange n).filter (fun v => waiting.get v == 0),
      ∀ u, v ∉ d.neighbors .along u := by
    intro v free u edge
    have none_in : waiting.get v = 0 := by simpa using (List.mem_filter.mp free).2
    rw [counted, List.count_eq_zero, List.mem_flatMap] at none_in
    exact none_in ⟨u, List.mem_finRange u, edge⟩
  refine ⟨?_, ?_, ?_, ?_, ?_⟩
  · exact (List.nodup_finRange n).filter _
  · intro v
    simp [counted]
  · intro v
    simp
  · exact List.pairwise_of_forall_mem_list fun a ha b _ => ready a ha b
  · exact fun a ha => ready a ha a

theorem peeled_done (d : Digraph n) :
    ∃ waiting, Peeling (d.neighbors .along) waiting (d.peeled) [] :=
  d.peeling_start.exhaust

theorem topologicalOrder?_eq_some {d : Digraph n} {order : List (Fin n)}
    (found : d.topologicalOrder? = some order) : d.Topological order := by
  obtain ⟨waiting, done⟩ := d.peeled_done
  unfold topologicalOrder? at found
  dsimp only at found
  split at found
  next all =>
    obtain rfl := Option.some.inj found
    have nodup : (d.peeled).Nodup := by simpa using done.nodup
    have perm : List.Perm (d.peeled) (List.finRange n) := by
      refine (List.subperm_of_subset nodup fun v _ => List.mem_finRange v).perm_of_length_le ?_
      rw [all, List.length_finRange]
    have complete : ∀ v, v ∈ d.peeled := fun v => perm.mem_iff.mpr (List.mem_finRange v)
    exact {
      nodup := nodup
      complete := complete
      ordered := (List.append_nil (d.peeled)) ▸ done.ordered
      loopless := fun v => done.loopless v (by simpa using complete v) }
  next => cases found

/-- An edge leads to a later place in the order. -/
theorem Topological.idxOf_lt {d : Digraph n} {order : List (Fin n)}
    (topological : d.Topological order) {u w : Fin n} (edge : d.Edge u w) :
    order.idxOf u < order.idxOf w := by
  have hu := List.idxOf_lt_length_of_mem (topological.complete u)
  have hw := List.idxOf_lt_length_of_mem (topological.complete w)
  by_contra behind
  rcases Nat.lt_or_eq_of_le (Nat.le_of_not_lt behind) with before | same
  · have no_edge := List.pairwise_iff_getElem.mp topological.ordered _ _ hw hu before
    rw [List.getElem_idxOf, List.getElem_idxOf] at no_edge
    exact no_edge edge
  · obtain rfl := (List.idxOf_inj (topological.complete w)).mp same
    exact topological.loopless _ edge

theorem Topological.idxOf_lt_of_chain {d : Digraph n} {order : List (Fin n)}
    (topological : d.Topological order) {u w : Fin n} (chain : Relation.TransGen d.Edge u w) :
    order.idxOf u < order.idxOf w := by
  induction chain with
  | single edge => exact topological.idxOf_lt edge
  | tail _ edge ih => exact Nat.lt_trans ih (topological.idxOf_lt edge)

theorem Topological.acyclic {d : Digraph n} {order : List (Fin n)}
    (topological : d.Topological order) (v : Fin n) : ¬ Relation.TransGen d.Edge v v :=
  fun cycle => Nat.lt_irrefl _ (topological.idxOf_lt_of_chain cycle)

/-- Where a chain starts is listed before where it ends. -/
theorem Topological.sublist_of_chain {d : Digraph n} {order : List (Fin n)}
    (topological : d.Topological order) {u w : Fin n} (chain : Relation.TransGen d.Edge u w) :
    [u, w].Sublist order := by
  have inside := List.idxOf_lt_length_of_mem (topological.complete w)
  have before : u ∈ order.take (order.idxOf w) :=
    (List.mem_take_iff_idxOf_lt (topological.complete u)).mpr (topological.idxOf_lt_of_chain chain)
  have after : w ∈ order.drop (order.idxOf w) := by
    rw [List.drop_eq_getElem_cons inside, List.getElem_idxOf]
    exact List.mem_cons_self
  have both : ([u] ++ [w]).Sublist (order.take (order.idxOf w) ++ order.drop (order.idxOf w)) :=
    (List.singleton_sublist.mpr before).append (List.singleton_sublist.mpr after)
  rwa [List.take_append_drop] at both

/-- Without cycles there is no endless way back. -/
theorem wellFounded_of_acyclic {d : Digraph n} (acyclic : ∀ v, ¬ Relation.TransGen d.Edge v v) :
    WellFounded (Relation.TransGen d.Edge) := by
  have : IsTrans (Fin n) (Relation.TransGen d.Edge) := ⟨fun _ _ _ => Relation.TransGen.trans⟩
  have : Std.Irrefl (Relation.TransGen d.Edge) := ⟨acyclic⟩
  exact Finite.wellFounded_of_trans_of_irrefl _

/-- There is a topological order exactly if there is no cycle. -/
theorem topologicalOrder?_isSome_iff {d : Digraph n} :
    d.topologicalOrder?.isSome ↔ ∀ v, ¬ Relation.TransGen d.Edge v v := by
  constructor
  · intro found
    obtain ⟨order, found⟩ := Option.isSome_iff_exists.mp found
    exact (topologicalOrder?_eq_some found).acyclic
  · intro acyclic
    obtain ⟨waiting, done⟩ := d.peeled_done
    have complete : ∀ v, v ∈ d.peeled := by
      intro v
      induction v using (wellFounded_of_acyclic acyclic).induction with
      | _ v ih =>
          have free := (Peeling.free_iff (by simpa using done.nodup) (done.waits v)).mpr
            fun u edge => ih u (.single edge)
          simpa using (done.free v).mp free
    have nodup : (d.peeled).Nodup := by simpa using done.nodup
    have all : (d.peeled).length = n := by
      have perm : List.Perm (d.peeled) (List.finRange n) :=
        (List.perm_ext_iff_of_nodup nodup (List.nodup_finRange n)).mpr fun v =>
          iff_of_true (complete v) (List.mem_finRange v)
      rw [perm.length_eq, List.length_finRange]
    simp [topologicalOrder?, all]

end Digraph

end Provenance
