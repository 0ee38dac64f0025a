import Provenance.Digraph.Reach
import Provenance.Proofs.Digraph.TopologicalOrder

/-! # Reach

Taken from the last vertex of a topological order on, the union over the successors is the set of
vertices that can be reached. An edge that a chain implies adds nothing to it.
-/

open Relation (TransGen)

namespace Provenance

variable {n : Nat}

/-! ## The sets -/

namespace Reach

theorem mem_through {reach : Reach n} {ws : List (Fin n)} {s : VertexSet n} {x : Fin n} :
    x ∈ ws.foldl reach.through s ↔ x ∈ s ∨ ∃ w ∈ ws, x = w ∨ x ∈ reach.get w := by
  induction ws generalizing s with
  | nil => simp
  | cons w ws ih =>
      rw [List.foldl_cons, ih, through, VertexSet.mem_union, VertexSet.mem_insert]
      simp only [List.mem_cons, exists_eq_or_imp]
      grind

theorem mem_pairs {reach : Reach n} {u w : Fin n} :
    (u, w) ∈ reach.pairs ↔ w ∈ reach.get u := by
  simp [pairs, List.mem_flatMap, List.mem_finRange]

/-- The pairs are listed by their first vertex, then by their second. -/
theorem sorted_pairs (reach : Reach n) :
    reach.pairs.Pairwise fun p q => p.1 < q.1 ∨ p.1 = q.1 ∧ p.2 < q.2 := by
  have increasing : (List.finRange n).Pairwise (· < ·) := List.pairwise_lt_finRange n
  refine List.pairwise_flatMap.mpr ⟨fun u _ => ?_, increasing.imp fun {u v} lt => ?_⟩
  · refine List.pairwise_map.mpr ((increasing.filter _).imp fun lt => ?_)
    exact .inr ⟨rfl, lt⟩
  · intro p first q second
    obtain ⟨w, -, rfl⟩ := List.mem_map.mp first
    obtain ⟨x, -, rfl⟩ := List.mem_map.mp second
    exact .inl lt

theorem nodup_pairs (reach : Reach n) : reach.pairs.Nodup := by
  refine reach.sorted_pairs.imp ?_
  rintro p _ (less | ⟨-, less⟩) rfl
  · exact Nat.lt_irrefl _ less
  · exact Nat.lt_irrefl _ less

end Reach

namespace Digraph

/-- Whoever reaches a vertex starts with an edge. -/
theorem transGen_iff_first {d : Digraph n} {u x : Fin n} :
    TransGen d.Edge u x ↔ ∃ w, d.Edge u w ∧ (x = w ∨ TransGen d.Edge w x) := by
  rw [TransGen.head'_iff]
  exact exists_congr fun w => and_congr_right fun _ => Relation.reflTransGen_iff_eq_or_transGen

/-- The sets are right for a final part of the order once that part has been settled. -/
theorem mem_settled {d : Digraph n} {order : List (Fin n)} (nodup : order.Nodup)
    (ahead : ∀ before u rest, order = before ++ u :: rest → ∀ w, d.Edge u w → w ∈ rest)
    {u : Fin n} (listed : u ∈ order) (x : Fin n) :
    x ∈ (d.reachOf order).get u ↔ TransGen d.Edge u x := by
  induction order generalizing u with
  | nil => cases listed
  | cons v rest ih =>
      have settled : d.reachOf (v :: rest) =
          Reach.settle (d.neighbors .along) (d.reachOf rest) v := by
        simp [reachOf]
      have ih := @ih (List.nodup_cons.mp nodup).2 fun before u tail split =>
        ahead (v :: before) u tail (by rw [split]; rfl)
      rw [settled, Reach.settle, VertexMap.get_set]
      rcases List.mem_cons.mp listed with rfl | later
      · have next := ahead [] u rest rfl
        rw [if_pos rfl, Reach.mem_through, transGen_iff_first]
        simp only [VertexSet.not_mem_empty, false_or]
        refine exists_congr fun w => and_congr_right fun edge => ?_
        rw [ih (next w edge)]
      · have other : v ≠ u := fun same => (List.nodup_cons.mp nodup).1 (same ▸ later)
        rw [if_neg other]
        exact ih later

theorem Topological.ahead {d : Digraph n} {order : List (Fin n)}
    (topological : d.Topological order) (before : List (Fin n)) (u : Fin n) (rest : List (Fin n))
    (split : order = before ++ u :: rest) (w : Fin n) (edge : d.Edge u w) : w ∈ rest := by
  have listed := topological.complete w
  have ordered := topological.ordered
  rw [split] at listed ordered
  rcases List.mem_append.mp listed with earlier | later
  · have no_edge := (List.pairwise_append.mp ordered).2.2 w earlier u List.mem_cons_self
    exact absurd edge no_edge
  · rcases List.mem_cons.mp later with rfl | later
    · exact absurd edge (topological.loopless w)
    · exact later

theorem reach?_eq_some {d : Digraph n} {reach : Reach n} (found : d.reach? = some reach)
    (u w : Fin n) : w ∈ reach.get u ↔ TransGen d.Edge u w := by
  obtain ⟨order, ordered, rfl⟩ := Option.map_eq_some_iff.mp found
  have topological := topologicalOrder?_eq_some ordered
  exact mem_settled topological.nodup topological.ahead (topological.complete u) w

theorem reach?_isSome_iff {d : Digraph n} :
    d.reach?.isSome ↔ ∀ v, ¬ TransGen d.Edge v v := by
  rw [reach?, Option.isSome_map, topologicalOrder?_isSome_iff]

/-! ## Implied edges -/

theorem implied_iff {d : Digraph n} {reach : Reach n} (found : d.reach? = some reach)
    {u w : Fin n} :
    d.implied reach u w = true ↔ ∃ v, d.Edge u v ∧ v ≠ w ∧ TransGen d.Edge v w := by
  simp only [implied, List.any_eq_true, Bool.and_eq_true, bne_iff_ne, decide_eq_true_eq,
    reach?_eq_some found]
  rfl

/-- Without the implied edges a vertex reaches what it did before. -/
theorem transGen_kept {d : Digraph n} {reach : Reach n} (found : d.reach? = some reach)
    {u w : Fin n} :
    TransGen (fun u w => d.Edge u w ∧ d.implied reach u w = false) u w ↔ TransGen d.Edge u w := by
  have acyclic := reach?_isSome_iff.mp (Option.isSome_of_eq_some found)
  have back : WellFounded (flip (TransGen d.Edge)) := by
    have : IsTrans (Fin n) (flip (TransGen d.Edge)) := ⟨fun _ _ _ ab bc => bc.trans ab⟩
    have : Std.Irrefl (flip (TransGen d.Edge)) := ⟨acyclic⟩
    exact Finite.wellFounded_of_trans_of_irrefl _
  -- the first vertex of an edge moves ahead, and for one first vertex the second moves back
  have kept : ∀ u w, d.Edge u w →
      TransGen (fun u w => d.Edge u w ∧ d.implied reach u w = false) u w := by
    intro u
    induction u using back.induction with
    | _ u outer =>
        intro w
        induction w using (wellFounded_of_acyclic acyclic).induction with
        | _ w inner =>
            intro edge
            cases chain : d.implied reach u w with
            | false => exact .single ⟨edge, chain⟩
            | true =>
                obtain ⟨v, first, -, rest⟩ := (implied_iff found).mp chain
                have rest_kept : ∀ x, TransGen d.Edge v x →
                    TransGen (fun u w => d.Edge u w ∧ d.implied reach u w = false) v x := by
                  intro x way
                  induction way with
                  | single edge => exact outer v (.single first) _ edge
                  | tail way edge ih => exact ih.trans (outer _ (.head first way) _ edge)
                exact (inner v rest first).trans (rest_kept w rest)
  constructor
  · exact fun way => way.lift id fun _ _ edge => edge.1
  · intro way
    induction way with
    | single edge => exact kept _ _ edge
    | tail _ edge ih => exact ih.trans (kept _ _ edge)

end Digraph

end Provenance
