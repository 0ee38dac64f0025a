import Mathlib.Data.List.Sort
import Provenance.Proofs.Digraph.StrongGroups

/-! # Cyclic groups

A group with a cycle has a second vertex or an edge from its only vertex to itself. Once each group
is sorted, and the groups by their first vertices, nothing is left of the order in which the walk
has found them, and it does not matter which way the edges point.
-/

open Relation (TransGen ReflTransGen)

namespace Provenance.Digraph

variable {n : Nat} {d : Digraph n} {group : List (Fin n)} {u v w : Fin n}

open Classical in
/-- A vertex and all that it belongs to, in increasing order. -/
noncomputable def mutuals (d : Digraph n) (v : Fin n) : List (Fin n) :=
  (List.finRange n).filter (d.Mutual v)

theorem mem_mutuals : w ∈ d.mutuals v ↔ d.Mutual v w := by
  simp [mutuals, List.mem_finRange]

theorem self_mem_mutuals (d : Digraph n) (v : Fin n) : v ∈ d.mutuals v :=
  mem_mutuals.mpr ⟨.refl, .refl⟩

theorem nodup_mutuals (d : Digraph n) (v : Fin n) : (d.mutuals v).Nodup :=
  (List.nodup_finRange n).filter _

theorem pairwise_mutuals (d : Digraph n) (v : Fin n) : (d.mutuals v).Pairwise (· ≤ ·) :=
  ((List.pairwise_lt_finRange n).filter _).imp Nat.le_of_lt

theorem mutuals_eq (mutual_ : d.Mutual v w) : d.mutuals v = d.mutuals w := by
  unfold mutuals
  congr 1
  funext x
  rw [decide_eq_decide]
  exact ⟨fun here => mutual_.symm.trans here, fun here => mutual_.trans here⟩

/-- What belongs to a vertex on a cycle is on a cycle as well. -/
theorem Mutual.cycle (mutual_ : d.Mutual v w) (cycle : TransGen d.Edge v v) :
    TransGen d.Edge w w :=
  (cycle.trans_left mutual_.1).trans_right mutual_.2

/-! ## One group -/

theorem Knot.mem_iff_of_mem (knot : d.Knot group) (listed : v ∈ group) :
    w ∈ group ↔ d.Mutual v w := by
  obtain ⟨u, member⟩ := knot.mem_iff
  have here := (member v).mp listed
  exact (member w).trans ⟨here.symm.trans, here.trans⟩

theorem Knot.perm_mutuals (knot : d.Knot group) (listed : v ∈ group) :
    List.Perm group (d.mutuals v) :=
  (List.perm_ext_iff_of_nodup knot.nodup (d.nodup_mutuals v)).mpr fun _ =>
    (knot.mem_iff_of_mem listed).trans mem_mutuals.symm

theorem Knot.mergeSort_eq (knot : d.Knot group) (listed : v ∈ group) :
    (group.mergeSort fun v w => v ≤ w) = d.mutuals v := by
  have sorted := List.pairwise_mergeSort' (· ≤ · : Fin n → Fin n → Prop) group
  exact List.Perm.eq_of_pairwise' sorted (d.pairwise_mutuals v)
    ((List.mergeSort_perm group _).trans (knot.perm_mutuals listed))

/-- The vertices of a group are on a cycle if there is more than one. -/
theorem Knot.cycle_of_length (knot : d.Knot group) (more : 1 < group.length)
    (listed : v ∈ group) : TransGen d.Edge v v := by
  obtain ⟨w, member, other⟩ : ∃ w ∈ group, w ≠ v := by
    by_contra alone
    push Not at alone
    have short : group.length ≤ [v].length :=
      knot.nodup.length_le_of_subset fun w member => List.mem_singleton.mpr (alone w member)
    exact Nat.not_lt.mpr short more
  obtain ⟨forth, back⟩ := (knot.mem_iff_of_mem listed).mp member
  exact ((Relation.reflTransGen_iff_eq_or_transGen.mp forth).resolve_left other).trans_left back

/-- The only vertex of a group is on a cycle if it has an edge to itself. -/
theorem Knot.edge_of_cycle (knot : d.Knot [v]) (cycle : TransGen d.Edge v v) : d.Edge v v := by
  obtain ⟨x, edge, rest⟩ := TransGen.head'_iff.mp cycle
  have here : x ∈ [v] := (knot.mem_iff_of_mem List.mem_cons_self).mpr ⟨.single edge, rest⟩
  exact List.mem_singleton.mp here ▸ edge

open Classical in
theorem Knot.cycle?_eq (knot : d.Knot group) (listed : v ∈ group) :
    d.cycle? group = if TransGen d.Edge v v then some (d.mutuals v) else none := by
  have sorted := knot.mergeSort_eq listed
  unfold cycle?
  by_cases more : 1 < group.length
  · rw [if_pos more, if_pos (knot.cycle_of_length more listed), sorted]
  obtain ⟨u, rfl⟩ : ∃ u, group = [u] := by
    refine List.length_eq_one_iff.mp ?_
    have some_in := List.length_pos_of_mem listed
    omega
  obtain rfl := List.mem_singleton.mp listed
  have loop_iff : (d.neighbors .along v).contains v = true ↔ TransGen d.Edge v v :=
    List.contains_iff_mem.trans ⟨fun edge => .single edge, knot.edge_of_cycle⟩
  rw [List.mergeSort_singleton] at sorted
  rw [if_neg more, List.head?_cons, Option.any_some, ← sorted]
  exact if_congr loop_iff rfl rfl

theorem mem_of_cycle? {cycle : List (Fin n)} (found : d.cycle? group = some cycle) :
    w ∈ cycle ↔ w ∈ group := by
  unfold cycle? at found
  split at found
  · rw [← Option.some.inj found, List.mem_mergeSort]
  · split at found
    · rw [Option.some.inj found]
    · cases found

/-! ## All groups -/

theorem mem_cyclicGroups :
    group ∈ d.cyclicGroups ↔ ∃ v, TransGen d.Edge v v ∧ group = d.mutuals v := by
  obtain ⟨knots, -, all⟩ := d.strongGroups_spec
  rw [cyclicGroups, List.mem_mergeSort, List.mem_filterMap]
  constructor
  · intro ⟨found, listed, made⟩
    have knot := knots found listed
    obtain ⟨v, member⟩ := knot.mem_iff
    rw [knot.cycle?_eq ((member v).mpr ⟨.refl, .refl⟩)] at made
    split at made
    next cycle => exact ⟨v, cycle, (Option.some.inj made).symm⟩
    next => cases made
  · rintro ⟨v, cycle, rfl⟩
    obtain ⟨found, listed, here⟩ := List.mem_flatten.mp (all v)
    exact ⟨found, listed, by rw [(knots found listed).cycle?_eq here, if_pos cycle]⟩

theorem pairwise_disjoint_cyclicGroups (d : Digraph n) :
    d.cyclicGroups.Pairwise List.Disjoint := by
  obtain ⟨-, nodup, -⟩ := d.strongGroups_spec
  have apart : (d.strongGroups.filterMap d.cycle?).Pairwise List.Disjoint := by
    refine List.pairwise_filterMap.mpr ((List.nodup_flatten.mp nodup).2.imp ?_)
    intro found found' disjoint cycle made cycle' made' w here here'
    exact disjoint ((mem_of_cycle? made).mp here) ((mem_of_cycle? made').mp here')
  exact ((List.mergeSort_perm _ byFirst).pairwise_iff List.Disjoint.symm).mpr apart

/-- No vertex is in two groups or in one of them twice. -/
theorem nodup_flatten_cyclicGroups (d : Digraph n) : d.cyclicGroups.flatten.Nodup := by
  refine List.nodup_flatten.mpr ⟨fun group listed => ?_, d.pairwise_disjoint_cyclicGroups⟩
  obtain ⟨v, -, rfl⟩ := mem_cyclicGroups.mp listed
  exact d.nodup_mutuals v

theorem byFirst_total (a b : List (Fin n)) : byFirst a b || byFirst b a := by
  cases a <;> cases b <;> simp [byFirst, Fin.le_total]

theorem byFirst_trans (a b c : List (Fin n)) (first : byFirst a b) (second : byFirst b c) :
    byFirst a c := by
  cases a <;> cases b <;> cases c <;> simp_all [byFirst]
  exact Nat.le_trans first second

/-- The first vertex of a list comes before that of another. -/
def Before (a b : List (Fin n)) : Prop := ∃ v ∈ a.head?, ∃ w ∈ b.head?, v < w

instance : Std.Irrefl (Before (n := n)) where
  irrefl _ := fun ⟨_, here, _, there, less⟩ =>
    absurd (Option.mem_unique here there) (Fin.ne_of_lt less)

instance : Std.Antisymm (Before (n := n)) where
  antisymm _ _ := fun ⟨_, here, _, there, less⟩ ⟨_, here', _, there', less'⟩ => by
    obtain rfl := Option.mem_unique here there'
    obtain rfl := Option.mem_unique there here'
    exact absurd less (Nat.lt_asymm less')

theorem pairwise_cyclicGroups (d : Digraph n) : d.cyclicGroups.Pairwise Before := by
  have sorted := List.pairwise_mergeSort byFirst_trans byFirst_total
    (d.strongGroups.filterMap d.cycle?)
  refine (sorted.and d.pairwise_disjoint_cyclicGroups).imp_of_mem ?_
  rintro a b a_listed b_listed ⟨le, disjoint⟩
  have filled : ∀ {group}, group ∈ d.cyclicGroups → ∃ v rest, group = v :: rest := by
    intro group listed
    obtain ⟨v, -, rfl⟩ := mem_cyclicGroups.mp listed
    exact List.exists_cons_of_ne_nil (List.ne_nil_of_mem (d.self_mem_mutuals v))
  obtain ⟨v, vs, rfl⟩ := filled a_listed
  obtain ⟨w, ws, rfl⟩ := filled b_listed
  have other : v ≠ w := by
    rintro rfl
    exact disjoint List.mem_cons_self List.mem_cons_self
  exact ⟨v, rfl, w, rfl, lt_of_le_of_ne (of_decide_eq_true le) other⟩

open Classical in
/-- There is one group for every vertex on a cycle that is the first of those it belongs to. -/
theorem cyclicGroups_eq (d : Digraph n) :
    d.cyclicGroups = ((List.finRange n).filter fun v =>
      TransGen d.Edge v v ∧ (d.mutuals v).head? = some v).map d.mutuals := by
  refine List.Pairwise.eq_of_mem_iff d.pairwise_cyclicGroups ?_ fun group => ?_
  · rw [List.pairwise_map]
    refine ((List.pairwise_lt_finRange n).filter _).imp_of_mem fun v_listed w_listed less => ?_
    have first := (of_decide_eq_true (List.mem_filter.mp v_listed).2).2
    have second := (of_decide_eq_true (List.mem_filter.mp w_listed).2).2
    exact ⟨_, first, _, second, less⟩
  · simp only [mem_cyclicGroups, List.mem_map, List.mem_filter, List.mem_finRange, true_and,
      decide_eq_true_eq]
    constructor
    · -- the first of those that a vertex on a cycle belongs to is on a cycle as well
      rintro ⟨v, cycle, rfl⟩
      have some_in := List.ne_nil_of_mem (d.self_mem_mutuals v)
      have here : d.Mutual v ((d.mutuals v).head some_in) := mem_mutuals.mp (List.head_mem some_in)
      refine ⟨_, ⟨here.cycle cycle, ?_⟩, (mutuals_eq here).symm⟩
      rw [← mutuals_eq here, List.head?_eq_some_head some_in]
    · rintro ⟨v, ⟨cycle, -⟩, rfl⟩
      exact ⟨v, cycle, rfl⟩

/-- The groups come in the order of their first vertices. -/
theorem heads_cyclicGroups (d : Digraph n) :
    (d.cyclicGroups.map List.head?).Sublist ((List.finRange n).map some) := by
  classical
  rw [cyclicGroups_eq, List.map_map]
  have firsts : ∀ v ∈ (List.finRange n).filter fun v =>
      TransGen d.Edge v v ∧ (d.mutuals v).head? = some v,
        (List.head? ∘ d.mutuals) v = some v := fun v listed =>
    (of_decide_eq_true (List.mem_filter.mp listed).2).2
  rw [List.map_congr_left firsts]
  exact List.filter_sublist.map some

/-! ## Turned round -/

theorem Opposite.mutuals {d' : Digraph n} (opposite : Opposite d d') : d'.mutuals = d.mutuals := by
  funext v
  unfold Digraph.mutuals Mutual
  congr 1
  funext w
  rw [decide_eq_decide, opposite.reflTransGen_iff, opposite.reflTransGen_iff]
  exact and_comm

/-- The groups stay the same when all edges are turned round. -/
theorem Opposite.cyclicGroups {d' : Digraph n} (opposite : Opposite d d') :
    d'.cyclicGroups = d.cyclicGroups := by
  rw [cyclicGroups_eq, cyclicGroups_eq, opposite.mutuals]
  refine congrArg (List.map d.mutuals) (List.filter_congr fun v _ => ?_)
  rw [decide_eq_decide, opposite.transGen_iff]

end Provenance.Digraph
