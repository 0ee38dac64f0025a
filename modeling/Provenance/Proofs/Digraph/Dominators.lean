import Mathlib.Data.Fintype.Card
import Provenance.Proofs.Digraph.Layers
import Provenance.Proofs.Digraph.Sweeps

/-! # Dominators

In the reverse finishing order of a walk every vertex but the root comes after one that leads to it.
So sweeping in this order ends at the tree of dominators, and what is below a vertex of the tree are
the vertices that it dominates.
-/

open Relation (TransGen ReflTransGen)

namespace Provenance

variable {n : Nat}

namespace DominatorTree

theorem get_foldl_set_other {order : List (Fin n)} {k : Nat} {ranks : VertexMap Nat n} {v : Fin n}
    (other : v ∉ order) :
    ((order.zipIdx k).foldl (fun ranks (v, i) => ranks.set v i) ranks).get v = ranks.get v := by
  induction order generalizing k ranks with
  | nil => rfl
  | cons u order ih =>
      obtain ⟨here, later⟩ := not_or.mp (mt List.mem_cons.mpr other)
      rw [List.zipIdx_cons, List.foldl_cons, ih later, VertexMap.get_set, if_neg (Ne.symm here)]

theorem get_foldl_set {order : List (Fin n)} (nodup : order.Nodup) {k : Nat}
    {ranks : VertexMap Nat n} {v : Fin n} (listed : v ∈ order) :
    ((order.zipIdx k).foldl (fun ranks (v, i) => ranks.set v i) ranks).get v =
      k + order.idxOf v := by
  induction order generalizing k ranks with
  | nil => cases listed
  | cons u order ih =>
      obtain ⟨new, nodup⟩ := List.nodup_cons.mp nodup
      rw [List.zipIdx_cons, List.foldl_cons]
      rcases List.mem_cons.mp listed with rfl | later
      · rw [get_foldl_set_other new, VertexMap.get_set, if_pos rfl, List.idxOf_cons_self]
        rfl
      · have other : u ≠ v := fun same => new (same ▸ later)
        rw [ih nodup later, List.idxOf_cons_ne _ other]
        omega

theorem get_ranks {order : List (Fin n)} (nodup : order.Nodup) {v : Fin n} (listed : v ∈ order) :
    (ranks order).get v = order.idxOf v := by
  rw [ranks, get_foldl_set nodup listed, Nat.zero_add]

theorem ranks_lt {order : List (Fin n)} (nodup : order.Nodup) {v : Fin n} (listed : v ∈ order) :
    (ranks order).get v < n := by
  rw [get_ranks nodup listed]
  have inside := List.idxOf_lt_length_of_mem listed
  have short := nodup.length_le_card
  rw [Fintype.card_fin] at short
  omega

theorem ranks_le {order : List (Fin n)} (nodup : order.Nodup) (v : Fin n) :
    (ranks order).get v ≤ n := by
  by_cases listed : v ∈ order
  · exact Nat.le_of_lt (ranks_lt nodup listed)
  · rw [ranks, get_foldl_set_other listed, VertexMap.get_const]

theorem pairwise_ranks {order : List (Fin n)} (nodup : order.Nodup) :
    order.Pairwise fun u w => (ranks order).get u < (ranks order).get w := by
  refine List.pairwise_iff_getElem.mpr fun i j i_inside j_inside less => ?_
  rw [get_ranks nodup (List.getElem_mem _), get_ranks nodup (List.getElem_mem _),
    nodup.idxOf_getElem, nodup.idxOf_getElem]
  exact less

end DominatorTree

namespace Digraph

variable {d : Digraph n} {way : Way} {root : Fin n}

/-- The reverse finishing order, with the ranks it gives, is one to sweep in. -/
theorem sweepOrder (d : Digraph n) (way : Way) (root : Fin n) :
    ∃ rest, (d.finishing way root).reverse = root :: rest ∧
      SweepOrder (d.neighbors way) (d.neighbors way.flip)
        (DominatorTree.ranks (root :: rest)).get root rest := by
  have nodup : (d.finishing way root).reverse.Nodup :=
    List.nodup_reverse.mpr (finishing_perm.nodup_iff.mpr nodup_depthFirst)
  have mem_iff : ∀ v, v ∈ (d.finishing way root).reverse ↔
      ReflTransGen (Leads (d.neighbors way)) root v := by
    intro v
    rw [List.mem_reverse, finishing_perm.mem_iff, mem_depthFirst]
  have increasing := DominatorTree.pairwise_ranks nodup
  have led_to : ∀ v ∈ (d.finishing way root).reverse, v ≠ root →
      ∃ p ∈ (d.finishing way root).reverse, Rises (d.neighbors way)
        (DominatorTree.ranks (d.finishing way root).reverse).get p v := by
    intro v listed other
    obtain ⟨p, leads, later⟩ := finishing_from (List.mem_reverse.mp listed) other
    have earlier := List.reverse_sublist.mpr later
    refine ⟨p, earlier.subset (by simp), leads, ?_⟩
    exact (List.pairwise_cons.mp (increasing.sublist earlier)).1 v (by simp)
  cases order : (d.finishing way root).reverse with
  | nil => simpa [order] using (mem_iff root).mpr .refl
  | cons first rest =>
      rw [order] at nodup mem_iff increasing led_to
      have least := (List.pairwise_cons.mp increasing).1
      obtain rfl : first = root := by
        refine Decidable.byContradiction fun other => ?_
        obtain ⟨p, listed, rises⟩ := led_to first List.mem_cons_self other
        rcases List.mem_cons.mp listed with rfl | later
        · exact Nat.lt_irrefl _ rises.2
        · exact Nat.lt_asymm rises.2 (least p later)
      refine ⟨rest, rfl, fun p v => leads_flip, increasing, fun v listed => ?_, mem_iff,
        DominatorTree.ranks_le nodup⟩
      refine led_to v (List.mem_cons_of_mem _ listed) ?_
      rintro rfl
      exact Nat.lt_irrefl _ (least v listed)

theorem dominators_settled (d : Digraph n) (way : Way) (root : Fin n) :
    Parents.Settled (d.neighbors way)
      (DominatorTree.ranks (d.finishing way root).reverse).get root
      (d.dominators way root).parents := by
  obtain ⟨rest, split, order⟩ := d.sweepOrder way root
  unfold dominators
  dsimp only
  rw [split]
  refine order.settle (Parents.balanced_start _ _ root) fun v known => ?_
  rw [Parents.isSome_start.mp known]
  exact List.mem_cons_self

end Digraph

namespace Parents.Settled

variable {next : Fin n → List (Fin n)} {rank : Fin n → Nat} {root v p : Fin n} {parents : Parents n}

/-- The other vertices that dominate a vertex of the tree dominate its parent as well. -/
theorem parent_nearest (settled : Settled next rank root parents) (other : v ≠ root)
    (parent : parents.get v = some p) :
    p ≠ v ∧ Dominates next root p v ∧
      ∀ x, x ≠ v → Dominates next root x v → Dominates next root x p := by
  have inside : (parents.get v).isSome := Option.isSome_of_eq_some parent
  obtain ⟨less, inside'⟩ := settled.up v p other parent
  refine ⟨?_, (settled.ancestor_iff inside).mp (.single ⟨parent, less⟩),
    fun x apart dominates => ?_⟩
  · rintro rfl
    exact Nat.lt_irrefl _ less
  · exact (settled.ancestor_iff inside').mp
      (((settled.ancestor_iff inside).mpr dominates).of_ne apart parent)

/-- There is no other vertex nearest to it. -/
theorem eq_parent (settled : Settled next rank root parents) (other : v ≠ root)
    (parent : parents.get v = some p) {q : Fin n} (apart : q ≠ v)
    (dominates : Dominates next root q v)
    (nearest : ∀ x, x ≠ v → Dominates next root x v → Dominates next root x q) : q = p := by
  have inside : (parents.get v).isSome := Option.isSome_of_eq_some parent
  obtain ⟨p_apart, p_dominates, p_nearest⟩ := settled.parent_nearest other parent
  have above : Ancestor rank parents v q := (settled.ancestor_iff inside).mpr dominates
  have up : Ancestor rank parents p q := above.of_ne apart parent
  have down : Ancestor rank parents q p :=
    (settled.ancestor_iff (settled.inside_of_ancestor inside above)).mpr
      (nearest p p_apart p_dominates)
  refine Decidable.byContradiction fun distinct => ?_
  have less := up.rank_lt distinct
  have le := down.rank_le
  omega

end Parents.Settled

/-! ## Below a vertex -/

namespace DominatorTree

variable {next : Fin n → List (Fin n)} {seen : VertexSet n} {stack us : List (Fin n)}
  {tree : DominatorTree n} {u v top : Fin n}

theorem mem_gather_of_mem (marked : v ∈ seen) : v ∈ gather next seen stack := by
  induction seen, stack using gather.induct next with
  | case1 seen =>
      rw [gather]
      exact marked
  | case2 seen u stack ih =>
      rw [gather]
      exact ih (VertexSet.mem_marked.mpr (.inr marked))

/-- Only what the marked vertices lead to is marked. -/
theorem way_of_mem_gather (from_top : ∀ w ∈ seen, ReflTransGen (Leads next) top w)
    (stacked : ∀ w ∈ stack, w ∈ seen) (marked : v ∈ gather next seen stack) :
    ReflTransGen (Leads next) top v := by
  induction seen, stack using gather.induct next with
  | case1 seen =>
      rw [gather] at marked
      exact from_top v marked
  | case2 seen u stack ih =>
      rw [gather] at marked
      obtain ⟨here, behind⟩ := List.forall_mem_cons.mp stacked
      refine ih (fun w marked => ?_) (fun w listed => ?_) marked
      · rcases VertexSet.mem_marked.mp marked with new | old
        · exact (from_top u here).tail (VertexSet.mem_mark.mp new).1
        · exact from_top w old
      · rcases List.mem_append.mp listed with new | old
        · exact VertexSet.mem_marked.mpr (.inl (List.mem_reverse.mp new))
        · exact VertexSet.mem_marked.mpr (.inr (behind w old))

/-- Nothing leads out of the marks: what a vertex leads to is marked when it is taken. -/
theorem gather_closed (taken : ∀ u ∈ seen, u ∉ stack → ∀ w, Leads next u w → w ∈ seen) :
    ∀ u ∈ gather next seen stack, ∀ w, Leads next u w → w ∈ gather next seen stack := by
  induction seen, stack using gather.induct next with
  | case1 seen =>
      rw [gather]
      exact fun u marked => taken u marked List.not_mem_nil
  | case2 seen u stack ih =>
      rw [gather]
      refine ih fun x marked off w leads => VertexSet.mem_marked.mpr ?_
      obtain ⟨off_new, off_stack⟩ := not_or.mp (mt List.mem_append.mpr off)
      have old : x ∈ seen := (VertexSet.mem_marked.mp marked).resolve_left
        fun new => off_new (List.mem_reverse.mpr new)
      by_cases same : x = u
      · by_cases before : w ∈ seen
        · exact .inr before
        · exact .inl (VertexSet.mem_mark.mpr ⟨same ▸ leads, before⟩)
      · have off_top : x ∉ u :: stack := fun listed =>
          (List.mem_cons.mp listed).elim same off_stack
        exact .inr (taken x old off_top w leads)

theorem mem_gather :
    v ∈ gather next (VertexSet.ofList [top]) [top] ↔ ReflTransGen (Leads next) top v := by
  constructor
  · refine way_of_mem_gather (fun w marked => ?_) fun w listed => VertexSet.mem_ofList.mpr listed
    obtain rfl := List.mem_singleton.mp (VertexSet.mem_ofList.mp marked)
    exact .refl
  · have closed : ∀ u ∈ gather next (VertexSet.ofList [top]) [top], ∀ w, Leads next u w →
        w ∈ gather next (VertexSet.ofList [top]) [top] :=
      gather_closed fun u marked off => absurd (VertexSet.mem_ofList.mp marked) off
    intro way
    induction way with
    | refl => exact mem_gather_of_mem (VertexSet.mem_ofList.mpr List.mem_cons_self)
    | tail _ leads ih => exact closed _ ih _ leads

theorem mem_addChild {lists : Neighbors n} {w : Fin n} :
    v ∈ (tree.addChild lists w).get u ↔
      v ∈ lists.get u ∨ v = w ∧ tree.parents.get v = some u ∧ u ≠ v := by
  -- a vertex is added to no list, or to that of its parent
  have kept (stray : tree.parents.get w = some u → u = w) :
      v ∈ lists.get u ↔ v ∈ lists.get u ∨ v = w ∧ tree.parents.get v = some u ∧ u ≠ v := by
    refine (or_iff_left ?_).symm
    rintro ⟨rfl, parent, apart⟩
    exact apart (stray parent)
  unfold addChild
  cases parent : tree.parents.get w with
  | none => exact kept fun found => nomatch parent.symm.trans found
  | some p =>
      dsimp only
      split
      next own => exact kept fun found => Option.some.inj (found.symm.trans parent) ▸ own
      next apart =>
        rw [VertexMap.get_set]
        split
        next here =>
          subst here
          rw [List.mem_append, List.mem_singleton]
          refine or_congr_right ⟨?_, And.left⟩
          rintro rfl
          exact ⟨rfl, parent, apart⟩
        next other =>
          exact kept fun found => absurd (Option.some.inj (parent.symm.trans found)) other

theorem mem_foldl_addChild {lists : Neighbors n} :
    v ∈ (us.foldl tree.addChild lists).get u ↔
      v ∈ lists.get u ∨ v ∈ us ∧ tree.parents.get v = some u ∧ u ≠ v := by
  induction us generalizing lists with
  | nil => simp
  | cons w us ih =>
      rw [List.foldl_cons, ih, mem_addChild, List.mem_cons, or_assoc, ← or_and_right]

theorem mem_children :
    v ∈ tree.children.get u ↔ tree.parents.get v = some u ∧ u ≠ v := by
  simp [children, mem_foldl_addChild, List.mem_finRange]

/-- What is below a vertex are those that it is an ancestor of. -/
theorem mem_below {rank : Fin n → Nat} {root : Fin n}
    (rooted : Parents.Tree rank root tree.parents) :
    u ∈ tree.below top ↔ Parents.Ancestor rank tree.parents u top := by
  have child_iff : ∀ p v, Leads tree.children.get p v ↔ Parents.Up rank tree.parents v p := by
    intro p v
    rw [Leads, mem_children]
    refine and_congr_right fun parent => ⟨fun apart => ?_, fun less same => ?_⟩
    · refine (rooted.up v p ?_ parent).1
      rintro rfl
      exact apart (Option.some.inj (parent.symm.trans rooted.top))
    · exact Nat.lt_irrefl _ (same ▸ less)
  have swapped : Leads tree.children.get = Function.swap (Parents.Up rank tree.parents) := by
    funext p v
    exact propext (child_iff p v)
  rw [below, mem_gather, swapped]
  exact Relation.reflTransGen_swap

end DominatorTree

/-- Below a vertex in the tree are the vertices that it dominates, and itself even if the root does
not lead to it. -/
theorem Digraph.mem_below {d : Digraph n} {way : Way} {root a u : Fin n} :
    u ∈ (d.dominators way root).below a ↔
      u = a ∨ ReflTransGen (Leads (d.neighbors way)) root u ∧
        Dominates (d.neighbors way) root a u := by
  have settled := d.dominators_settled way root
  rw [DominatorTree.mem_below settled.toTree]
  constructor
  · intro above
    rcases above.eq_or_up with same | ⟨p, up, -⟩
    · exact .inl same.symm
    · have inside := Option.isSome_of_eq_some up.1
      exact .inr ⟨(settled.inside_iff u).mp inside, (settled.ancestor_iff inside).mp above⟩
  · rintro (rfl | ⟨reached, dominates⟩)
    · exact .refl
    · exact (settled.ancestor_iff ((settled.inside_iff u).mpr reached)).mpr dominates

theorem Digraph.mem_below_of_reached {d : Digraph n} {way : Way} {root a u : Fin n}
    (reached : ReflTransGen (Leads (d.neighbors way)) root u) :
    u ∈ (d.dominators way root).below a ↔ Dominates (d.neighbors way) root a u := by
  have settled := d.dominators_settled way root
  rw [DominatorTree.mem_below settled.toTree]
  exact settled.ancestor_iff ((settled.inside_iff u).mpr reached)

namespace Digraph.Opposite

variable {d d' : Digraph n}

theorem mem_below_iff (opposite : Opposite d d') {way : Way} {root a u : Fin n} :
    u ∈ (d'.dominators way.flip root).below a ↔ u ∈ (d.dominators way root).below a := by
  rw [mem_below, mem_below]
  unfold Dominates
  rw [opposite.leads_flip]

end Digraph.Opposite

end Provenance
