import Provenance.Proofs.Graph.Around
import Provenance.Proofs.Graph.Derived

/-! # Detours

An edge is implied if there is a chain of two or more edges between its ends. In a graph without
cycles these are the edges that reduction removes.
-/

open Relation (TransGen)

namespace Provenance

/-- There is a chain of two or more steps. -/
def Detour {α : Type} (r : α → α → Prop) (a b : α) : Prop :=
  ∃ x, TransGen r a x ∧ TransGen r x b

theorem Detour.congr {α : Type} {r r' : α → α → Prop}
    (same : ∀ a b, TransGen r a b ↔ TransGen r' a b) {a b : α} : Detour r a b ↔ Detour r' a b :=
  exists_congr fun x => and_congr (same a x) (same x b)

theorem detour_swap {α : Type} {r : α → α → Prop} {a b : α} :
    Detour (Function.swap r) a b ↔ Detour r b a := by
  constructor
  · intro ⟨x, first, rest⟩
    exact ⟨x, Relation.transGen_swap.mp rest, Relation.transGen_swap.mp first⟩
  · intro ⟨x, first, rest⟩
    exact ⟨x, Relation.transGen_swap.mpr rest, Relation.transGen_swap.mpr first⟩

/-- A chain without a detour is a single step. -/
theorem step_of_no_detour {α : Type} {r : α → α → Prop} {a b : α} (chain : TransGen r a b)
    (direct : ¬ Detour r a b) : r a b := by
  cases chain with
  | single step => exact step
  | tail before step => exact absurd ⟨_, before, .single step⟩ direct

/-- Without cycles a detour leaves the direct step with its first one. -/
theorem detour_iff_first {α : Type} {r : α → α → Prop} (acyclic : ∀ a, ¬ TransGen r a a) {a b : α} :
    Detour r a b ↔ ∃ x, r a x ∧ x ≠ b ∧ TransGen r x b := by
  constructor
  · intro ⟨x, first, rest⟩
    obtain ⟨y, step, onward⟩ := TransGen.head'_iff.mp first
    have chain : TransGen r y b := TransGen.trans_right onward rest
    refine ⟨y, step, ?_, chain⟩
    intro same
    exact acyclic b (same ▸ chain)
  · intro ⟨x, step, _, rest⟩
    exact ⟨x, .single step, rest⟩

namespace Graph

variable {N E : Type} {g : Graph N E}

theorem bridged_iff_detour (acyclic : ∀ v, ¬ TransGen g.Joined v v) {s t : Vertex} :
    g.Bridged s t ↔ Detour g.Joined s t := (detour_iff_first acyclic).symm

theorem reduction_of_cycle [Inhabited N] [Inhabited E] (valid : g.Valid) (flags : CopyFlags)
    (cyclic : ¬ ∀ v, ¬ TransGen g.Joined v v) :
    g.transitiveReductionWithRemoved flags = .error (.notAcyclic .transitiveReduction) := by
  rw [← reach?_snapshot_isSome_iff valid, Option.not_isSome_iff_eq_none] at cyclic
  rw [transitiveReductionWithRemoved_eq, cyclic]

/-- There is a detour for an edge. -/
def Roundabout (g : Graph N E) (e : Edge) : Prop :=
  ∃ link, g.edges.get? e = some link ∧ Detour g.Joined link.source link.target

open Classical in
/-- Reduction removes the edges for which there is a detour, in storage order. -/
theorem removed_eq [Inhabited N] [Inhabited E] (valid : g.Valid) {flags : CopyFlags}
    {r : Graph N E} {removed : List Edge}
    (reduced : g.transitiveReductionWithRemoved flags = .ok (r, removed)) :
    removed = g.edgeList.filter g.Roundabout := by
  have acyclic := (transitiveReduction_ok_iff valid flags).mp ⟨_, reduced⟩
  have ordered := sublist_removed reduced
  have sorted := g.edges.handles_sorted
  refine Handle.eq_of_mem_iff (sorted.sublist ordered) (sorted.filter _) fun e => ?_
  rw [List.mem_filter, decide_eq_true_iff]
  constructor
  · intro gone
    have listed := ordered.subset gone
    obtain ⟨link, found⟩ := containsEdge_iff.mp (Arena.mem_handles.mp listed)
    have bridged := (mem_removed_iff valid reduced found).mp gone
    exact ⟨listed, link, found, (bridged_iff_detour acyclic).mp bridged⟩
  · rintro ⟨-, link, found, detour⟩
    exact (mem_removed_iff valid reduced found).mpr ((bridged_iff_detour acyclic).mpr detour)

end Graph

end Provenance
