import Provenance.Proofs.Digraph.Paths
import Provenance.Proofs.Graph.Found
import Provenance.Proofs.Graph.Runs

/-! # Immediate dominators

The tree that is found pairs every other vertex below its root with the nearest vertex that no path
from there gets around.
-/

open Relation (TransGen ReflTransGen)

namespace Provenance.Graph

variable {N E : Type} {g : Graph N E} {root u d : Vertex}

theorem Valid.onAllPaths_label (valid : g.Valid) {way : Way} {i a j : Fin g.snapshot.size} :
    OnAllPaths (g.Passes way) (g.snapshot.label i) (g.snapshot.label j) (g.snapshot.label a) ↔
      Dominates (g.snapshot.digraph.neighbors way) i a j :=
  onAllPaths_iff.trans valid.dominates_label.symm

/-- Only live vertices are on all paths to a vertex that can be reached. -/
theorem Valid.live_of_onAllPaths (valid : g.Valid) {way : Way} {x : Vertex}
    (live : g.containsVertex root = true) (reached : ReflTransGen (g.Passes way) root u)
    (on_all : OnAllPaths (g.Passes way) root u x) : g.containsVertex x = true := by
  by_contra dead
  refine onAllPaths_iff.mp on_all (fun same => dead (same ▸ live)) ?_
  refine ReflTransGen.mono (fun s t passes => ⟨passes, ?_⟩) _ _ reached
  exact fun same => dead (same ▸ (valid.live_of_passes passes).2)

theorem mem_dominatorTree :
    (u, d) ∈ g.dominatorTree root ↔
      ∃ r i p, g.snapshot.label r = root ∧ i ≠ r ∧
        (g.snapshot.digraph.dominators (g.direction.way .leaves) r).parents.get i = some p ∧
        g.snapshot.label i = u ∧ g.snapshot.label p = d := by
  unfold dominatorTree
  dsimp only
  cases number : g.snapshot.number? root with
  | none =>
      refine iff_of_false List.not_mem_nil ?_
      rintro ⟨r, -, -, label, -⟩
      rw [number?_eq_some.mpr label] at number
      cases number
  | some r =>
      obtain rfl := number?_eq_some.mp number
      simp only [List.mem_filterMap, List.mem_finRange, true_and]
      constructor
      · rintro ⟨i, made⟩
        split at made
        next => cases made
        next other =>
          obtain ⟨p, parent, same⟩ := Option.map_eq_some_iff.mp made
          obtain ⟨label, label'⟩ := Prod.mk.inj same
          exact ⟨r, i, p, rfl, other, parent, label, label'⟩
      · rintro ⟨r', i, p, label, other, parent, rfl, rfl⟩
        obtain rfl := label_inj label
        exact ⟨i, by rw [if_neg other, parent]; rfl⟩

theorem sublist_dominatorTree :
    ((g.dominatorTree root).map Prod.fst).Sublist g.vertexList := by
  unfold dominatorTree
  dsimp only
  split
  next r number =>
    rw [← g.map_label_finRange]
    refine map_filterMap_sublist (fun i pair made => ?_) _
    split at made
    next => cases made
    next =>
      obtain ⟨p, -, rfl⟩ := Option.map_eq_some_iff.mp made
      rfl
  next => exact List.nil_sublist _

/-- The tree has an entry for each vertex that can be reached, but none for its root. -/
theorem Valid.mem_fst_dominatorTree (valid : g.Valid) :
    u ∈ (g.dominatorTree root).map Prod.fst ↔
      u ≠ root ∧ ReflTransGen (g.Passes (g.direction.way .leaves)) root u := by
  have inside_iff := fun r =>
    (g.snapshot.digraph.dominators_settled (g.direction.way .leaves) r).inside_iff
  constructor
  · intro listed
    obtain ⟨⟨u, d⟩, entry, rfl⟩ := List.mem_map.mp listed
    obtain ⟨r, i, p, rfl, other, parent, rfl, -⟩ := mem_dominatorTree.mp entry
    have way := (inside_iff r i).mp (Option.isSome_of_eq_some parent)
    exact ⟨fun same => other (label_inj same), valid.way_leads.mp way⟩
  · rintro ⟨other, way⟩
    have live : g.containsVertex root = true := by
      obtain rfl | ⟨w, passes, -⟩ := ReflTransGen.cases_head way
      · exact absurd rfl other
      · exact (valid.live_of_passes passes).1
    obtain ⟨r, rfl⟩ := exists_label live
    obtain ⟨i, rfl⟩ := exists_label (valid.live_of_way live way)
    obtain ⟨p, parent⟩ :=
      Option.isSome_iff_exists.mp ((inside_iff r i).mpr (valid.way_leads.mpr way))
    have apart : i ≠ r := fun same => other (congrArg g.snapshot.label same)
    exact List.mem_map.mpr
      ⟨_, mem_dominatorTree.mpr ⟨r, i, p, rfl, apart, parent, rfl, rfl⟩, rfl⟩

/-- An entry of the tree pairs a vertex with its immediate dominator, and there is no other. -/
theorem Valid.immediateDominator_of_mem (valid : g.Valid) (listed : (u, d) ∈ g.dominatorTree root) :
    ImmediateDominator (g.Passes (g.direction.way .leaves)) root u d ∧
      ∀ d', ImmediateDominator (g.Passes (g.direction.way .leaves)) root u d' → d' = d := by
  obtain ⟨r, i, p, rfl, other, parent, rfl, rfl⟩ := mem_dominatorTree.mp listed
  have settled := g.snapshot.digraph.dominators_settled (g.direction.way .leaves) r
  have reached : ReflTransGen (g.Passes (g.direction.way .leaves)) (g.snapshot.label r)
      (g.snapshot.label i) :=
    valid.way_leads.mp ((settled.inside_iff i).mp (Option.isSome_of_eq_some parent))
  have numbered : ∀ x, OnAllPaths (g.Passes (g.direction.way .leaves)) (g.snapshot.label r)
      (g.snapshot.label i) x → ∃ j, g.snapshot.label j = x := fun x on_all =>
    exists_label (valid.live_of_onAllPaths (g.label_live r) reached on_all)
  obtain ⟨apart, dominates, nearest⟩ := settled.parent_nearest other parent
  constructor
  · refine ⟨fun same => apart (label_inj same), valid.onAllPaths_label.mpr dominates, ?_⟩
    intro x x_other on_all
    obtain ⟨j, rfl⟩ := numbered x on_all
    have j_other : j ≠ i := fun same => x_other (congrArg g.snapshot.label same)
    exact valid.onAllPaths_label.mpr (nearest j j_other (valid.onAllPaths_label.mp on_all))
  · intro d' immediate
    obtain ⟨q, rfl⟩ := numbered d' immediate.on_all
    have q_other : q ≠ i := fun same => immediate.other (congrArg g.snapshot.label same)
    refine congrArg g.snapshot.label (settled.eq_parent other parent q_other
      (valid.onAllPaths_label.mp immediate.on_all) fun x x_other dominates => ?_)
    exact valid.onAllPaths_label.mp (immediate.nearest _ (fun same => x_other (label_inj same))
      (valid.onAllPaths_label.mpr dominates))

/-- Whatever the graph and its root, the tree lists the vertices below the root in storage order,
each one once and with its immediate dominator. -/
theorem immediate_dominators [Inhabited N] [Inhabited E] (direction : Direction)
    (ms : List (Mutation N E)) (root : Vertex) :
    let g := (empty direction : Graph N E).after ms
    let next := g.Passes (g.direction.way .leaves)
    ((g.dominatorTree root).map Prod.fst).Sublist g.vertexList ∧
      ((g.dominatorTree root).map Prod.fst).Nodup ∧
      (∀ u, u ∈ (g.dominatorTree root).map Prod.fst ↔ u ≠ root ∧ ReflTransGen next root u) ∧
      ∀ u d, (u, d) ∈ g.dominatorTree root →
        ImmediateDominator next root u d ∧ ∀ d', ImmediateDominator next root u d' → d' = d := by
  intro g next
  have valid := valid_after (valid_empty direction) ms
  refine ⟨sublist_dominatorTree, ?_, fun u => valid.mem_fst_dominatorTree, fun u d listed => ?_⟩
  · exact g.vertices.handles_nodup.sublist sublist_dominatorTree
  · exact valid.immediateDominator_of_mem listed

end Provenance.Graph
