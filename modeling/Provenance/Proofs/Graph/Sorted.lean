import Mathlib
import Provenance.Proofs.Digraph.Depth
import Provenance.Proofs.Graph.ShortestPaths

/-! # Sorted vertices

Sorting lists the vertices by their depth, which is the length of the longest paths that end at
them. A graph with a cycle is not sorted in part.
-/

open Relation (TransGen ReflTransGen)

namespace Provenance.Graph

variable {N E : Type} {g : Graph N E}

/-! ## Depth under the labels -/

theorem Valid.endsWalk_label (valid : g.Valid) {k : Nat} {i : Fin g.snapshot.size} :
    EndsWalk g.snapshot.digraph.Edge k i ↔ EndsWalk g.Joined k (g.snapshot.label i) := by
  induction k generalizing i with
  | zero => exact iff_of_true (endsWalk_zero _ _) (endsWalk_zero _ _)
  | succ k ih =>
      rw [endsWalk_succ_iff, endsWalk_succ_iff]
      constructor
      · rintro ⟨j, edge, ends⟩
        exact ⟨_, valid.edge_snapshot.mp edge, ih.mp ends⟩
      · rintro ⟨w, joined, ends⟩
        obtain ⟨j, rfl⟩ := exists_label (valid.live_of_joined joined).1
        exact ⟨j, valid.edge_snapshot.mpr joined, ih.mpr ends⟩

theorem Valid.depth_label (valid : g.Valid) {k : Nat} {i : Fin g.snapshot.size} :
    Depth g.snapshot.digraph.Edge i k ↔ Depth g.Joined (g.snapshot.label i) k := by
  rw [depth_iff, depth_iff, valid.endsWalk_label, valid.endsWalk_label]

theorem Valid.layered_label (valid : g.Valid) {k : Nat} {layers : List (List (Fin g.snapshot.size))}
    (layered : Layered g.snapshot.digraph.Edge k layers) :
    Layered g.Joined k (layers.map (List.map g.snapshot.label)) := by
  induction layers generalizing k with
  | nil => trivial
  | cons layer layers ih =>
      refine ⟨fun v listed => ?_, ih layered.2⟩
      obtain ⟨i, here, rfl⟩ := List.mem_map.mp listed
      exact valid.depth_label.mp (layered.1 i here)

/-! ## The order -/

/-- All vertices, each once and after those that it has edges from, by their depth. Those of depth
zero are in storage order. -/
structure SortsByDepth (g : Graph N E) (depth : Vertex → Nat) (order : List Vertex) : Prop where
  perm : List.Perm order g.vertexList
  ahead : ∀ s t, g.Joined s t → [s, t].Sublist order
  deep : ∀ v ∈ order, Depth g.Joined v (depth v)
  deeper : order.Pairwise (depth · ≤ depth ·)
  first : order.filter (depth · == 0) = g.vertexList.filter (depth · == 0)

theorem Valid.exists_layers (valid : g.Valid) {order : List Vertex}
    (sorted : g.topologicalSort = .ok order) :
    ∃ layer layers, order = (layer :: layers).flatten ∧ Layered g.Joined 0 (layer :: layers) ∧
      layer.Sublist g.vertexList := by
  rw [topologicalSort_eq] at sorted
  cases found : g.snapshot.digraph.topologicalOrder? with
  | none => simp [found] at sorted
  | some numbers =>
      simp only [found, Except.ok.injEq] at sorted
      obtain ⟨layer, layers, rfl, layered, ordered⟩ := Digraph.layered_of_topologicalOrder? found
      refine ⟨_, _, ?_, valid.layered_label layered, ?_⟩
      · rw [← sorted, List.map_flatten]
        rfl
      · rw [← g.map_label_finRange]
        exact ordered.map _

theorem Valid.sortsByDepth (valid : g.Valid) {order : List Vertex}
    (sorted : g.topologicalSort = .ok order) : ∃ depth, g.SortsByDepth depth order := by
  obtain ⟨nodup, mem_iff, ahead⟩ := valid.topologicalSort_spec sorted
  obtain ⟨layer, layers, rfl, layered, ordered⟩ := valid.exists_layers sorted
  have known : ∀ v, ∃ d, v ∈ (layer :: layers).flatten → Depth g.Joined v d := by
    intro v
    by_cases listed : v ∈ (layer :: layers).flatten
    · obtain ⟨d, -, deep⟩ := layered.exists_depth listed
      exact ⟨d, fun _ => deep⟩
    · exact ⟨0, fun here => absurd here listed⟩
  choose depth deep using known
  have perm : List.Perm (layer :: layers).flatten g.vertexList := by
    refine (List.perm_ext_iff_of_nodup nodup g.vertices.handles_nodup).mpr fun v => ?_
    exact (mem_iff v).trans Arena.mem_handles.symm
  have first := layered.filter_eq deep
  refine ⟨depth, perm, fun s t joined => ahead s t (.single joined), deep, layered.pairwise deep, ?_⟩
  -- both sides are sorted by their slots, and what they hold is the same
  have sorted_layer : layer.Pairwise (·.index < ·.index) :=
    g.vertices.handles_sorted.sublist ordered
  rw [first]
  refine Handle.eq_of_mem_iff sorted_layer (g.sorted_filter_vertexList _) fun v => ?_
  rw [← first, List.mem_filter, List.mem_filter, perm.mem_iff]

/-- Whatever the graph, it is sorted by depth if it has no cycle, and not sorted at all if it has
one. -/
theorem sorted_by_depth_of_run [Inhabited N] [Inhabited E] (direction : Direction)
    (ms : List (Mutation N E)) :
    let g := (empty direction : Graph N E).after ms
    let result := g.topologicalSort
    ((∃ order, result = .ok order) ↔ ∀ v, ¬ TransGen g.Joined v v) ∧
      (result = .error (.notAcyclic .topologicalSort) ↔ ∃ v, TransGen g.Joined v v) ∧
      ∀ order, result = .ok order → ∃ depth, g.SortsByDepth depth order := by
  intro g result
  have valid : g.Valid := valid_after (valid_empty direction) ms
  have ok_iff := topologicalSort_ok_iff valid
  refine ⟨ok_iff, ⟨fun failed => ?_, fun cyclic => ?_⟩, fun order => valid.sortsByDepth⟩
  · by_contra acyclic
    obtain ⟨order, sorted⟩ := ok_iff.mpr (not_exists.mp acyclic)
    exact nomatch failed.symm.trans sorted
  · exact topologicalSort_of_cycle valid fun acyclic => cyclic.elim acyclic

/-- A chain with a shortcut, in which a slot is used twice, and a vertex without edges. -/
theorem sorted_by_depth_of_run_shortcut :
    let ms : List (Mutation Nat Nat) :=
      [.addVertexWith 0, .addVertexWith 1, .addVertexWith 2, .addVertexWith 3, .removeVertex ⟨1, 0⟩,
        .addVertexWith 4, .addEdge ⟨2, 0⟩ ⟨0, 0⟩, .addEdge ⟨0, 0⟩ ⟨1, 1⟩, .addEdge ⟨2, 0⟩ ⟨1, 1⟩]
    let g := (empty .parentToChild).after ms
    ∃ depth, g.SortsByDepth depth [⟨2, 0⟩, ⟨3, 0⟩, ⟨0, 0⟩, ⟨1, 1⟩] := by
  intro ms g
  have sorted : g.topologicalSort = .ok [⟨2, 0⟩, ⟨3, 0⟩, ⟨0, 0⟩, ⟨1, 1⟩] := by
    dsimp only [g, ms]
    cbv
  exact (sorted_by_depth_of_run .parentToChild ms).2.2 _ sorted

end Provenance.Graph
