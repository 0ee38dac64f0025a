import Mathlib
import Provenance.Proofs.Digraph.WeakComponents
import Provenance.Proofs.Graph.Found
import Provenance.Proofs.Graph.Runs

/-! # Weakly connected components

Every vertex is in one component, with those that a path leads to which takes edges either way. The
components and the vertex that each starts with are in storage order.
-/

open Relation (ReflTransGen)

namespace Provenance.Graph

variable {N E : Type} {g : Graph N E} {v w : Vertex}

/-- An edge joins two vertices, whichever of them is its source. -/
def Beside (g : Graph N E) (v w : Vertex) : Prop := g.Joined v w ∨ g.Joined w v

theorem Valid.live_of_beside (valid : g.Valid) (beside : g.Beside v w) :
    g.containsVertex w = true := by
  cases beside with
  | inl joined => exact (valid.live_of_joined joined).2
  | inr joined => exact (valid.live_of_joined joined).1

theorem Valid.linked_label (valid : g.Valid) {i j : Fin g.snapshot.size} :
    g.snapshot.digraph.Linked i j ↔
      ReflTransGen g.Beside (g.snapshot.label i) (g.snapshot.label j) := by
  refine way_label (fun i j => ?_) fun _ _ => valid.live_of_beside
  rw [Digraph.leads_bothSides, valid.edge_snapshot, valid.edge_snapshot, Beside]

/-- The groups share out the vertices by the paths that ignore the direction of edges. -/
structure WeakComponents (g : Graph N E) (groups : List (List Vertex)) : Prop where
  once : groups.flatten.Nodup
  all : ∀ v, v ∈ groups.flatten ↔ g.containsVertex v = true
  together : ∀ v w, (∃ group ∈ groups, v ∈ group ∧ w ∈ group) ↔
    g.containsVertex v = true ∧ ∃ path, IsPath g.Beside v w path
  first : ∀ group ∈ groups, ∃ v rest, group = v :: rest ∧ ∀ w ∈ rest, v.index < w.index
  in_order : (groups.map List.head?).Sublist (g.vertexList.map some)

theorem flatten_components_perm (g : Graph N E) : List.Perm g.components.flatten g.vertexList := by
  rw [components, ← List.map_flatten, ← g.map_label_finRange]
  exact g.snapshot.digraph.flatten_components_perm.map g.snapshot.label

theorem Valid.exists_component_iff (valid : g.Valid) :
    (∃ group ∈ g.components, v ∈ group ∧ w ∈ group) ↔
      g.containsVertex v = true ∧ ReflTransGen g.Beside v w := by
  constructor
  · intro ⟨group, listed, here, there⟩
    obtain ⟨numbers, found, rfl⟩ := List.mem_map.mp listed
    obtain ⟨i, member, rfl⟩ := List.mem_map.mp here
    obtain ⟨j, member', rfl⟩ := List.mem_map.mp there
    have linked := Digraph.exists_component_iff.mp ⟨numbers, found, member, member'⟩
    exact ⟨g.label_live i, valid.linked_label.mp linked⟩
  · intro ⟨live, way⟩
    have live' : g.containsVertex w = true := by
      cases way with
      | refl => exact live
      | tail _ beside => exact valid.live_of_beside beside
    obtain ⟨i, rfl⟩ := exists_label live
    obtain ⟨j, rfl⟩ := exists_label live'
    obtain ⟨numbers, found, here, there⟩ :=
      Digraph.exists_component_iff.mpr (valid.linked_label.mpr way)
    exact ⟨_, List.mem_map_of_mem found, List.mem_map_of_mem here, List.mem_map_of_mem there⟩

theorem first_of_component {group : List Vertex} (listed : group ∈ g.components) :
    ∃ v rest, group = v :: rest ∧ ∀ w ∈ rest, v.index < w.index := by
  obtain ⟨numbers, found, rfl⟩ := List.mem_map.mp listed
  obtain ⟨i, rest, rfl, before⟩ := Digraph.first_of_component found
  refine ⟨g.snapshot.label i, rest.map g.snapshot.label, rfl, fun w behind => ?_⟩
  obtain ⟨j, listed, rfl⟩ := List.mem_map.mp behind
  exact label_lt (before j listed)

theorem components_sublist (g : Graph N E) :
    (g.components.map List.head?).Sublist (g.vertexList.map some) := by
  have starts := g.snapshot.digraph.components_sublist.map (Option.map g.snapshot.label)
  rw [← g.map_label_finRange, components, List.map_map]
  simpa only [List.map_map, Function.comp_def, List.head?_map, Option.map_some] using starts

theorem Valid.weakComponents (valid : g.Valid) : g.WeakComponents g.components where
  once := g.flatten_components_perm.nodup_iff.mpr g.vertices.handles_nodup
  all v := g.flatten_components_perm.mem_iff.trans Arena.mem_handles
  together v w := by
    rw [valid.exists_component_iff]
    refine and_congr_right fun _ => ⟨exists_path, ?_⟩
    intro ⟨path, is_path⟩
    exact is_path.way
  first _ := first_of_component
  in_order := g.components_sublist

/-- Whatever the graph, its components are those of its edges without their direction. -/
theorem weak_components_of_run [Inhabited N] [Inhabited E] (direction : Direction)
    (ms : List (Mutation N E)) :
    let g := (empty direction : Graph N E).after ms
    g.WeakComponents g.components := by
  intro g
  exact (valid_after (valid_empty direction) ms : g.Valid).weakComponents

end Provenance.Graph
