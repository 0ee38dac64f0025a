import Mathlib
import Provenance.Proofs.Digraph.Queue
import Provenance.Proofs.Digraph.RecursiveWalk
import Provenance.Proofs.Graph.Answers
import Provenance.Proofs.Graph.Dominated
import Provenance.Proofs.Graph.LongestPaths

/-! # Orders of discovery

The two searches list the same vertices, one as a queue does and one as a recursive walk does. Both
look at the vertices around one in the order in which a ledger of all changes has them.
-/

open Relation (ReflTransGen)

namespace Provenance

namespace Ledger

variable {N E : Type}

/-- The targets of the edges out of a vertex as these were made, or the sources of the edges into it
as they are stored. -/
def around (l : Ledger N E) (way : Way) (v : Vertex) : List Vertex :=
  match way with
  | .along => (l.outgoing v).map (·.2.target)
  | .against => l.vertices.keys.filter fun u => (l.between? u v).isSome

end Ledger

namespace Graph

variable {N E : Type} {g : Graph N E} {l : Ledger N E} {start : Vertex} {toward : Toward}
  {order : SearchOrder}

theorem Tracks.around (tracks : Tracks g l) (way : Way) : l.around way = g.around way := by
  funext v
  cases way with
  | along => exact (tracks.successors v).symm
  | against =>
      simp only [Ledger.around, Graph.around, tracks.keys, tracks.between?]
      rfl

theorem Tracks.sorted_around (tracks : Tracks g l) (v : Vertex) :
    (l.around .against v).Pairwise (·.index < ·.index) := by
  rw [tracks.around]
  exact g.sorted_filter_vertexList _

/-- All vertices that can be reached are listed, each once and the start before the others. -/
structure Discovers (g : Graph N E) (way : Way) (start : Vertex) (vs : List Vertex) : Prop where
  once : vs.Nodup
  complete : ∀ v, v ∈ vs ↔ ReflTransGen (g.Passes way) start v
  first : vs.head? = some start

theorem Valid.discovers (valid : g.Valid) (live : g.containsVertex start = true) :
    g.Discovers (g.direction.way toward) start (g.discovered order start toward) where
  once := nodup_discovered
  complete v := by rw [valid.mem_discovered, and_iff_right live]
  first := by
    obtain ⟨rest, found, -⟩ : ∃ rest, g.discovered order start toward = start :: rest ∧ _ :=
      valid.discovered_eq_cons live
    rw [found]
    rfl

theorem discovered_label (g : Graph N E) (order : SearchOrder) (i : Fin g.snapshot.size)
    (toward : Toward) : g.discovered order (g.snapshot.label i) toward =
      (order.search g.snapshot.digraph (g.direction.way toward) i).map g.snapshot.label := by
  unfold discovered
  dsimp only
  rw [number?_eq_some.mpr rfl]

theorem Valid.distance_label (valid : g.Valid) {way : Way} {i j : Fin g.snapshot.size} {k : Nat} :
    Distance (Leads (g.snapshot.digraph.neighbors way)) i j k ↔
      Distance (g.Passes way) (g.snapshot.label i) (g.snapshot.label j) k := by
  simp only [Distance, valid.steps_leads]

theorem Valid.distances_discovered (valid : g.Valid) (live : g.containsVertex start = true) :
    ∃ ks, List.Forall₂ (Distance (g.Passes (g.direction.way toward)) start)
      (g.breadthFirst start toward) ks ∧ ks.Pairwise (· ≤ ·) := by
  obtain ⟨i, rfl⟩ := exists_label live
  obtain ⟨ks, distances, sorted⟩ :=
    g.snapshot.digraph.distances_breadthFirst (g.direction.way toward) i
  refine ⟨ks, ?_, sorted⟩
  rw [breadthFirst, discovered_label, List.forall₂_map_left_iff]
  exact distances.imp fun j k => valid.distance_label.mp

theorem Valid.drains (valid : g.Valid) (live : g.containsVertex start = true) :
    Drains (g.around (g.direction.way toward)) [start] [start] (g.breadthFirst start toward) := by
  obtain ⟨i, rfl⟩ := exists_label live
  rw [breadthFirst, discovered_label]
  exact (g.snapshot.digraph.drains_breadthFirst _ i).map (fun _ _ => label_inj)
    fun j => (valid.map_around _ j).symm

theorem Valid.explores (valid : g.Valid) (live : g.containsVertex start = true) :
    ∃ trees, Explores (g.around (g.direction.way toward)) [] [start] trees ∧
      g.depthFirst start toward = trees.preorder := by
  obtain ⟨i, rfl⟩ := exists_label live
  obtain ⟨trees, explores, listed⟩ :=
    g.snapshot.digraph.explores_depthFirst (g.direction.way toward) i
  refine ⟨trees.map g.snapshot.label, ?_, ?_⟩
  · exact explores.map (fun _ _ => label_inj) fun j => (valid.map_around _ j).symm
  · rw [depthFirst, discovered_label, Trees.preorder_map, ← listed]
    rfl

/-- Whatever the graph, its changes alone tell in which order the searches from a vertex list what
can be reached. -/
theorem discovery_of_run [Inhabited N] [Inhabited E] (direction : Direction)
    (ms : List (Mutation N E)) {start : Vertex}
    (live : ((empty direction : Graph N E).after ms).containsVertex start = true)
    (toward : Toward) :
    let g₀ : Graph N E := empty direction
    let g := g₀.after ms
    let way := g.direction.way toward
    let near := g.breadthFirst start toward
    let deep := g.depthFirst start toward
    g.Discovers way start near ∧ g.Discovers way start deep ∧
      (∃ ks, List.Forall₂ (Distance (g.Passes way) start) near ks ∧ ks.Pairwise (· ≤ ·)) ∧
      ∃ l, Ledger.Run (.empty direction) ms (g₀.replies ms) l ∧
        (∀ v, (l.around .against v).Pairwise (·.index < ·.index)) ∧
        (∀ vs, Drains (l.around way) [start] [start] vs ↔ vs = near) ∧
        ∃ trees, (∀ trees', Explores (l.around way) [] [start] trees' ↔ trees' = trees) ∧
          deep = trees.preorder := by
  intro g₀ g way near deep
  have valid : g.Valid := valid_after (valid_empty direction) ms
  obtain ⟨l, run, tracks⟩ := (Tracks.empty direction : Tracks g₀ (.empty direction)).run ms
  obtain ⟨trees, explores, listed⟩ : ∃ trees, Explores (g.around way) [] [start] trees ∧
      deep = trees.preorder := valid.explores live
  refine ⟨valid.discovers live, valid.discovers live, valid.distances_discovered live, l, run,
    tracks.sorted_around, fun vs => ?_, trees, fun trees' => ?_, listed⟩
  · rw [tracks.around]
    constructor
    · exact (valid.drains live).unique
    · rintro rfl
      exact valid.drains live
  · rw [tracks.around]
    constructor
    · exact explores.unique
    · rintro rfl
      exact explores

/-- On a cycle of which one vertex is in a slot used twice, with a way that is taken at once by the
one search and late by the other. -/
theorem discovery_of_run_cycle :
    let ms : List (Mutation Nat Nat) :=
      [.addVertexWith 0, .addVertexWith 1, .addVertexWith 2, .addVertexWith 3, .removeVertex ⟨1, 0⟩,
        .addVertexWith 4, .addEdge ⟨0, 0⟩ ⟨3, 0⟩, .addEdge ⟨0, 0⟩ ⟨2, 0⟩, .addEdge ⟨3, 0⟩ ⟨1, 1⟩,
        .addEdge ⟨1, 1⟩ ⟨0, 0⟩, .addEdge ⟨2, 0⟩ ⟨3, 0⟩]
    let g₀ : Graph Nat Nat := empty .parentToChild
    ∃ l, Ledger.Run (.empty .parentToChild) ms (g₀.replies ms) l ∧
      Drains (l.around .along) [⟨0, 0⟩] [⟨0, 0⟩] [⟨0, 0⟩, ⟨3, 0⟩, ⟨2, 0⟩, ⟨1, 1⟩] ∧
      ∃ trees, Explores (l.around .along) [] [⟨0, 0⟩] trees ∧
        trees.preorder = [⟨0, 0⟩, ⟨3, 0⟩, ⟨1, 1⟩, ⟨2, 0⟩] := by
  intro ms g₀
  have near : (g₀.after ms).breadthFirst ⟨0, 0⟩ .leaves = [⟨0, 0⟩, ⟨3, 0⟩, ⟨2, 0⟩, ⟨1, 1⟩] := by
    dsimp only [g₀, ms]
    cbv
  have deep : (g₀.after ms).depthFirst ⟨0, 0⟩ .leaves = [⟨0, 0⟩, ⟨3, 0⟩, ⟨1, 1⟩, ⟨2, 0⟩] := by
    dsimp only [g₀, ms]
    cbv
  have live : (g₀.after ms).containsVertex ⟨0, 0⟩ = true := by decide
  obtain ⟨-, -, -, l, run, -, queued, trees, walked, preorder⟩ :=
    discovery_of_run .parentToChild ms live .leaves
  exact ⟨l, run, (queued _).mpr near.symm, trees, (walked trees).mpr rfl, preorder.symm.trans deep⟩

end Graph

end Provenance
