import Mathlib
import Provenance.Proofs.Graph.Found
import Provenance.Proofs.Graph.Runs

/-! # Shortest paths

A search from a vertex settles the fewest steps to every other one, so the way back from there is a
shortest path. A second search is made only if the first one misses, and each of them gives up on
the cycles that it can reach.
-/

open Relation (TransGen ReflTransGen)

namespace Provenance

/-- No path with the same ends has fewer vertices. -/
structure ShortestPath {α : Type} (r : α → α → Prop) (a b : α) (path : List α) : Prop where
  is_path : IsPath r a b path
  least : ∀ other, IsPath r a b other → path.length ≤ other.length

namespace ShortestPath

variable {α : Type} {r : α → α → Prop} {a b : α} {path : List α}

theorem of_steps (is_path : IsPath r a b path)
    (fewest : ∀ k, Steps r a k b → path.length ≤ k + 1) : ShortestPath r a b path where
  is_path := is_path
  least := by
    intro other between
    obtain ⟨k, length, steps⟩ := between.exists_steps
    have short := fewest k steps
    omega

theorem reverse (shortest : ShortestPath r a b path) :
    ShortestPath (Function.swap r) b a path.reverse where
  is_path := shortest.is_path.reverse
  least := by
    intro other between
    have short := shortest.least other.reverse between.reverse
    rwa [List.length_reverse] at short ⊢

end ShortestPath

/-- A shortest path along the steps, one against them if there is none, or nothing if there is no
path either way. -/
inductive ShortestEitherWay {α : Type} (r : α → α → Prop) (a b : α) : List α → Prop where
  | forth {path : List α} (shortest : ShortestPath r a b path) : ShortestEitherWay r a b path
  | back {path : List α} (no_way : ¬ ReflTransGen r a b)
      (shortest : ShortestPath (Function.swap r) a b path) : ShortestEitherWay r a b path
  | missed (no_way : ¬ ReflTransGen r a b) (no_way_back : ¬ ReflTransGen r b a) :
      ShortestEitherWay r a b []

namespace Graph

variable {N E : Type} {g : Graph N E} {v w : Vertex}

theorem Valid.steps_joined (valid : g.Valid) {k : Nat} {i j : Fin g.snapshot.size} :
    Steps g.snapshot.digraph.Edge i k j ↔
      Steps g.Joined (g.snapshot.label i) k (g.snapshot.label j) :=
  steps_label (fun _ _ => valid.edge_snapshot) fun _ _ joined => (valid.live_of_joined joined).2

/-- The way back from a vertex that was reached, turned round. -/
theorem Valid.shortest_chain (valid : g.Valid) {a b : Fin g.snapshot.size}
    {routes : Routes g.snapshot.size}
    (searched : g.snapshot.digraph.routes? .along .shortest a = some routes)
    (reached : routes.reaches b = true) :
    ShortestPath g.Joined (g.snapshot.label a) (g.snapshot.label b)
      ((routes.chainTo b).reverse.map g.snapshot.label) := by
  apply ShortestPath.of_steps
  · exact (Digraph.isPath_chainTo searched reached).map fun _ _ => valid.edge_snapshot.mp
  · intro k steps
    obtain ⟨j, least, length, -⟩ := Digraph.shortest_chain searched reached
    have fewest := least.least k (valid.steps_joined.mpr steps)
    rw [List.length_map, List.length_reverse, length]
    omega

/-! ## Answers -/

theorem shortestPath_label (g : Graph N E) (a b : Fin g.snapshot.size) :
    g.shortestPath (g.snapshot.label a) (g.snapshot.label b) =
      match g.snapshot.digraph.between? a b with
      | some path => .ok (path.map g.snapshot.label)
      | none => .error (.notAcyclic .shortestPath) := by
  rw [shortestPath_eq, Snapshot.shortestPath, number?_eq_some.mpr rfl, number?_eq_some.mpr rfl]
  dsimp only
  cases g.snapshot.digraph.between? a b <;> rfl

theorem shortestPath_of_dead (dead : g.containsVertex v = false ∨ g.containsVertex w = false) :
    g.shortestPath v w = .ok [] := by
  rw [shortestPath_eq, Snapshot.shortestPath]
  rcases dead with dead | dead
  · rw [number?_eq_none.mpr dead]
  · rw [number?_eq_none.mpr dead]
    cases g.snapshot.number? v <;> rfl

theorem shortestPath_self (live : g.containsVertex v = true) : g.shortestPath v v = .ok [v] := by
  obtain ⟨a, rfl⟩ := exists_label live
  rw [shortestPath_label, Digraph.between?, if_pos rfl]
  rfl

theorem shortestPath_error_iff :
    g.shortestPath v w = .error (.notAcyclic .shortestPath) ↔
      ¬ ∃ path, g.shortestPath v w = .ok path := by
  rw [shortestPath_eq, Snapshot.shortestPath]
  cases g.snapshot.number? v with
  | none => simp
  | some a =>
      cases g.snapshot.number? w with
      | none => simp
      | some b =>
          dsimp only
          cases g.snapshot.digraph.between? a b <;> simp

theorem Valid.shortestPath_error_iff (valid : g.Valid) (live : g.containsVertex v = true)
    (live' : g.containsVertex w = true) (apart : v ≠ w) :
    g.shortestPath v w = .error (.notAcyclic .shortestPath) ↔
      ¬ Clear g.Joined v ∨ ¬ ReflTransGen g.Joined v w ∧ ¬ Clear g.Joined w := by
  rw [Graph.shortestPath_error_iff, valid.shortestPath_ok_iff live live', Findable,
    or_iff_right apart, not_and_or, not_or]

theorem Valid.shortestEitherWay (valid : g.Valid) (live : g.containsVertex v = true)
    (live' : g.containsVertex w = true) (apart : v ≠ w) {path : List Vertex}
    (found : g.shortestPath v w = .ok path) : ShortestEitherWay g.Joined v w path := by
  obtain ⟨a, rfl⟩ := exists_label live
  obtain ⟨b, rfl⟩ := exists_label live'
  rw [shortestPath_label] at found
  cases between : g.snapshot.digraph.between? a b with
  | none => simp [between] at found
  | some numbers =>
      rw [between] at found
      obtain rfl := Except.ok.inj found
      rcases Digraph.search_of_between? between with ⟨same, -⟩ | ⟨forth, -, searched, reached, rfl⟩ |
        ⟨back, other, searched, reached, rfl⟩ | ⟨missed, missed', rfl⟩
      · exact absurd (congrArg _ same) apart
      · exact .forth (valid.shortest_chain searched reached)
      · have shortest := (valid.shortest_chain searched reached).reverse
        rw [← List.map_reverse, List.reverse_reverse] at shortest
        -- a way to `w` would close a cycle that the second search had met
        have no_way : ¬ ReflTransGen g.Joined (g.snapshot.label a) (g.snapshot.label b) := by
          intro way
          exact (Digraph.clear_of_routes searched).no_way_back other.symm
            ((Digraph.reaches_along searched).mp reached) (valid.reflTransGen_snapshot.mpr way)
        exact .back no_way shortest
      · rw [valid.reflTransGen_snapshot] at missed missed'
        exact .missed missed missed'

/-- On whatever handles, only a cycle that can be reached leaves the search without an answer. -/
theorem shortest_paths_of_run [Inhabited N] [Inhabited E] (direction : Direction)
    (ms : List (Mutation N E)) (v w : Vertex) :
    let g := (empty direction : Graph N E).after ms
    let result := g.shortestPath v w
    (g.containsVertex v = false ∨ g.containsVertex w = false → result = .ok []) ∧
      (g.containsVertex v = true → v = w → result = .ok [v]) ∧
      (g.containsVertex v = true → g.containsVertex w = true → v ≠ w →
        (result = .error (.notAcyclic .shortestPath) ↔
          ¬ Clear g.Joined v ∨ ¬ ReflTransGen g.Joined v w ∧ ¬ Clear g.Joined w) ∧
        (result ≠ .error (.notAcyclic .shortestPath) →
          ∃ path, result = .ok path ∧ ShortestEitherWay g.Joined v w path)) := by
  intro g result
  have valid : g.Valid := valid_after (valid_empty direction) ms
  refine ⟨shortestPath_of_dead, fun live same => ?_, fun live live' apart => ⟨?_, fun clear => ?_⟩⟩
  · subst same
    exact shortestPath_self live
  · exact valid.shortestPath_error_iff live live' apart
  · obtain ⟨path, found⟩ := Classical.not_not.mp (shortestPath_error_iff.not.mp clear)
    exact ⟨path, found, valid.shortestEitherWay live live' apart found⟩

/-- A shortcut past the middle of a chain, found from its end, and a cycle above its first
vertex. -/
theorem shortest_paths_of_run_shortcut :
    let ms : List (Mutation Nat Nat) :=
      [.addVertexWith 0, .addVertexWith 1, .addVertexWith 2, .addVertexWith 3,
        .addEdge ⟨0, 0⟩ ⟨1, 0⟩, .addEdge ⟨1, 0⟩ ⟨2, 0⟩, .addEdge ⟨0, 0⟩ ⟨2, 0⟩,
        .addEdge ⟨3, 0⟩ ⟨3, 0⟩, .addEdge ⟨3, 0⟩ ⟨0, 0⟩]
    let g := (empty .childToParent).after ms
    ShortestEitherWay g.Joined ⟨2, 0⟩ ⟨0, 0⟩ [⟨2, 0⟩, ⟨0, 0⟩] ∧
      (¬ Clear g.Joined ⟨0, 0⟩ ∨
        ¬ ReflTransGen g.Joined ⟨0, 0⟩ ⟨3, 0⟩ ∧ ¬ Clear g.Joined ⟨3, 0⟩) := by
  intro ms g
  have back : g.shortestPath ⟨2, 0⟩ ⟨0, 0⟩ = .ok [⟨2, 0⟩, ⟨0, 0⟩] := by
    dsimp only [g, ms]
    cbv
  have entangled : g.shortestPath ⟨0, 0⟩ ⟨3, 0⟩ = .error (.notAcyclic .shortestPath) := by
    dsimp only [g, ms]
    cbv
  have answers := fun v w => shortest_paths_of_run .childToParent ms v w
  have found := ((answers ⟨2, 0⟩ ⟨0, 0⟩).2.2 (by decide) (by decide) (by decide)).2
  obtain ⟨path, listed, shortest⟩ := found fun failed => by cases back.symm.trans failed
  obtain rfl := Except.ok.inj (back.symm.trans listed)
  have blocked := ((answers ⟨0, 0⟩ ⟨3, 0⟩).2.2 (by decide) (by decide) (by decide)).1
  exact ⟨shortest, blocked.mp entangled⟩

end Graph

end Provenance
