import Mathlib
import Provenance.Proofs.Graph.LongestPaths

/-! # Distances

The distances from a vertex are the lengths of the best walks that lead toward the leaves. They are
read off the walks from there alone, so that a cycle elsewhere is not noticed.
-/

open Relation (TransGen ReflTransGen)

namespace Provenance

/-! ## The best of many lengths -/

/-- The length that is looked for among others: the least or the greatest. -/
def Extent.Best : Extent → Set Nat → Nat → Prop
  | .shortest => IsLeast
  | .longest => IsGreatest

theorem Extent.best_iff {extent : Extent} {lengths : Set Nat} {d : Nat} :
    extent.Best lengths d ↔ d ∈ lengths ∧ ∀ k ∈ lengths, extent.improves k d = false := by
  cases extent with
  | shortest => simp [Best, IsLeast, lowerBounds, improves]
  | longest => simp [Best, IsGreatest, upperBounds, improves]

/-! ## Walks that start alike -/

section Alike

variable {α : Type} {r r' : α → α → Prop} {a b c : α}

/-- The same steps lead on from whatever can be reached, so the same walks start there. -/
theorem steps_alike (alike : ∀ b c, ReflTransGen r a b → (r' b c ↔ r b c)) {k : Nat} :
    Steps r' a k b ↔ Steps r a k b := by
  constructor
  · intro steps
    induction steps with
    | refl => exact .refl
    | tail _ step ih => exact ih.tail ((alike _ _ ih.way).mp step)
  · intro steps
    induction steps with
    | refl => exact .refl
    | tail before step ih => exact ih.tail ((alike _ _ before.way).mpr step)

theorem chain_alike (alike : ∀ b c, ReflTransGen r a b → (r' b c ↔ r b c))
    (reached : ReflTransGen r a b) : TransGen r' b c ↔ TransGen r b c := by
  constructor
  · intro chain
    induction chain with
    | single step => exact .single ((alike _ _ reached).mp step)
    | tail _ step ih => exact ih.tail ((alike _ _ (reached.trans ih.to_reflTransGen)).mp step)
  · intro chain
    induction chain with
    | single step => exact .single ((alike _ _ reached).mpr step)
    | tail before step ih =>
        exact ih.tail ((alike _ _ (reached.trans before.to_reflTransGen)).mpr step)

end Alike

namespace Graph

variable {N E : Type} {g g' : Graph N E} {start : Vertex} {extent : Extent}

/-! ## What is listed -/

/-- The list pairs each vertex that a walk from `start` toward the leaves can end at with the length
of the best of these walks. -/
structure ListsDistances (g : Graph N E) (extent : Extent) (start : Vertex)
    (distances : List (Vertex × Nat)) : Prop where
  ordered : (distances.map Prod.fst).Sublist g.vertexList
  once : (distances.map Prod.fst).Nodup
  mem_fst : ∀ v, v ∈ distances.map Prod.fst ↔
    ReflTransGen (g.Passes (g.direction.way .leaves)) start v
  best : ∀ v d, (v, d) ∈ distances ↔
    extent.Best {k | Steps (g.Passes (g.direction.way .leaves)) start k v} d
  start_mem : (start, 0) ∈ distances

/-- Only one list has these entries in storage order. -/
theorem ListsDistances.unique {distances distances' : List (Vertex × Nat)}
    (lists : g.ListsDistances extent start distances)
    (ordered : (distances'.map Prod.fst).Sublist g.vertexList)
    (same : ∀ entry, entry ∈ distances' ↔ entry ∈ distances) : distances' = distances := by
  let earlier (p q : Vertex × Nat) : Prop := p.1.index < q.1.index
  have sorted : ∀ {l : List (Vertex × Nat)}, (l.map Prod.fst).Sublist g.vertexList →
      l.Pairwise earlier := by
    intro l ordered
    have indices : (l.map Prod.fst).Pairwise (·.index < ·.index) :=
      g.vertices.handles_sorted.sublist ordered
    rwa [List.pairwise_map] at indices
  have antisymm : Std.Antisymm earlier := ⟨fun _ _ lt gt => absurd gt (Nat.lt_asymm lt)⟩
  have irrefl : Std.Irrefl earlier := ⟨fun _ => Nat.lt_irrefl _⟩
  exact List.Pairwise.eq_of_mem_iff (sorted ordered) (sorted lists.ordered) same

theorem distances_error_iff :
    g.distances start extent = .error (.notAcyclic .distances) ↔
      ¬ ∃ distances, g.distances start extent = .ok distances := by
  unfold distances
  dsimp only
  cases g.snapshot.number? start with
  | none => simp [pure, Except.pure]
  | some a =>
      dsimp only
      cases g.snapshot.digraph.routes? (g.direction.way .leaves) extent a <;>
        simp [Operation.require]

theorem Valid.distances_error_iff (valid : g.Valid) (live : g.containsVertex start = true) :
    g.distances start extent = .error (.notAcyclic .distances) ↔
      g.Snarled (g.direction.way .leaves) start := by
  obtain ⟨a, rfl⟩ := exists_label live
  rw [Graph.distances_error_iff, g.distances_label, valid.routes?_isSome_iff, not_not]

/-- The vertices that some routes lead to, with their distances. -/
def milestones (g : Graph N E) (routes : Routes g.snapshot.size) : List (Vertex × Nat) :=
  (List.finRange g.snapshot.size).filterMap fun i =>
    (routes.distance? i).map fun distance => (g.snapshot.label i, distance)

theorem mem_milestones {routes : Routes g.snapshot.size} {v : Vertex} {d : Nat} :
    (v, d) ∈ g.milestones routes ↔ ∃ i, g.snapshot.label i = v ∧ routes.distance? i = some d := by
  simp only [milestones, List.mem_filterMap, List.mem_finRange, true_and, Option.map_eq_some_iff,
    Prod.mk.injEq]
  constructor
  · rintro ⟨i, _, known, label, rfl⟩
    exact ⟨i, label, known⟩
  · rintro ⟨i, label, known⟩
    exact ⟨i, d, known, label, rfl⟩

theorem sublist_milestones (routes : Routes g.snapshot.size) :
    ((g.milestones routes).map Prod.fst).Sublist g.vertexList := by
  rw [← g.map_label_finRange]
  refine map_filterMap_sublist (fun i entry made => ?_) _
  obtain ⟨d, -, rfl⟩ := Option.map_eq_some_iff.mp made
  rfl

theorem distances_eq_ok {a : Fin g.snapshot.size} {distances : List (Vertex × Nat)}
    (found : g.distances (g.snapshot.label a) extent = .ok distances) :
    ∃ routes, g.snapshot.digraph.routes? (g.direction.way .leaves) extent a = some routes ∧
      distances = g.milestones routes := by
  unfold Graph.distances at found
  dsimp only at found
  rw [number?_eq_some.mpr rfl] at found
  dsimp only at found
  cases searched : g.snapshot.digraph.routes? (g.direction.way .leaves) extent a with
  | none => simp [searched, Operation.require] at found
  | some routes =>
      rw [searched] at found
      exact ⟨routes, rfl, (Except.ok.inj found).symm⟩

/-- A milestone is as far away as the best walk to it. -/
theorem Valid.mem_milestones_iff (valid : g.Valid) {a : Fin g.snapshot.size}
    {routes : Routes g.snapshot.size}
    (searched : g.snapshot.digraph.routes? (g.direction.way .leaves) extent a = some routes)
    {v : Vertex} {d : Nat} :
    (v, d) ∈ g.milestones routes ↔ extent.Best
      {k | Steps (g.Passes (g.direction.way .leaves)) (g.snapshot.label a) k v} d := by
  have settled := (Digraph.routes?_eq_some searched).1
  have known_iff : ∀ i, routes.distance? i = some d ↔ extent.Best
      {k | Steps (g.Passes (g.direction.way .leaves)) (g.snapshot.label a) k (g.snapshot.label i)}
      d := by
    intro i
    rw [settled.distance?_eq_some, Extent.best_iff]
    simp only [Set.mem_ofPred_eq, valid.steps_leads]
  rw [mem_milestones]
  constructor
  · rintro ⟨i, rfl, known⟩
    exact (known_iff i).mp known
  · intro best
    have steps := (Extent.best_iff.mp best).1
    obtain ⟨i, rfl⟩ := exists_label (valid.live_of_steps (g.label_live a) steps)
    exact ⟨i, rfl, (known_iff i).mpr best⟩

theorem Valid.listsDistances (valid : g.Valid) (live : g.containsVertex start = true)
    {distances : List (Vertex × Nat)} (found : g.distances start extent = .ok distances) :
    g.ListsDistances extent start distances := by
  obtain ⟨a, rfl⟩ := exists_label live
  obtain ⟨routes, searched, rfl⟩ := distances_eq_ok found
  have settled := (Digraph.routes?_eq_some searched).1
  refine ⟨sublist_milestones routes, g.vertices.handles_nodup.sublist (sublist_milestones routes),
    fun v => ⟨fun listed => ?_, fun way => ?_⟩, fun v d => valid.mem_milestones_iff searched, ?_⟩
  · obtain ⟨⟨v, d⟩, entry, rfl⟩ := List.mem_map.mp listed
    have steps : Steps (g.Passes (g.direction.way .leaves)) (g.snapshot.label a) d v :=
      (Extent.best_iff.mp ((valid.mem_milestones_iff searched).mp entry)).1
    exact steps.way
  · obtain ⟨i, rfl⟩ := exists_label (valid.live_of_way (g.label_live a) way)
    obtain ⟨d, known⟩ := Routes.reaches_iff.mp (settled.reaches_iff.mpr (valid.way_leads.mpr way))
    exact List.mem_map.mpr ⟨_, mem_milestones.mpr ⟨i, rfl, known⟩, rfl⟩
  · exact mem_milestones.mpr ⟨a, rfl, Routes.distance?_eq_some.mpr ⟨none, settled.started⟩⟩

theorem Valid.exists_distances (valid : g.Valid) (live : g.containsVertex start = true)
    (smooth : ¬ g.Snarled (g.direction.way .leaves) start) (extent : Extent) :
    ∃ distances, g.distances start extent = .ok distances ∧
      g.ListsDistances extent start distances := by
  have answered : ¬ g.distances start extent = .error (.notAcyclic .distances) :=
    (valid.distances_error_iff live).not.mpr smooth
  obtain ⟨distances, found⟩ := Classical.not_not.mp (Graph.distances_error_iff.not.mp answered)
  exact ⟨distances, found, valid.listsDistances live found⟩

/-! ## What lies elsewhere -/

/-- The graphs have the same vertices, and the same edges to take from each vertex that can be
reached from `start` toward the leaves. -/
structure AlikeFrom (g g' : Graph N E) (start : Vertex) : Prop where
  direction : g'.direction = g.direction
  vertexList : g'.vertexList = g.vertexList
  passes : ∀ u w, ReflTransGen (g.Passes (g.direction.way .leaves)) start u →
    (g'.Passes (g.direction.way .leaves) u w ↔ g.Passes (g.direction.way .leaves) u w)

namespace AlikeFrom

theorem snarled_iff (alike : g.AlikeFrom g' start) :
    g'.Snarled (g.direction.way .leaves) start ↔ g.Snarled (g.direction.way .leaves) start := by
  refine exists_congr fun u => ?_
  have ways : ReflTransGen (g'.Passes (g.direction.way .leaves)) start u ↔
      ReflTransGen (g.Passes (g.direction.way .leaves)) start u := by
    rw [Relation.reflTransGen_iff_eq_or_transGen, Relation.reflTransGen_iff_eq_or_transGen,
      chain_alike alike.passes .refl]
  rw [ways, ← g.cycle_passes, ← g'.cycle_passes]
  exact and_congr_right fun reached => chain_alike alike.passes reached

/-- Edges that cannot be reached have no influence, whether they lie on cycles or not. -/
theorem distances (alike : g.AlikeFrom g' start) (valid : g.Valid) (valid' : g'.Valid)
    (live : g.containsVertex start = true) :
    g'.distances start extent = g.distances start extent := by
  have live' : g'.containsVertex start = true := by
    have listed : start ∈ g'.vertexList := alike.vertexList ▸ Arena.mem_handles.mpr live
    exact Arena.mem_handles.mp listed
  by_cases snarled : g.Snarled (g.direction.way .leaves) start
  · rw [(valid.distances_error_iff live).mpr snarled, valid'.distances_error_iff live',
      alike.direction, alike.snarled_iff]
    exact snarled
  · have smooth' : ¬ g'.Snarled (g'.direction.way .leaves) start := by
      rwa [alike.direction, alike.snarled_iff]
    obtain ⟨distances, found, lists⟩ := valid.exists_distances live snarled extent
    obtain ⟨distances', found', lists'⟩ := valid'.exists_distances live' smooth' extent
    have ordered : (distances'.map Prod.fst).Sublist g.vertexList :=
      alike.vertexList ▸ lists'.ordered
    rw [found, found']
    refine congrArg Except.ok (lists.unique ordered ?_)
    rintro ⟨v, d⟩
    rw [lists.best, lists'.best, alike.direction]
    simp only [steps_alike alike.passes]

end AlikeFrom

/-- Whatever the graph, only a cycle that can be reached leaves the distances unknown, and what cannot
be reached does not count. -/
theorem distances_of_run [Inhabited N] [Inhabited E] (direction : Direction)
    (ms : List (Mutation N E)) (extent : Extent) (start : Vertex)
    (live : ((empty direction : Graph N E).after ms).containsVertex start = true) :
    let g := (empty direction : Graph N E).after ms
    let result := g.distances start extent
    (result = .error (.notAcyclic .distances) ↔ g.Snarled (g.direction.way .leaves) start) ∧
      (result ≠ .error (.notAcyclic .distances) →
        ∃ distances, result = .ok distances ∧ g.ListsDistances extent start distances) ∧
      ∀ ms' : List (Mutation N E), g.AlikeFrom ((empty direction).after ms') start →
        ((empty direction).after ms').distances start extent = result := by
  intro g result
  have valid : g.Valid := valid_after (valid_empty direction) ms
  refine ⟨valid.distances_error_iff live, fun answered => ?_, fun ms' alike => ?_⟩
  · exact valid.exists_distances live ((valid.distances_error_iff live).not.mp answered) extent
  · exact alike.distances valid (valid_after (valid_empty direction) ms') live

/-- A shortcut past the middle of a chain, in which a slot is used twice, and above it a vertex that
is its own parent. -/
theorem distances_of_run_shortcut :
    let ms : List (Mutation Nat Nat) :=
      [.addVertexWith 0, .addVertexWith 1, .addVertexWith 2, .addVertexWith 3, .removeVertex ⟨1, 0⟩,
        .addVertexWith 4, .addEdge ⟨1, 1⟩ ⟨0, 0⟩, .addEdge ⟨2, 0⟩ ⟨1, 1⟩, .addEdge ⟨2, 0⟩ ⟨0, 0⟩,
        .addEdge ⟨0, 0⟩ ⟨3, 0⟩, .addEdge ⟨3, 0⟩ ⟨3, 0⟩]
    let g := (empty .childToParent).after ms
    g.ListsDistances .longest ⟨0, 0⟩ [(⟨0, 0⟩, 0), (⟨1, 1⟩, 1), (⟨2, 0⟩, 2)] ∧
      g.Snarled (g.direction.way .leaves) ⟨3, 0⟩ := by
  intro ms g
  have longest : g.distances ⟨0, 0⟩ .longest = .ok [(⟨0, 0⟩, 0), (⟨1, 1⟩, 1), (⟨2, 0⟩, 2)] := by
    dsimp only [g, ms]
    cbv
  have entangled : g.distances ⟨3, 0⟩ .shortest = .error (.notAcyclic .distances) := by
    dsimp only [g, ms]
    cbv
  have below := distances_of_run .childToParent ms .longest ⟨0, 0⟩ (by decide)
  have above := distances_of_run .childToParent ms .shortest ⟨3, 0⟩ (by decide)
  obtain ⟨_, found, lists⟩ := below.2.1 fun failed => by cases longest.symm.trans failed
  obtain rfl := Except.ok.inj (longest.symm.trans found)
  exact ⟨lists, above.1.mp entangled⟩

end Graph

end Provenance
