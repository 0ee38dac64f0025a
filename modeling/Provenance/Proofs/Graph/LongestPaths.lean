import Mathlib
import Provenance.Proofs.Graph.Found
import Provenance.Proofs.Graph.Runs

/-! # Longest paths

A longest path through a vertex is a longest walk to the roots, turned round, and then one to the
leaves. Only the cycles that one of these walks could reach stand in the way.
-/

open Relation (TransGen ReflTransGen)

namespace Provenance.Graph

variable {N E : Type} {g : Graph N E} {v u : Vertex} {way : Way}

/-! ## The farthest vertices -/

/-- The vertex `u` is the first in storage order of those that the longest walks from `v` lead to,
and `d` is their length. -/
structure Farthest (g : Graph N E) (way : Way) (v u : Vertex) (d : Nat) : Prop where
  steps : Steps (g.Passes way) v d u
  most : ∀ k w, Steps (g.Passes way) v k w → k ≤ d
  first : ∀ w, Steps (g.Passes way) v d w → w ≠ u → List.Sublist [u, w] g.vertexList

/-- No step leads on from a farthest vertex. -/
theorem Farthest.last {d : Nat} (farthest : g.Farthest way v u d) (w : Vertex) :
    ¬ g.Passes way u w := by
  intro step
  have longer := farthest.most (d + 1) w (farthest.steps.tail step)
  omega

theorem Valid.steps_leads (valid : g.Valid) {k : Nat} {i j : Fin g.snapshot.size} :
    Steps (Leads (g.snapshot.digraph.neighbors way)) i k j ↔
      Steps (g.Passes way) (g.snapshot.label i) k (g.snapshot.label j) :=
  steps_label (fun _ _ => valid.leads_iff) fun _ _ passes => (valid.live_of_passes passes).2

theorem Valid.live_of_steps (valid : g.Valid) (live : g.containsVertex v = true) {k : Nat}
    (steps : Steps (g.Passes way) v k u) : g.containsVertex u = true :=
  valid.live_of_way live steps.way

theorem Valid.farthest (valid : g.Valid) {a : Fin g.snapshot.size}
    {routes : Routes g.snapshot.size}
    (found : g.snapshot.digraph.routes? way .longest a = some routes) :
    g.Farthest way (g.snapshot.label a) (g.snapshot.label (routes.farthest?.getD a))
      routes.depth := by
  have settled := (Digraph.routes?_eq_some found).1
  have best := Digraph.best_farthest found
  -- what a search knows of a walk is no less than its length
  have known : ∀ k w, Steps (g.Passes way) (g.snapshot.label a) k w →
      ∃ j e, g.snapshot.label j = w ∧ routes.distance? j = some e ∧ k ≤ e ∧ e ≤ routes.depth := by
    intro k w steps
    obtain ⟨j, rfl⟩ := exists_label (valid.live_of_steps (g.label_live a) steps)
    obtain ⟨e, distance, good⟩ := settled.asGood (valid.steps_leads.mpr steps)
    have longer : k ≤ e := by simpa [Extent.improves] using good
    exact ⟨j, e, rfl, distance, longer, best.most j (List.mem_finRange j) e distance⟩
  refine ⟨valid.steps_leads.mp (settled.steps best.distance), fun k w steps => ?_,
    fun w steps other => ?_⟩
  · obtain ⟨j, e, -, -, longer, bounded⟩ := known k w steps
    omega
  · obtain ⟨j, e, rfl, distance, longer, bounded⟩ := known _ w steps
    obtain rfl : e = routes.depth := Nat.le_antisymm bounded longer
    have after := best.first j (List.mem_finRange j) distance fun same => other (by rw [same])
    have labels := after.map g.snapshot.label
    rwa [g.map_label_finRange] at labels

/-! ## Cycles on the way -/

/-- A walk the given way can reach a vertex that lies on a cycle. -/
def Snarled (g : Graph N E) (way : Way) (v : Vertex) : Prop :=
  ∃ u, ReflTransGen (g.Passes way) v u ∧ TransGen g.Joined u u

theorem cycle_passes (g : Graph N E) (way : Way) (u : Vertex) :
    TransGen (g.Passes way) u u ↔ TransGen g.Joined u u := by
  cases way with
  | along => rfl
  | against => exact Relation.transGen_swap

theorem Valid.routes?_isSome_iff (valid : g.Valid) {extent : Extent} {a : Fin g.snapshot.size} :
    (g.snapshot.digraph.routes? way extent a).isSome ↔ ¬ g.Snarled way (g.snapshot.label a) := by
  rw [Digraph.routes?_isSome_iff]
  constructor
  · rintro clear ⟨u, reached, cycle⟩
    obtain ⟨j, rfl⟩ := exists_label (valid.live_of_chain cycle).1
    have around := (g.cycle_passes way _).mpr cycle
    exact clear j (valid.way_leads.mpr reached) ((chain_label (fun _ _ => valid.leads_iff)
      fun _ _ passes => (valid.live_of_passes passes).2).mpr around)
  · intro smooth j reached cycle
    have around := cycle.lift g.snapshot.label fun _ _ => valid.leads_iff.mp
    exact smooth ⟨_, valid.way_leads.mp reached, (g.cycle_passes way _).mp around⟩

theorem longestPath_error_iff :
    g.longestPath v = .error (.notAcyclic .longestPath) ↔
      ¬ ∃ path, g.longestPath v = .ok path := by
  rw [longestPath_eq, Snapshot.longestPath]
  cases g.snapshot.number? v with
  | none => simp
  | some a =>
      dsimp only
      split
      · cases g.direction <;> simp
      · simp

theorem Valid.longestPath_error_iff (valid : g.Valid) (live : g.containsVertex v = true) :
    g.longestPath v = .error (.notAcyclic .longestPath) ↔
      ∃ toward, g.Snarled (g.direction.way toward) v := by
  obtain ⟨a, rfl⟩ := exists_label live
  rw [Graph.longestPath_error_iff, g.longestPath_label, valid.routes?_isSome_iff,
    valid.routes?_isSome_iff, not_and_or, not_not, not_not]
  constructor
  · intro either
    cases either with
    | inl above => exact ⟨.roots, above⟩
    | inr below => exact ⟨.leaves, below⟩
  · intro ⟨toward, snarled⟩
    cases toward with
    | roots => exact .inl snarled
    | leaves => exact .inr snarled

/-! ## The path through a vertex -/

/-- A longest path through `v`, from a root to a leaf of the graph or, if the edges point to the
parents, from the leaf to the root. -/
structure LongestThrough (g : Graph N E) (v root leaf : Vertex) (path : List Vertex) : Prop where
  is_path : IsPath g.Joined (g.direction.orient root leaf).1 (g.direction.orient root leaf).2 path
  once : path.count v = 1
  longest : ∀ other : List Vertex, other.IsChain g.Joined → v ∈ other → other.length ≤ path.length
  root_mem : root ∈ g.roots
  leaf_mem : leaf ∈ g.leaves
  above : ∃ d, g.Farthest (g.direction.way .roots) v root d
  below : ∃ d, g.Farthest (g.direction.way .leaves) v leaf d

theorem length_le_of_farthest {root leaf : Vertex} {d e : Nat}
    (above : g.Farthest (g.direction.way .roots) v root d)
    (below : g.Farthest (g.direction.way .leaves) v leaf e) {other : List Vertex}
    (steps : other.IsChain g.Joined) (listed : v ∈ other) : other.length ≤ d + 1 + e := by
  obtain ⟨j, k, s, t, before, after, length⟩ := exists_steps_through steps listed
  cases direction : g.direction with
  | parentToChild =>
      rw [direction] at above below
      have up := above.most j s before.swap
      have down := below.most k t after
      omega
  | childToParent =>
      rw [direction] at above below
      have up := above.most k t after
      have down := below.most j s before.swap
      omega

theorem Valid.mem_extremes_of_farthest (valid : g.Valid) (live : g.containsVertex v = true)
    {toward : Toward} {d : Nat} (farthest : g.Farthest (g.direction.way toward) v u d) :
    u ∈ g.extremes toward :=
  valid.mem_extremes.mpr ⟨valid.live_of_steps live farthest.steps, farthest.last⟩

theorem Valid.longestThrough (valid : g.Valid) (live : g.containsVertex v = true)
    {path : List Vertex} (found : g.longestPath v = .ok path) :
    ∃ root leaf, g.LongestThrough v root leaf path := by
  obtain ⟨a, rfl⟩ := exists_label live
  obtain ⟨known, known'⟩ := (g.longestPath_label a).mp ⟨path, found⟩
  obtain ⟨up, above⟩ := Option.isSome_iff_exists.mp known
  obtain ⟨down, below⟩ := Option.isSome_iff_exists.mp known'
  have root := valid.farthest above
  have leaf := valid.farthest below
  have flipped : g.direction.way .roots = (g.direction.way .leaves).flip := by
    cases g.direction <;> rfl
  have downward : IsPath (g.Passes (g.direction.way .leaves))
      (g.snapshot.label (up.farthest?.getD a)) (g.snapshot.label (down.farthest?.getD a))
      ((up.through down a).map g.snapshot.label) :=
    (Digraph.isPath_through (flipped ▸ above) below).map fun _ _ => valid.leads_iff.mp
  have length := Digraph.length_through above below
  have listed : g.snapshot.label a ∈ (up.through down a).map g.snapshot.label :=
    List.mem_map_of_mem (Digraph.mem_through above down)
  rw [longestPath_eq, Snapshot.longestPath, number?_eq_some.mpr rfl] at found
  dsimp only at found
  rw [above, below] at found
  obtain ⟨along, here, same⟩ : IsPath g.Joined
      (g.direction.orient (g.snapshot.label (up.farthest?.getD a))
        (g.snapshot.label (down.farthest?.getD a))).1
      (g.direction.orient (g.snapshot.label (up.farthest?.getD a))
        (g.snapshot.label (down.farthest?.getD a))).2 path ∧
      g.snapshot.label a ∈ path ∧ path.length = (up.through down a).length := by
    cases direction : g.direction with
    | parentToChild =>
        rw [direction] at found downward
        obtain rfl := Except.ok.inj found
        exact ⟨downward, listed, List.length_map _⟩
    | childToParent =>
        rw [direction] at found downward
        obtain rfl := Except.ok.inj found
        exact ⟨downward.reverse, List.mem_reverse.mpr listed, by simp⟩
  refine ⟨_, _, along, ?_, fun other steps passed => ?_, valid.mem_extremes_of_farthest live root,
    valid.mem_extremes_of_farthest live leaf, ⟨_, root⟩, ⟨_, leaf⟩⟩
  · refine count_of_no_cycle along.steps here fun cycle => ?_
    exact valid.routes?_isSome_iff.mp known ⟨_, .refl, cycle⟩
  · have short := length_le_of_farthest root leaf steps passed
    omega

/-- Whatever the graph, only a cycle above or below a vertex leaves it without a longest path. -/
theorem longest_paths_of_run [Inhabited N] [Inhabited E] (direction : Direction)
    (ms : List (Mutation N E)) {v : Vertex}
    (live : ((empty direction : Graph N E).after ms).containsVertex v = true) :
    let g := (empty direction : Graph N E).after ms
    let result := g.longestPath v
    (result = .error (.notAcyclic .longestPath) ↔
        ∃ toward, g.Snarled (g.direction.way toward) v) ∧
      (result ≠ .error (.notAcyclic .longestPath) →
        ∃ root leaf path, result = .ok path ∧ g.LongestThrough v root leaf path) := by
  intro g result
  have valid : g.Valid := valid_after (valid_empty direction) ms
  refine ⟨valid.longestPath_error_iff live, fun answered => ?_⟩
  obtain ⟨path, found⟩ := Classical.not_not.mp (longestPath_error_iff.not.mp answered)
  obtain ⟨root, leaf, longest⟩ := valid.longestThrough live found
  exact ⟨root, leaf, path, found, longest⟩

/-- Two leaves are as far from the vertex in the middle, and the first is in a slot used twice. -/
theorem longest_paths_of_run_tie :
    let ms : List (Mutation Nat Nat) :=
      [.addVertexWith 0, .addVertexWith 1, .addVertexWith 2, .addVertexWith 3, .removeVertex ⟨0, 0⟩,
        .addVertexWith 4, .addEdge ⟨2, 0⟩ ⟨1, 0⟩, .addEdge ⟨3, 0⟩ ⟨2, 0⟩, .addEdge ⟨0, 1⟩ ⟨2, 0⟩]
    let g := (empty .childToParent).after ms
    ∃ root leaf, g.LongestThrough ⟨2, 0⟩ root leaf [⟨0, 1⟩, ⟨2, 0⟩, ⟨1, 0⟩] := by
  intro ms g
  have listed : g.longestPath ⟨2, 0⟩ = .ok [⟨0, 1⟩, ⟨2, 0⟩, ⟨1, 0⟩] := by
    dsimp only [g, ms]
    cbv
  have answers := longest_paths_of_run .childToParent ms (v := ⟨2, 0⟩) (by decide)
  obtain ⟨root, leaf, path, found, longest⟩ := answers.2 fun failed => by
    cases listed.symm.trans failed
  obtain rfl := Except.ok.inj (listed.symm.trans found)
  exact ⟨root, leaf, longest⟩

end Provenance.Graph
