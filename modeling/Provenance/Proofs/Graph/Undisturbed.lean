import Provenance.Graph.Search
import Provenance.Proofs.Digraph.CarriedRoutes
import Provenance.Proofs.Digraph.Parts
import Provenance.Proofs.Graph.Around

/-! # Undisturbed parts

A part of the vertices that has no edge to the rest answers for itself. What happens to the rest may
give its vertices other numbers in a snapshot, but not another order; so searches and paths in the
part stay as they are.
-/

open Relation (ReflTransGen)

namespace Provenance.Graph

variable {N E : Type} {inside : Vertex → Prop} {g g' g'' : Graph N E} {v w : Vertex}

/-- A part of the live vertices that no edge joins to the rest. -/
structure Isolated (g : Graph N E) (inside : Vertex → Prop) : Prop where
  live : ∀ v, inside v → g.containsVertex v = true
  joined : ∀ s t, g.Joined s t → (inside s ↔ inside t)

/-- The second graph is like the first one at every vertex of a part. -/
structure Undisturbed (inside : Vertex → Prop) (g g' : Graph N E) : Prop where
  valid : g'.Valid
  direction : g'.direction = g.direction
  vertexPayload? : ∀ v, inside v → g'.vertexPayload? v = g.vertexPayload? v
  successors : ∀ v, inside v → g'.successors v = g.successors v
  predecessors : ∀ v, inside v → g'.predecessors v = g.predecessors v

theorem Isolated.inside_iff (isolated : g.Isolated inside) {way : Way}
    (passes : g.Passes way v w) : inside v ↔ inside w := by
  cases way with
  | along => exact isolated.joined v w passes
  | against => exact (isolated.joined w v passes).symm

namespace Undisturbed

theorem refl (valid : g.Valid) : Undisturbed inside g g where
  valid := valid
  direction := rfl
  vertexPayload? _ _ := rfl
  successors _ _ := rfl
  predecessors _ _ := rfl

theorem trans (first : Undisturbed inside g g') (second : Undisturbed inside g' g'') :
    Undisturbed inside g g'' where
  valid := second.valid
  direction := second.direction.trans first.direction
  vertexPayload? v here := (second.vertexPayload? v here).trans (first.vertexPayload? v here)
  successors v here := (second.successors v here).trans (first.successors v here)
  predecessors v here := (second.predecessors v here).trans (first.predecessors v here)

theorem live (undisturbed : Undisturbed inside g g') (isolated : g.Isolated inside)
    (here : inside v) : g'.containsVertex v = true := by
  have same := congrArg Option.isSome (undisturbed.vertexPayload? v here)
  rw [Graph.vertexPayload?, Graph.vertexPayload?, Option.isSome_map, Option.isSome_map] at same
  exact same.trans (isolated.live v here)

theorem joined_of_source (undisturbed : Undisturbed inside g g') (valid : g.Valid)
    (here : inside v) : g'.Joined v w ↔ g.Joined v w := by
  rw [← undisturbed.valid.mem_successors, ← valid.mem_successors, undisturbed.successors v here]

theorem joined_of_target (undisturbed : Undisturbed inside g g') (valid : g.Valid)
    (here : inside w) : g'.Joined v w ↔ g.Joined v w := by
  rw [← undisturbed.valid.mem_predecessors, ← valid.mem_predecessors,
    undisturbed.predecessors w here]

theorem isolated (undisturbed : Undisturbed inside g g') (valid : g.Valid)
    (isolated : g.Isolated inside) : g'.Isolated inside where
  live v here := undisturbed.live isolated here
  joined s t joined := by
    constructor
    · exact fun here => (isolated.joined s t
        ((undisturbed.joined_of_source valid here).mp joined)).mp here
    · exact fun here => (isolated.joined s t
        ((undisturbed.joined_of_target valid here).mp joined)).mpr here

/-! ## What is around -/

open Classical in
theorem filter_vertexList (undisturbed : Undisturbed inside g g') (isolated : g.Isolated inside) :
    g'.vertexList.filter inside = g.vertexList.filter inside := by
  refine Handle.eq_of_mem_iff (sorted_filter_vertexList g' _) (sorted_filter_vertexList g _) ?_
  intro v
  rw [List.mem_filter, List.mem_filter, decide_eq_true_iff]
  refine and_congr_left fun here => ?_
  exact iff_of_true (Arena.mem_handles.mpr (undisturbed.live isolated here))
    (Arena.mem_handles.mpr (isolated.live v here))

theorem around (undisturbed : Undisturbed inside g g') (valid : g.Valid) (way : Way)
    (here : inside v) : g'.around way v = g.around way v := by
  cases way with
  | along => exact undisturbed.successors v here
  | against =>
      refine Handle.eq_of_mem_iff (sorted_filter_vertexList g' _) (sorted_filter_vertexList g _) ?_
      intro w
      rw [undisturbed.valid.mem_around, valid.mem_around]
      exact undisturbed.joined_of_target valid here

theorem adjacentVertices (undisturbed : Undisturbed inside g g') (here : inside v)
    (flags : AdjacencyFlags) : g'.adjacentVertices v flags = g.adjacentVertices v flags := by
  rw [Graph.adjacentVertices, Graph.adjacentVertices, undisturbed.direction,
    undisturbed.successors v here, undisturbed.predecessors v here]

open Classical in
/-- The vertices of the part that have no neighbours at one end. -/
theorem filter_extremes (undisturbed : Undisturbed inside g g') (valid : g.Valid)
    (isolated : g.Isolated inside) (toward : Toward) :
    (g'.extremes toward).filter inside = (g.extremes toward).filter inside := by
  rw [extremes, extremes, List.filter_comm, undisturbed.filter_vertexList isolated,
    List.filter_comm (fun v => decide (inside v)), undisturbed.direction]
  refine List.filter_congr fun v listed => ?_
  have here : inside v := of_decide_eq_true (List.mem_filter.mp listed).2
  cases g.direction.way toward with
  | along =>
      dsimp only
      rw [← undisturbed.valid.length_successors, ← valid.length_successors,
        undisturbed.successors v here]
  | against =>
      dsimp only
      rw [← undisturbed.valid.length_predecessors, ← valid.length_predecessors,
        undisturbed.predecessors v here]

end Undisturbed

/-! ## Changes elsewhere -/

theorem undisturbed_addVertexWith (valid : g.Valid) (isolated : g.Isolated inside) (payload : N) :
    Undisturbed inside g (g.addVertexWith payload).2 where
  valid := valid_addVertexWith valid payload
  direction := direction_addVertexWith g payload
  vertexPayload? v here := by
    cases room : g.vertices.isFull with
    | true => rw [addVertexWith_of_full room]
    | false =>
        have other : v ≠ (g.addVertexWith payload).1 := by
          rintro rfl
          have live := isolated.live _ here
          rw [addVertexWith_dead valid] at live
          cases live
        rw [vertexPayload?_addVertexWith valid room, if_neg other]
  successors v _ := successors_addVertexWith valid payload v
  predecessors v _ := predecessors_addVertexWith valid payload v

theorem undisturbed_modifyEdge (valid : g.Valid) (e : Edge) (f : E → E) :
    Undisturbed inside g (g.modifyEdge e f) where
  valid := valid_modifyEdge valid e f
  direction := rfl
  vertexPayload? _ _ := rfl
  successors v _ := successors_modifyEdge g e f v
  predecessors v _ := predecessors_modifyEdge g e f v

variable {s t : Vertex}

theorem undisturbed_joinWith (valid : g.Valid) (source : g.containsVertex s = true)
    (target : g.containsVertex t = true) (apart : g.edge? s t = none) (source_out : ¬ inside s)
    (target_out : ¬ inside t) (payload : E) :
    Undisturbed inside g (g.joinWith s t payload).2 := by
  have other : ∀ {u v}, inside v → ¬ inside u → v ≠ u := fun here out same => out (same ▸ here)
  cases room : g.edges.isFull with
  | true =>
      rw [joinWith_of_full room]
      exact .refl valid
  | false =>
      exact {
        valid := valid_joinWith valid source target apart payload
        direction := direction_joinWith g s t payload
        vertexPayload? := fun v _ => vertexPayload?_joinWith g s t payload v
        successors := fun v here => by
          rw [successors_joinWith valid room source, if_neg (other here source_out),
            List.append_nil]
        predecessors := fun v here => by
          rw [predecessors_joinWith valid room s target, if_neg (other here target_out),
            List.append_nil] }

theorem undisturbed_addEdgeWith (valid : g.Valid) (source_out : ¬ inside s)
    (target_out : ¬ inside t) (payload : E) :
    Undisturbed inside g (g.addEdgeWith s t payload).2 := by
  cases live : g.containsVertex s && g.containsVertex t with
  | false =>
      rw [addEdgeWith_of_dead live]
      exact .refl valid
  | true =>
      obtain ⟨source, target⟩ := Bool.and_eq_true_iff.mp live
      cases found : g.edge? s t with
      | some e =>
          rw [addEdgeWith_of_joined valid found]
          exact undisturbed_modifyEdge valid e fun _ => payload
      | none =>
          rw [addEdgeWith_of_apart source target found]
          exact undisturbed_joinWith valid source target found source_out target_out payload

/-! ## Numbers -/

variable {f : Fin g.snapshot.size → Fin g'.snapshot.size} {φ : Vertex → Vertex}

/-- The numbers of a part in the snapshot of one graph give those of its images in the snapshot of
another. -/
def Renumbers (g g' : Graph N E) (inside : Vertex → Prop) (φ : Vertex → Vertex)
    (f : Fin g.snapshot.size → Fin g'.snapshot.size) : Prop :=
  ∀ i, inside (g.snapshot.label i) → g'.snapshot.label (f i) = φ (g.snapshot.label i)

theorem exists_renumbers (g : Graph N E)
    (live : ∀ v, inside v → g'.containsVertex (φ v) = true) (here : inside v) :
    ∃ f, Renumbers g g' inside φ f := by
  obtain ⟨start, -⟩ := exists_label (live v here)
  have numbered : ∀ i, ∃ j, inside (g.snapshot.label i) →
      g'.snapshot.label j = φ (g.snapshot.label i) := by
    intro i
    by_cases there : inside (g.snapshot.label i)
    · obtain ⟨j, found⟩ := exists_label (live _ there)
      exact ⟨j, fun _ => found⟩
    · exact ⟨start, fun there' => absurd there' there⟩
  choose f found using numbered
  exact ⟨f, found⟩

/-- Searches that list the same vertices around carry the numbers of one to those of the other. -/
theorem Renumbers.carries (renumbers : Renumbers g g' inside φ f)
    (inj : ∀ v w, inside v → inside w → φ v = φ w → v = w)
    {next : Fin g.snapshot.size → List (Fin g.snapshot.size)}
    {next' : Fin g'.snapshot.size → List (Fin g'.snapshot.size)}
    (around around' : Vertex → List Vertex)
    (listed : ∀ i, (next i).map g.snapshot.label = around (g.snapshot.label i))
    (listed' : ∀ i, (next' i).map g'.snapshot.label = around' (g'.snapshot.label i))
    (closed : ∀ v w, inside v → w ∈ around v → inside w)
    (same : ∀ v, inside v → around' (φ v) = (around v).map φ) :
    Carries (fun i => inside (g.snapshot.label i)) f next next' := by
  have closed : ∀ {i j}, inside (g.snapshot.label i) → j ∈ next i →
      inside (g.snapshot.label j) := fun here member =>
    closed _ _ here (listed _ ▸ List.mem_map_of_mem member)
  refine ⟨fun {i j} here there equal => ?_, closed, fun {i} here => ?_⟩
  · apply label_inj
    apply inj _ _ here there
    rw [← renumbers i here, ← renumbers j there, equal]
  · apply List.map_injective_iff.mpr fun _ _ => label_inj
    rw [listed', renumbers i here, same _ here, ← listed, List.map_map, List.map_map]
    exact List.map_congr_left fun j member => (renumbers j (closed here member)).symm

theorem Valid.map_restrict (valid : g.Valid) (part : Vertex → Prop) [DecidablePred part] (way : Way)
    (i : Fin g.snapshot.size) :
    (restrict (fun i => part (g.snapshot.label i)) (g.snapshot.digraph.neighbors way) i).map
        g.snapshot.label = (g.around way (g.snapshot.label i)).filter part := by
  rw [restrict, ← valid.map_around, List.filter_map]
  rfl

theorem Renumbers.map_label (renumbers : Renumbers g g' inside φ f)
    {is : List (Fin g.snapshot.size)} (within : ∀ i ∈ is, inside (g.snapshot.label i)) :
    (is.map f).map g'.snapshot.label = (is.map g.snapshot.label).map φ := by
  rw [List.map_map, List.map_map]
  exact List.map_congr_left fun i listed => renumbers i (within i listed)

/-! ## Searches and paths -/

namespace Undisturbed

/-- The part has its numbers in either snapshot. -/
theorem embeds (undisturbed : Undisturbed inside g g') (valid : g.Valid)
    (isolated : g.Isolated inside) (renumbers : Renumbers g g' inside id f) :
    Digraph.Embeds (fun i => inside (g.snapshot.label i)) f g.snapshot.digraph
      g'.snapshot.digraph where
  carries way := by
    refine renumbers.carries (fun _ _ _ _ same => same) (g.around way) (g'.around way)
      (valid.map_around way) (undisturbed.valid.map_around way) (fun v w here listed => ?_)
      fun v here => ?_
    · exact (isolated.inside_iff ((valid.mem_around way).mp listed)).mp here
    · rw [List.map_id]
      exact undisturbed.around valid way here
  ordered {i j} here there lt := by
    have indices := label_lt lt
    rw [← id_eq (g.snapshot.label i), ← id_eq (g.snapshot.label j), ← renumbers i here,
      ← renumbers j there] at indices
    refine lt_of_not_ge fun ge => ?_
    rcases Nat.lt_or_eq_of_le (Fin.le_def.mp ge) with gt | same
    · exact Nat.lt_asymm indices (label_lt gt)
    · rw [Fin.ext same] at indices
      exact Nat.lt_irrefl _ indices

theorem exists_embeds (undisturbed : Undisturbed inside g g') (valid : g.Valid)
    (isolated : g.Isolated inside) (here : inside v) :
    ∃ f : Fin g.snapshot.size → Fin g'.snapshot.size,
      (∀ i, inside (g.snapshot.label i) → g'.snapshot.label (f i) = g.snapshot.label i) ∧
      (∀ is : List (Fin g.snapshot.size), (∀ i ∈ is, inside (g.snapshot.label i)) →
        (is.map f).map g'.snapshot.label = is.map g.snapshot.label) ∧
      Digraph.Embeds (fun i => inside (g.snapshot.label i)) f g.snapshot.digraph
        g'.snapshot.digraph := by
  obtain ⟨f, renumbers⟩ := exists_renumbers (φ := id) g
    (fun w there => undisturbed.live isolated there) here
  refine ⟨f, renumbers, fun is within => ?_, undisturbed.embeds valid isolated renumbers⟩
  rw [renumbers.map_label within, List.map_id]

theorem discovered (undisturbed : Undisturbed inside g g') (valid : g.Valid)
    (isolated : g.Isolated inside) (order : SearchOrder) (here : inside v) (toward : Toward) :
    g'.discovered order v toward = g.discovered order v toward ∧
      ∀ w ∈ g.discovered order v toward, inside w := by
  obtain ⟨f, label, labels, embeds⟩ := undisturbed.exists_embeds valid isolated here
  obtain ⟨i, rfl⟩ := exists_label (isolated.live v here)
  have carries := embeds.carries (g.direction.way toward)
  have within : ∀ j ∈ order.search g.snapshot.digraph (g.direction.way toward) i,
      inside (g.snapshot.label j) := fun j found =>
    carries.inside_of_way here (Digraph.mem_search.mp found)
  rw [Graph.discovered, Graph.discovered, number?_eq_some.mpr rfl, undisturbed.direction,
    number?_eq_some.mpr (label i here)]
  dsimp only
  rw [Digraph.search_map order carries here, labels _ within]
  exact ⟨rfl, List.forall_mem_map.mpr within⟩

theorem shortestPath (undisturbed : Undisturbed inside g g') (valid : g.Valid)
    (isolated : g.Isolated inside) (here : inside v) (there : inside w) :
    g'.shortestPath v w = g.shortestPath v w ∧
      ∀ path, g.shortestPath v w = .ok path → ∀ u ∈ path, inside u := by
  obtain ⟨f, label, labels, embeds⟩ := undisturbed.exists_embeds valid isolated here
  obtain ⟨a, rfl⟩ := exists_label (isolated.live v here)
  obtain ⟨b, rfl⟩ := exists_label (isolated.live w there)
  rw [shortestPath_eq, shortestPath_eq, Snapshot.shortestPath, Snapshot.shortestPath,
    number?_eq_some.mpr rfl, number?_eq_some.mpr rfl, number?_eq_some.mpr (label a here),
    number?_eq_some.mpr (label b there)]
  dsimp only
  rw [embeds.between? here there]
  cases found : g.snapshot.digraph.between? a b with
  | none => exact ⟨rfl, fun path failed => by cases failed⟩
  | some path =>
      have within : ∀ i ∈ path, inside (g.snapshot.label i) := fun i listed =>
        embeds.inside_of_mem_between? here there found listed
      dsimp only [Option.map_some]
      rw [labels path within]
      refine ⟨rfl, fun path' same => ?_⟩
      rw [← Except.ok.inj same]
      exact List.forall_mem_map.mpr within

theorem longestPath (undisturbed : Undisturbed inside g g') (valid : g.Valid)
    (isolated : g.Isolated inside) (here : inside v) :
    g'.longestPath v = g.longestPath v ∧
      ∀ path, g.longestPath v = .ok path → ∀ u ∈ path, inside u := by
  obtain ⟨f, label, labels, embeds⟩ := undisturbed.exists_embeds valid isolated here
  obtain ⟨a, rfl⟩ := exists_label (isolated.live v here)
  have carries := embeds.carries (g.direction.way .roots)
  have carries' := embeds.carries (g.direction.way .leaves)
  rw [longestPath_eq, longestPath_eq, undisturbed.direction, Snapshot.longestPath,
    Snapshot.longestPath, number?_eq_some.mpr rfl, number?_eq_some.mpr (label a here)]
  dsimp only
  cases found : g.snapshot.digraph.routes? (g.direction.way .roots) .longest a with
  | none =>
      rw [Digraph.routes?_of_none carries here found]
      exact ⟨rfl, fun path failed => by cases failed⟩
  | some up =>
      obtain ⟨up', found', carried⟩ := Digraph.routes?_of_some carries here found
      cases found_down : g.snapshot.digraph.routes? (g.direction.way .leaves) .longest a with
      | none =>
          rw [found', Digraph.routes?_of_none carries' here found_down]
          exact ⟨rfl, fun path failed => by cases failed⟩
      | some down =>
          obtain ⟨down', found_down', carried'⟩ :=
            Digraph.routes?_of_some carries' here found_down
          have within : ∀ i ∈ up.through down a, inside (g.snapshot.label i) := fun i listed =>
            embeds.inside_of_mem_through here found found_down listed
          have same := embeds.through here carried carried' found found' found_down found_down'
          rw [found', found_down']
          dsimp only
          rw [same, labels _ within]
          refine ⟨rfl, fun path told => ?_⟩
          have inside_of_mem := List.forall_mem_map.mpr within
          split at told
          · exact Except.ok.inj told ▸ inside_of_mem
          · rw [← Except.ok.inj told]
            exact fun u listed => inside_of_mem u (List.mem_reverse.mp listed)

end Undisturbed

end Provenance.Graph
