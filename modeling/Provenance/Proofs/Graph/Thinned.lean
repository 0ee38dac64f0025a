import Provenance.Proofs.Graph.Algebra
import Provenance.Proofs.Graph.Found

/-! # Thinned graphs

A graph that lost edges, but none of its chains, has the same closure. A chain of the first graph
can be made longer by chains in place of its steps, and then it is one of the second graph; so the
longest ones are as long as before.
-/

open Relation (TransGen ReflTransGen)

namespace Provenance

/-! ## Longest walks -/

/-- A walk whose steps are replaced by chains gets no shorter. -/
theorem Steps.stretch {α : Type} {r r' : α → α → Prop} (chains : ∀ a b, r a b → TransGen r' a b)
    {k : Nat} {a b : α} (steps : Steps r a k b) : ∃ j, k ≤ j ∧ Steps r' a j b := by
  induction steps with
  | refl => exact ⟨0, Nat.le_refl 0, .refl⟩
  | @tail k b c _ step ih =>
      obtain ⟨j, longer, steps⟩ := ih
      suffices ∀ c, TransGen r' b c → ∃ j, k + 1 ≤ j ∧ Steps r' a j c from this c (chains b c step)
      intro c chain
      induction chain with
      | single step => exact ⟨j + 1, by omega, steps.tail step⟩
      | tail _ step ih =>
          obtain ⟨i, longer, steps⟩ := ih
          exact ⟨i + 1, by omega, steps.tail step⟩

theorem Steps.mono {α : Type} {r r' : α → α → Prop} (sub : ∀ a b, r a b → r' a b) {k : Nat}
    {a b : α} (steps : Steps r a k b) : Steps r' a k b := by
  induction steps with
  | refl => exact .refl
  | tail _ step ih => exact ih.tail (sub _ _ step)

/-- Searches for longest routes find the same distances if one leads to fewer vertices, but to the
same ones in the end. -/
theorem Settling.distance?_of_fewer {n : Nat} {next next' : Fin n → List (Fin n)} {start : Fin n}
    {routes routes' : Routes n} (settled : Settling next .longest start [] routes)
    (settled' : Settling next' .longest start [] routes')
    (fewer : ∀ u w, Leads next' u w → Leads next u w)
    (chains : ∀ u w, Leads next u w → TransGen (Leads next') u w) :
    routes'.distance? = routes.distance? := by
  funext v
  apply Option.ext
  intro d
  rw [settled.distance?_eq_some, settled'.distance?_eq_some]
  simp only [Extent.improves, decide_eq_false_iff_not, Nat.not_lt]
  constructor
  · rintro ⟨steps, best⟩
    refine ⟨steps.mono fewer, fun k walk => ?_⟩
    obtain ⟨j, longer, walk⟩ := walk.stretch chains
    exact Nat.le_trans longer (best j walk)
  · rintro ⟨steps, best⟩
    obtain ⟨j, longer, walk⟩ := steps.stretch chains
    obtain rfl : j = d := Nat.le_antisymm (best j (walk.mono fewer)) longer
    exact ⟨walk, fun k walk => best k (walk.mono fewer)⟩

namespace Graph

variable {N E : Type} {g g' c c' : Graph N E}

/-- The second graph is the first one without some edges, and with all of its chains. -/
structure Thins (g g' : Graph N E) : Prop where
  valid : g.Valid
  valid' : g'.Valid
  direction : g'.direction = g.direction
  vertexList : g'.vertexList = g.vertexList
  slots : g'.vertices.slots.size = g.vertices.slots.size
  vertexPayload? : ∀ v, g'.vertexPayload? v = g.vertexPayload? v
  fewer : ∀ s t, g'.Joined s t → g.Joined s t
  chains : ∀ s t, TransGen g'.Joined s t ↔ TransGen g.Joined s t

theorem vertexList_dropEdge (g : Graph N E) (e : Edge) :
    (g.dropEdge e).vertexList = g.vertexList ∧
      (g.dropEdge e).vertices.slots.size = g.vertices.slots.size := by
  unfold dropEdge
  split
  next link found =>
    rw [Graph.vertexList, Arena.handles_modify, Arena.handles_modify]
    exact ⟨rfl, by rw [Arena.size_slots_modify, Arena.size_slots_modify]⟩
  next => exact ⟨rfl, rfl⟩

theorem vertexList_dropEdges (g : Graph N E) (es : List Edge) :
    (es.foldl dropEdge g).vertexList = g.vertexList ∧
      (es.foldl dropEdge g).vertices.slots.size = g.vertices.slots.size := by
  induction es generalizing g with
  | nil => exact ⟨rfl, rfl⟩
  | cons e es ih =>
      obtain ⟨listed, slots⟩ := ih (g.dropEdge e)
      obtain ⟨listed_first, slots_first⟩ := vertexList_dropEdge g e
      exact ⟨listed.trans listed_first, slots.trans slots_first⟩

/-- Dropping the edges that a reduction removes. -/
theorem thins_dropRemoved [Inhabited N] [Inhabited E] (valid : g.Valid) {flags : CopyFlags}
    {r : Graph N E} {removed : List Edge}
    (reduced : g.transitiveReductionWithRemoved flags = .ok (r, removed)) :
    Thins g (removed.foldl dropEdge g) where
  valid := valid
  valid' := valid_dropEdges valid removed
  direction := direction_dropEdges g removed
  vertexList := (vertexList_dropEdges g removed).1
  slots := (vertexList_dropEdges g removed).2
  vertexPayload? := vertexPayload?_dropEdges valid removed
  fewer _ _ joined := ((joined_dropRemoved valid reduced).mp joined).1
  chains _ _ := transGen_dropRemoved valid reduced

namespace Thins

theorem containsVertex (thins : Thins g g') (v : Vertex) :
    g'.containsVertex v = g.containsVertex v := by
  rw [Bool.eq_iff_iff, Graph.containsVertex, Graph.containsVertex, ← Arena.mem_handles,
    ← Arena.mem_handles]
  exact iff_of_eq (congrArg (v ∈ ·) thins.vertexList)

theorem acyclic (thins : Thins g g') (acyclic : ∀ v, ¬ TransGen g.Joined v v) (v : Vertex) :
    ¬ TransGen g'.Joined v v := (thins.chains v v).not.mpr (acyclic v)

theorem edgeCount_le (thins : Thins g g') : g'.edgeCount ≤ g.edgeCount := by
  rw [← thins.valid.length_edgePairs, ← thins.valid'.length_edgePairs]
  refine thins.valid'.nodup_edgePairs.length_le_of_subset fun (s, t) listed => ?_
  rw [thins.valid'.mem_edgePairs] at listed
  exact thins.valid.mem_edgePairs.mpr (thins.fewer s t listed)

/-! ## Steps and ways -/

theorem passes_fewer (thins : Thins g g') (way : Way) (s t : Vertex) (passes : g'.Passes way s t) :
    g.Passes way s t := by
  cases way with
  | along => exact thins.fewer s t passes
  | against => exact thins.fewer t s passes

theorem passes_chains (thins : Thins g g') (way : Way) {s t : Vertex} :
    TransGen (g'.Passes way) s t ↔ TransGen (g.Passes way) s t := by
  cases way with
  | along => exact thins.chains s t
  | against =>
      exact (Relation.transGen_swap.trans (thins.chains t s)).trans Relation.transGen_swap.symm

theorem reflTransGen_joined (thins : Thins g g') {s t : Vertex} :
    ReflTransGen g'.Joined s t ↔ ReflTransGen g.Joined s t := by
  rw [Relation.reflTransGen_iff_eq_or_transGen, Relation.reflTransGen_iff_eq_or_transGen,
    thins.chains]

theorem extremes (thins : Thins g g') (toward : Toward) :
    g'.extremes toward = g.extremes toward := by
  refine Handle.eq_of_mem_iff (sorted_filter_vertexList g' _) (sorted_filter_vertexList g _) ?_
  intro v
  have stays : ∀ r : Vertex → Vertex → Prop, (∀ w, ¬ r v w) ↔ ∀ w, ¬ TransGen r v w := by
    intro r
    constructor
    · intro none_out w chain
      obtain ⟨x, first, -⟩ := TransGen.head'_iff.mp chain
      exact none_out x first
    · exact fun none_out w step => none_out w (.single step)
  change v ∈ g'.extremes toward ↔ v ∈ g.extremes toward
  rw [thins.valid'.mem_extremes, thins.valid.mem_extremes, thins.containsVertex, thins.direction,
    stays (g'.Passes _), stays (g.Passes _)]
  simp only [thins.passes_chains]

/-! ## Paths -/

/-- The second graph numbers the vertices as the first one does. -/
theorem snapshot (thins : Thins g g') :
    ∃ d : Digraph g.snapshot.size, g'.snapshot = { g.snapshot with digraph := d } ∧
      ∀ way i j, Leads (d.neighbors way) i j ↔
        g'.Passes way (g.snapshot.label i) (g.snapshot.label j) := by
  obtain ⟨d, same, edge⟩ := thins.valid'.snapshot_of_same_vertices thins.vertexList thins.slots
  refine ⟨d, same, fun way i j => ?_⟩
  cases way with
  | along => exact edge i j
  | against => exact Digraph.leads_against.trans (edge j i)

/-- The longest routes from a vertex are known in both, and to the same distances. -/
theorem routes (thins : Thins g g') (acyclic : ∀ v, ¬ TransGen g.Joined v v)
    {d : Digraph g.snapshot.size} (leads : ∀ way i j, Leads (d.neighbors way) i j ↔
      g'.Passes way (g.snapshot.label i) (g.snapshot.label j)) (way : Way)
    (a : Fin g.snapshot.size) :
    ∃ routes routes', g.snapshot.digraph.routes? way .longest a = some routes ∧
      d.routes? way .longest a = some routes' ∧ routes'.distance? = routes.distance? := by
  have live : ∀ s t, g.Passes way s t → g.containsVertex t = true :=
    fun s t passes => (thins.valid.live_of_passes passes).2
  have chains : ∀ i j, TransGen (Leads (d.neighbors way)) i j ↔
      TransGen (Leads (g.snapshot.digraph.neighbors way)) i j := by
    intro i j
    rw [chain_label (leads way) fun s t passes => live s t (thins.passes_fewer way s t passes),
      thins.passes_chains, chain_label (fun _ _ => thins.valid.leads_iff) live]
  have clear : ∀ v, ¬ TransGen (Leads (g.snapshot.digraph.neighbors way)) v v :=
    (Digraph.acyclic_leads_iff way).mpr (thins.valid.acyclic_snapshot.mpr acyclic)
  have clear' : ∀ v, ¬ TransGen (Leads (d.neighbors way)) v v :=
    fun v => (chains v v).not.mpr (clear v)
  have known : (g.snapshot.digraph.routes? way .longest a).isSome :=
    Digraph.routes?_isSome_iff.mpr (forall_clear_iff.mpr clear a)
  have known' : (d.routes? way .longest a).isSome :=
    Digraph.routes?_isSome_iff.mpr (forall_clear_iff.mpr clear' a)
  obtain ⟨routes, found⟩ := Option.isSome_iff_exists.mp known
  obtain ⟨routes', found'⟩ := Option.isSome_iff_exists.mp known'
  refine ⟨routes, routes', found, found', ?_⟩
  refine (Digraph.routes?_eq_some found).1.distance?_of_fewer (Digraph.routes?_eq_some found').1
    (fun u w step => ?_) fun u w step => ?_
  · exact thins.valid.leads_iff.mpr (thins.passes_fewer way _ _ ((leads way u w).mp step))
  · exact (chains u w).mpr (.single step)

/-- Longest paths are as long as before and have the same ends. -/
theorem longestPath (thins : Thins g g') (acyclic : ∀ v, ¬ TransGen g.Joined v v) {v : Vertex}
    (live : g.containsVertex v = true) :
    ∃ path path', g.longestPath v = .ok path ∧ g'.longestPath v = .ok path' ∧
      path'.length = path.length ∧ path'.head? = path.head? ∧
        path'.getLast? = path.getLast? := by
  obtain ⟨d, same, leads⟩ := thins.snapshot
  obtain ⟨a, rfl⟩ := exists_label live
  obtain ⟨up, up', found_up, found_up', same_up⟩ :=
    thins.routes acyclic leads (g.direction.way .roots) a
  obtain ⟨down, down', found_down, found_down', same_down⟩ :=
    thins.routes acyclic leads (g.direction.way .leaves) a
  obtain ⟨length, first, last⟩ :=
    Digraph.through_congr found_up found_down found_up' found_down' same_up same_down
  have number : g.snapshot.number? (g.snapshot.label a) = some a := number?_eq_some.mpr rfl
  have number' : Snapshot.number? { g.snapshot with digraph := d } (g.snapshot.label a) = some a :=
    number
  have label : Snapshot.label { g.snapshot with digraph := d } = g.snapshot.label := rfl
  rw [longestPath_eq g, longestPath_eq g', same, thins.direction, Snapshot.longestPath,
    Snapshot.longestPath, number, number', label]
  dsimp only
  rw [found_up, found_up', found_down, found_down']
  cases g.direction with
  | parentToChild => exact ⟨_, _, rfl, rfl, by simp [length], by simp [first], by simp [last]⟩
  | childToParent => exact ⟨_, _, rfl, rfl, by simp [length], by simp [last], by simp [first]⟩

/-- There is a path between the same vertices. -/
theorem shortestPath (thins : Thins g g') (acyclic : ∀ v, ¬ TransGen g.Joined v v) {v w : Vertex}
    (live : g.containsVertex v = true) (live' : g.containsVertex w = true) :
    ∃ path path', g.shortestPath v w = .ok path ∧ g'.shortestPath v w = .ok path' ∧
      (path' = [] ↔ path = []) := by
  have clear : ∀ {r : Vertex → Vertex → Prop}, (∀ v, ¬ TransGen r v v) → Findable r v w :=
    fun acyclic => .inr ⟨forall_clear_iff.mpr acyclic v, .inr (forall_clear_iff.mpr acyclic w)⟩
  have there := (thins.containsVertex v).trans live
  have there' := (thins.containsVertex w).trans live'
  obtain ⟨path, found⟩ := (thins.valid.shortestPath_ok_iff live live').mpr (clear acyclic)
  obtain ⟨path', found'⟩ :=
    (thins.valid'.shortestPath_ok_iff there there').mpr (clear (thins.acyclic acyclic))
  refine ⟨path, path', found, found', ?_⟩
  rw [thins.valid.shortestPath_eq_nil_iff live live' found,
    thins.valid'.shortestPath_eq_nil_iff there there' found', thins.reflTransGen_joined,
    thins.reflTransGen_joined]

end Thins

/-! ## Closures -/

/-- The chains among the slots of a copy, told by the places of the vertices that they stand for. -/
theorem transGen_copied_iff (valid : g.Valid) {s t : Vertex} :
    TransGen g.Copied s t ↔ ∃ k l v w, g.vertexList[k]? = some v ∧ g.vertexList[l]? = some w ∧
      TransGen g.Joined v w ∧ spot k = s ∧ spot l = t := by
  simp only [transGen_copied, valid.transGen_snapshot, getElem?_vertexList]
  constructor
  · rintro ⟨i, j, chain, source, target⟩
    exact ⟨i, j, _, _, ⟨i, rfl, rfl⟩, ⟨j, rfl, rfl⟩, chain, source, target⟩
  · rintro ⟨_, _, _, _, ⟨i, rfl, rfl⟩, ⟨j, rfl, rfl⟩, chain, source, target⟩
    exact ⟨i, j, chain, source, target⟩

namespace Thins

theorem transGen_copied (thins : Thins g g') {s t : Vertex} :
    TransGen g'.Copied s t ↔ TransGen g.Copied s t := by
  simp only [transGen_copied_iff thins.valid', transGen_copied_iff thins.valid, thins.vertexList,
    thins.chains]

/-- The closures have the same edges in the same order, and the same payloads at the vertices. -/
theorem closure [Inhabited N] [Inhabited E] (thins : Thins g g') {flags : CopyFlags}
    (closed : g.transitiveClosure flags = .ok c) (closed' : g'.transitiveClosure flags = .ok c') :
    c'.edgePairs = c.edgePairs ∧
      (flags.vertexPayloads = true → ∀ v, c'.vertexPayload? v = c.vertexPayload? v) := by
  obtain ⟨pairs, copies, lists⟩ := closure_spec thins.valid closed
  obtain ⟨pairs', copies', lists'⟩ := closure_spec thins.valid' closed'
  refine ⟨?_, fun asked v => ?_⟩
  · rw [copies.edgePairs, copies'.edgePairs, lists'.eq lists fun s t => thins.transGen_copied]
  · have size : g'.snapshot.size = g.snapshot.size := congrArg List.length thins.vertexList
    have vertexList : c'.vertexList = c.vertexList := by
      rw [copies'.vertexList, copies.vertexList, size]
    cases live : c.containsVertex v with
    | false =>
        have dead : c'.containsVertex v = false := by
          rw [Bool.eq_false_iff] at live ⊢
          intro live'
          have listed : v ∈ c'.vertexList := Arena.mem_handles.mpr live'
          rw [vertexList] at listed
          exact live (Arena.mem_handles.mp listed)
        rw [Graph.vertexPayload?, Graph.vertexPayload?, Arena.contains_eq_false.mp live,
          Arena.contains_eq_false.mp dead]
    | true =>
        obtain ⟨k, inside, rfl⟩ : ∃ k < g.snapshot.size, spot k = v := by
          have listed : v ∈ c.vertexList := Arena.mem_handles.mpr live
          rw [copies.vertexList] at listed
          simpa using listed
        have here : g.vertexList[k]? = some (g.snapshot.label ⟨k, inside⟩) :=
          getElem?_vertexList.mpr ⟨⟨k, inside⟩, rfl, rfl⟩
        obtain ⟨i, rfl, label⟩ := getElem?_vertexList.mp (thins.vertexList ▸ here)
        rw [copies'.vertexPayload? asked i, label, thins.vertexPayload?]
        exact (copies.vertexPayload? asked ⟨i, inside⟩).symm

end Thins

end Graph

end Provenance
