import Provenance.Graph.Dominance
import Provenance.Proofs.ArenaMap
import Provenance.Proofs.Digraph.Cycles
import Provenance.Proofs.Digraph.Dominators
import Provenance.Proofs.Digraph.Layers
import Provenance.Proofs.Graph.Detours
import Provenance.Proofs.Graph.Paths

/-! # Mirrored graphs

Two graphs mirror each other if one has the edges of the other turned round and reads them the other
way. They keep their vertices and edges in the same slots, and every operation keeps that up when
one of them is given source and target in exchange.
-/

open Relation (TransGen)

namespace Provenance

namespace Direction

def opposite : Direction → Direction
  | .parentToChild => .childToParent
  | .childToParent => .parentToChild

@[simp]
theorem opposite_opposite (direction : Direction) : direction.opposite.opposite = direction := by
  cases direction <;> rfl

theorem way_opposite (direction : Direction) (toward : Toward) :
    direction.opposite.way toward = (direction.way toward).flip := by
  cases direction <;> cases toward <;> rfl

theorem orient_opposite {α : Type} (direction : Direction) (p c : α) :
    direction.opposite.orient p c = (direction.orient p c).swap := by
  cases direction <;> rfl

end Direction

/-- Both fail for the same cause, or both succeed with related results. -/
inductive Alike {ε α : Type} (related : α → α → Prop) : Except ε α → Except ε α → Prop where
  | ok {a b : α} (same : related a b) : Alike related (.ok a) (.ok b)
  | error (cause : ε) : Alike related (.error cause) (.error cause)

theorem Alike.refl {ε α : Type} {related : α → α → Prop} (same : ∀ a, related a a)
    (result : Except ε α) : Alike related result result := by
  cases result with
  | ok a => exact .ok (same a)
  | error cause => exact .error cause

theorem Alike.map {ε α β : Type} {related : α → α → Prop} {related' : β → β → Prop} {f : α → β}
    {first second : Except ε α} (alike : Alike related first second)
    (each : ∀ a b, first = .ok a → second = .ok b → related a b → related' (f a) (f b)) :
    Alike related' (first.map f) (second.map f) := by
  cases alike with
  | ok same => exact .ok (each _ _ rfl rfl same)
  | error cause => exact .error cause

def Node.reversed {N : Type} (node : Node N) : Node N := ⟨node.payload, node.inbound, node.outbound⟩

def Link.reversed {E : Type} (link : Link E) : Link E := ⟨link.target, link.source, link.payload⟩

theorem Digraph.Opposite.search_perm {n : Nat} {d d' : Digraph n} (opposite : d.Opposite d')
    (order : SearchOrder) (way : Way) (start : Fin n) :
    List.Perm (order.search d' way.flip start) (order.search d way start) := by
  cases order with
  | breadthFirst => exact discover_perm (opposite.leads_flip way) start
  | depthFirst => exact opposite.depthFirst_perm way start

namespace Graph

variable {N E : Type}

/-- The second graph has the first one's vertices and edges in the same slots, with the edges turned
round. -/
structure Mirrors (g g' : Graph N E) : Prop where
  direction : g'.direction = g.direction.opposite
  vertices : g'.vertices = g.vertices.map Node.reversed
  edges : g'.edges = g.edges.map Link.reversed
  edge?_swap : ∀ s t, g'.edge? s t = g.edge? t s

theorem mirrors_empty (direction : Direction) :
    Mirrors (empty direction : Graph N E) (empty direction.opposite) where
  direction := rfl
  vertices := (Arena.map_empty _).symm
  edges := (Arena.map_empty _).symm
  edge?_swap s t := by simp [edge?, empty]

namespace Mirrors

variable {g g' : Graph N E}

theorem symm (mirrors : Mirrors g g') : Mirrors g' g where
  direction := by rw [mirrors.direction, Direction.opposite_opposite]
  vertices := by
    rw [mirrors.vertices, Arena.map_map]
    exact (Arena.map_id _).symm
  edges := by
    rw [mirrors.edges, Arena.map_map]
    exact (Arena.map_id _).symm
  edge?_swap s t := (mirrors.edge?_swap t s).symm

/-! ## Queries -/

theorem get?_vertices (mirrors : Mirrors g g') (v : Vertex) :
    g'.vertices.get? v = (g.vertices.get? v).map Node.reversed := by
  rw [mirrors.vertices, Arena.get?_map]

theorem get?_edges (mirrors : Mirrors g g') (e : Edge) :
    g'.edges.get? e = (g.edges.get? e).map Link.reversed := by
  rw [mirrors.edges, Arena.get?_map]

theorem containsVertex (mirrors : Mirrors g g') (v : Vertex) :
    g'.containsVertex v = g.containsVertex v := by
  rw [Graph.containsVertex, mirrors.vertices, Arena.contains_map, Graph.containsVertex]

theorem vertexPayload? (mirrors : Mirrors g g') : g'.vertexPayload? = g.vertexPayload? := by
  funext v
  rw [Graph.vertexPayload?, mirrors.get?_vertices, Option.map_map, Graph.vertexPayload?]
  rfl

theorem edgePayload? (mirrors : Mirrors g g') : g'.edgePayload? = g.edgePayload? := by
  funext e
  rw [Graph.edgePayload?, mirrors.get?_edges, Option.map_map, Graph.edgePayload?]
  rfl

theorem payloadBetween [Inhabited E] (mirrors : Mirrors g g') (s t : Vertex) :
    g'.payloadBetween s t = g.payloadBetween t s := by
  rw [Graph.payloadBetween, mirrors.edge?_swap, mirrors.edgePayload?, Graph.payloadBetween]

theorem findVertex? (mirrors : Mirrors g g') (test : N → Bool) :
    g'.findVertex? test = g.findVertex? test := by
  rw [Graph.findVertex?, mirrors.vertices, Arena.find?_map]
  rfl

theorem vertexList (mirrors : Mirrors g g') : g'.vertexList = g.vertexList := by
  rw [Graph.vertexList, mirrors.vertices, Arena.handles_map, Graph.vertexList]

theorem edgeList (mirrors : Mirrors g g') : g'.edgeList = g.edgeList := by
  rw [Graph.edgeList, mirrors.edges, Arena.handles_map, Graph.edgeList]

theorem outbound (mirrors : Mirrors g g') (v : Vertex) : g'.outbound v = g.inbound v := by
  rw [outbound_eq, mirrors.get?_vertices, Option.map_map, inbound_eq]
  rfl

theorem inbound (mirrors : Mirrors g g') (v : Vertex) : g'.inbound v = g.outbound v :=
  (mirrors.symm.outbound v).symm

theorem target? (mirrors : Mirrors g g') : g'.target? = g.source? := by
  funext e
  rw [Graph.target?, mirrors.get?_edges, Option.map_map, Graph.source?]
  rfl

theorem successors (mirrors : Mirrors g g') (v : Vertex) : g'.successors v = g.predecessors v := by
  rw [Graph.successors, mirrors.outbound, mirrors.target?, Graph.predecessors]

theorem predecessors (mirrors : Mirrors g g') (v : Vertex) : g'.predecessors v = g.successors v :=
  (mirrors.symm.successors v).symm

theorem extremes (mirrors : Mirrors g g') (toward : Toward) :
    g'.extremes toward = g.extremes toward := by
  unfold Graph.extremes
  rw [mirrors.vertexList]
  congr 1
  funext v
  rw [mirrors.direction, Direction.way_opposite, outDegree, inDegree, mirrors.outbound,
    mirrors.inbound]
  cases g.direction.way toward <;> rfl

theorem adjacentVertices (mirrors : Mirrors g g') (v : Vertex) :
    g'.adjacentVertices v .onlyToRoots = g.adjacentVertices v .onlyToRoots ∧
      g'.adjacentVertices v .onlyToLeaves = g.adjacentVertices v .onlyToLeaves := by
  unfold Graph.adjacentVertices
  rw [mirrors.direction, mirrors.successors, mirrors.predecessors]
  cases g.direction <;>
    simp [AdjacencyFlags.onlyToRoots, AdjacencyFlags.onlyToLeaves, AdjacencyFlags.resolve,
      Direction.opposite]

theorem joined_iff (mirrors : Mirrors g g') {s t : Vertex} : g'.Joined s t ↔ g.Joined t s := by
  rw [Joined, hasEdge, mirrors.edge?_swap]
  rfl

theorem joined_eq (mirrors : Mirrors g g') : g'.Joined = Function.swap g.Joined := by
  funext s t
  exact propext mirrors.joined_iff

theorem transGen_joined (mirrors : Mirrors g g') {s t : Vertex} :
    TransGen g'.Joined s t ↔ TransGen g.Joined t s := by
  rw [mirrors.joined_eq]
  exact Relation.transGen_swap

theorem acyclic_iff (mirrors : Mirrors g g') :
    (∀ v, ¬ TransGen g'.Joined v v) ↔ ∀ v, ¬ TransGen g.Joined v v :=
  forall_congr' fun _ => mirrors.transGen_joined.not

/-! ## Changes -/

theorem addVertexWith (mirrors : Mirrors g g') (payload : N) :
    (g'.addVertexWith payload).1 = (g.addVertexWith payload).1 ∧
      Mirrors (g.addVertexWith payload).2 (g'.addVertexWith payload).2 := by
  unfold Graph.addVertexWith
  rw [mirrors.vertices, Arena.isFull_map]
  cases g.vertices.isFull with
  | true => exact ⟨rfl, mirrors⟩
  | false =>
      have inserted := Arena.insert_map (a := g.vertices) (f := Node.reversed) ⟨payload, [], []⟩
      simp only [Bool.false_eq_true, if_false]
      rw [show (⟨payload, [], []⟩ : Node N) = Node.reversed ⟨payload, [], []⟩ from rfl, inserted]
      exact ⟨rfl, mirrors.direction, rfl, mirrors.edges, mirrors.edge?_swap⟩

theorem addVertex [Inhabited N] (mirrors : Mirrors g g') :
    g'.addVertex.1 = g.addVertex.1 ∧ Mirrors g.addVertex.2 g'.addVertex.2 :=
  mirrors.addVertexWith default

theorem modifyVertex (mirrors : Mirrors g g') (v : Vertex) (f : N → N) :
    Mirrors (g.modifyVertex v f) (g'.modifyVertex v f) where
  direction := mirrors.direction
  vertices := by
    unfold Graph.modifyVertex
    dsimp only
    rw [mirrors.vertices]
    apply Arena.modify_map
    intro node
    rfl
  edges := mirrors.edges
  edge?_swap := mirrors.edge?_swap

theorem modifyEdge (mirrors : Mirrors g g') (e : Edge) (f : E → E) :
    Mirrors (g.modifyEdge e f) (g'.modifyEdge e f) where
  direction := mirrors.direction
  vertices := mirrors.vertices
  edges := by
    unfold Graph.modifyEdge
    dsimp only
    rw [mirrors.edges]
    apply Arena.modify_map
    intro link
    rfl
  edge?_swap := mirrors.edge?_swap

/-- Two changes of lists at the ends of an edge, made at the other end first. -/
theorem modify_ends (vertices : Arena .vertex (Node N)) (s t : Vertex) {out into : Node N → Node N}
    (turned : ∀ node, out node.reversed = (into node).reversed)
    (turned' : ∀ node, into node.reversed = (out node).reversed)
    (commute : ∀ node, out (into node) = into (out node)) :
    ((vertices.map Node.reversed).modify t out).modify s into =
      ((vertices.modify s out).modify t into).map Node.reversed := by
  rw [Arena.modify_map turned, Arena.modify_map turned', Arena.modify_comm fun node => ?_]
  exact (commute node).symm

theorem joinWith (mirrors : Mirrors g g') (s t : Vertex) (payload : E) :
    (g'.joinWith t s payload).1 = (g.joinWith s t payload).1 ∧
      Mirrors (g.joinWith s t payload).2 (g'.joinWith t s payload).2 := by
  cases full : g.edges.isFull with
  | true =>
      have full' : g'.edges.isFull = true := by rw [mirrors.edges, Arena.isFull_map, full]
      rw [joinWith_of_full full, joinWith_of_full full']
      exact ⟨rfl, mirrors⟩
  | false =>
      have room' : g'.edges.isFull = false := by rw [mirrors.edges, Arena.isFull_map, full]
      have inserted := Arena.insert_map (a := g.edges) (f := Link.reversed) ⟨s, t, payload⟩
      have same : g'.edges.insert ⟨t, s, payload⟩ =
          ((g.edges.insert ⟨s, t, payload⟩).1, (g.edges.insert ⟨s, t, payload⟩).2.map Link.reversed) := by
        rw [mirrors.edges, ← inserted]
        rfl
      have edge?_swap : ∀ x y, (g'.joinWith t s payload).2.edge? x y =
          (g.joinWith s t payload).2.edge? y x := by
        intro x y
        have issued : (g'.joinWith t s payload).1 = (g.joinWith s t payload).1 := by
          simp [Graph.joinWith, room', full, same]
        rw [edge?_joinWith room', edge?_joinWith full, mirrors.edge?_swap, issued]
        have swapped : (x, y) = (t, s) ↔ (y, x) = (s, t) := by
          simp only [Prod.mk.injEq]
          exact and_comm
        simp only [swapped]
      unfold Graph.joinWith at edge?_swap ⊢
      simp only [room', full, Bool.false_eq_true, if_false, same] at edge?_swap ⊢
      refine ⟨trivial, mirrors.direction, ?_, rfl, edge?_swap⟩
      dsimp only
      rw [mirrors.vertices]
      exact modify_ends g.vertices s t (fun _ => rfl) (fun _ => rfl) fun _ => rfl

theorem addEdgeWith (mirrors : Mirrors g g') (s t : Vertex) (payload : E) :
    (g'.addEdgeWith t s payload).1 = (g.addEdgeWith s t payload).1 ∧
      Mirrors (g.addEdgeWith s t payload).2 (g'.addEdgeWith t s payload).2 := by
  unfold Graph.addEdgeWith
  rw [mirrors.containsVertex, mirrors.containsVertex, mirrors.edge?_swap, Bool.and_comm]
  split
  · cases g.edge? s t with
    | some e => exact ⟨rfl, mirrors.modifyEdge e fun _ => payload⟩
    | none => exact mirrors.joinWith s t payload
  · exact ⟨rfl, mirrors⟩

theorem addEdge [Inhabited E] (mirrors : Mirrors g g') (s t : Vertex) :
    Mirrors (g.addEdge s t).2 (g'.addEdge t s).2 := by
  unfold Graph.addEdge
  rw [mirrors.containsVertex, mirrors.containsVertex, mirrors.edge?_swap, Bool.and_comm]
  split
  · cases g.edge? s t with
    | some e => exact mirrors
    | none => exact (mirrors.joinWith s t default).2
  · exact mirrors

theorem dropEdge (mirrors : Mirrors g g') (valid : g.Valid) (valid' : g'.Valid) (e : Edge) :
    Mirrors (g.dropEdge e) (g'.dropEdge e) := by
  have edge?_swap : ∀ s t, (g'.dropEdge e).edge? s t = (g.dropEdge e).edge? t s := by
    intro s t
    rw [edge?_dropEdge valid', edge?_dropEdge valid, mirrors.edge?_swap]
  cases found : g.edges.get? e with
  | none =>
      have found' : g'.edges.get? e = none := by rw [mirrors.get?_edges, found]; rfl
      rw [dropEdge_of_dead found, dropEdge_of_dead found']
      exact mirrors
  | some link =>
      have found' : g'.edges.get? e = some link.reversed := by rw [mirrors.get?_edges, found]; rfl
      unfold Graph.dropEdge at edge?_swap ⊢
      simp only [found, found'] at edge?_swap ⊢
      refine ⟨mirrors.direction, ?_, ?_, edge?_swap⟩
      · dsimp only
        rw [mirrors.vertices]
        exact modify_ends g.vertices link.source link.target (fun _ => rfl) (fun _ => rfl)
          fun _ => rfl
      · dsimp only
        rw [mirrors.edges, Arena.erase_map]

theorem dropEdges (mirrors : Mirrors g g') (valid : g.Valid) (valid' : g'.Valid)
    (es : List Edge) : Mirrors (es.foldl .dropEdge g) (es.foldl .dropEdge g') := by
  induction es generalizing g g' with
  | nil => exact mirrors
  | cons e es ih =>
      exact ih (mirrors.dropEdge valid valid' e) (valid_dropEdge valid e) (valid_dropEdge valid' e)

/-! ## Reduction -/

theorem roundabout (mirrors : Mirrors g g') : g'.Roundabout = g.Roundabout := by
  funext e
  unfold Roundabout
  rw [mirrors.get?_edges, mirrors.joined_eq]
  cases g.edges.get? e with
  | none => simp
  | some link => simp [Link.reversed, detour_swap]

/-- Reduction removes the same edges. -/
theorem reduction [Inhabited N] [Inhabited E] (mirrors : Mirrors g g') (valid : g.Valid)
    (valid' : g'.Valid) (flags : CopyFlags) :
    Alike (fun r r' => r'.2 = r.2) (g.transitiveReductionWithRemoved flags)
      (g'.transitiveReductionWithRemoved flags) := by
  by_cases acyclic : ∀ v, ¬ TransGen g.Joined v v
  · obtain ⟨⟨r, edges⟩, result⟩ := (transitiveReduction_ok_iff valid flags).mpr acyclic
    obtain ⟨⟨r', edges'⟩, result'⟩ :=
      (transitiveReduction_ok_iff valid' flags).mpr (mirrors.acyclic_iff.mpr acyclic)
    rw [result, result']
    apply Alike.ok
    rw [removed_eq valid result, removed_eq valid' result', mirrors.edgeList, mirrors.roundabout]
  · rw [reduction_of_cycle valid flags acyclic,
      reduction_of_cycle valid' flags (mirrors.acyclic_iff.not.mpr acyclic)]
    exact .error _

theorem topologicalSort (mirrors : Mirrors g g') (valid : g.Valid) (valid' : g'.Valid) :
    Alike (fun _ _ => True) g.topologicalSort g'.topologicalSort := by
  by_cases acyclic : ∀ v, ¬ TransGen g.Joined v v
  · obtain ⟨order, result⟩ := (topologicalSort_ok_iff valid).mpr acyclic
    obtain ⟨order', result'⟩ := (topologicalSort_ok_iff valid').mpr (mirrors.acyclic_iff.mpr acyclic)
    rw [result, result']
    exact .ok trivial
  · rw [topologicalSort_of_cycle valid acyclic,
      topologicalSort_of_cycle valid' (mirrors.acyclic_iff.not.mpr acyclic)]
    exact .error _

/-! ## Snapshots -/

/-- The snapshots number the vertices in the same way, and the edges are turned round. -/
theorem snapshot (mirrors : Mirrors g g') (valid : g.Valid) (valid' : g'.Valid) :
    ∃ d : Digraph g.snapshot.size, g'.snapshot = { g.snapshot with digraph := d } ∧
      g.snapshot.digraph.Opposite d := by
  have slots : g'.vertices.slots.size = g.vertices.slots.size := by
    rw [mirrors.vertices, Arena.map, Array.size_map]
  obtain ⟨d, same, edge⟩ := valid'.snapshot_of_same_vertices mirrors.vertexList slots
  exact ⟨d, same, fun i j => (edge i j).trans (mirrors.joined_iff.trans valid.edge_snapshot.symm)⟩

/-- Longest paths have the same length and the same ends, and are read the opposite way. -/
theorem longestPath (mirrors : Mirrors g g') (valid : g.Valid) (valid' : g'.Valid) (v : Vertex) :
    Alike (fun path path' =>
        path'.length = path.length ∧ path'.head? = path.getLast? ∧ path'.getLast? = path.head?)
      (g.longestPath v) (g'.longestPath v) := by
  obtain ⟨d, same, opposite⟩ := mirrors.snapshot valid valid'
  rw [longestPath_eq g, longestPath_eq g', same, mirrors.direction]
  have number : Snapshot.number? { g.snapshot with digraph := d } v = g.snapshot.number? v := rfl
  have label : Snapshot.label { g.snapshot with digraph := d } = g.snapshot.label := rfl
  unfold Snapshot.longestPath
  rw [number, label]
  cases g.snapshot.number? v with
  | none => exact .ok (by simp)
  | some a =>
      have above := opposite.routes? (g.direction.way .roots) .longest a
      have below := opposite.routes? (g.direction.way .leaves) .longest a
      dsimp only
      rw [Direction.way_opposite, Direction.way_opposite]
      cases found_up : g.snapshot.digraph.routes? (g.direction.way .roots) .longest a with
      | none =>
          rw [found_up, Option.map_none, Option.map_eq_none_iff] at above
          rw [above]
          exact .error _
      | some up =>
          obtain ⟨up', found_up', same_up⟩ := Option.map_eq_some_iff.mp (found_up ▸ above)
          cases found_down : g.snapshot.digraph.routes? (g.direction.way .leaves) .longest a with
          | none =>
              rw [found_down, Option.map_none, Option.map_eq_none_iff] at below
              rw [found_up', below]
              exact .error _
          | some down =>
              obtain ⟨down', found_down', same_down⟩ :=
                Option.map_eq_some_iff.mp (found_down ▸ below)
              obtain ⟨length, first, last⟩ :=
                Digraph.through_congr found_up found_down found_up' found_down' same_up same_down
              rw [found_up', found_down']
              cases g.direction <;>
                exact .ok (by simp only [List.length_reverse, List.length_map, List.head?_reverse,
                  List.getLast?_reverse, List.head?_map, List.getLast?_map, length, first, last,
                  and_self])

/-- Where both searches for a shortest path succeed, the paths have the same length and ends. -/
theorem shortestPath (mirrors : Mirrors g g') (valid : g.Valid) (valid' : g'.Valid) {v w : Vertex}
    {path path' : List Vertex} (found : g.shortestPath v w = .ok path)
    (found' : g'.shortestPath v w = .ok path') :
    path'.length = path.length ∧ path'.head? = path.head? ∧ path'.getLast? = path.getLast? := by
  obtain ⟨d, same, opposite⟩ := mirrors.snapshot valid valid'
  have number : Snapshot.number? { g.snapshot with digraph := d } = g.snapshot.number? := rfl
  have label : Snapshot.label { g.snapshot with digraph := d } = g.snapshot.label := rfl
  rw [shortestPath_eq] at found found'
  rw [same] at found'
  unfold Snapshot.shortestPath at found found'
  rw [number, label] at found'
  cases first : g.snapshot.number? v with
  | none =>
      simp only [first, Except.ok.injEq] at found found'
      rw [← found, ← found']
      exact ⟨rfl, rfl, rfl⟩
  | some a =>
      cases second : g.snapshot.number? w with
      | none =>
          simp only [first, second, Except.ok.injEq] at found found'
          rw [← found, ← found']
          exact ⟨rfl, rfl, rfl⟩
      | some b =>
          simp only [first, second] at found found'
          split at found
          next numbers between =>
            split at found'
            next numbers' between' =>
              obtain ⟨length, head, last⟩ := opposite.between? between between'
              rw [← Except.ok.inj found, ← Except.ok.inj found']
              simp [length, head, last]
            next => cases found'
          next => cases found

theorem cyclicGroups (mirrors : Mirrors g g') (valid : g.Valid) (valid' : g'.Valid) :
    g'.cyclicGroups = g.cyclicGroups := by
  obtain ⟨d, same, opposite⟩ := mirrors.snapshot valid valid'
  unfold Graph.cyclicGroups
  rw [same]
  dsimp only
  rw [opposite.cyclicGroups]
  rfl

/-- Searches toward the same end find the same vertices. -/
theorem discovered (mirrors : Mirrors g g') (valid : g.Valid) (valid' : g'.Valid)
    (order : SearchOrder) (start : Vertex) (toward : Toward) :
    List.Perm (g'.discovered order start toward) (g.discovered order start toward) := by
  obtain ⟨d, same, opposite⟩ := mirrors.snapshot valid valid'
  unfold Graph.discovered
  rw [mirrors.direction, Direction.way_opposite]
  generalize g'.snapshot = t' at same ⊢
  subst same
  dsimp only
  have number : Snapshot.number? { g.snapshot with digraph := d } start = g.snapshot.number? start :=
    rfl
  rw [number]
  cases g.snapshot.number? start with
  | none => exact .refl _
  | some s => exact (opposite.search_perm order _ s).map _

theorem dominatedBy (mirrors : Mirrors g g') (valid : g.Valid) (valid' : g'.Valid)
    (v root : Vertex) (order : SearchOrder) :
    List.Perm (g'.dominatedBy v root order) (g.dominatedBy v root order) := by
  obtain ⟨d, same, opposite⟩ := mirrors.snapshot valid valid'
  unfold Graph.dominatedBy
  rw [mirrors.direction, Direction.way_opposite]
  generalize g'.snapshot = t' at same ⊢
  subst same
  have number : Snapshot.number? { g.snapshot with digraph := d } = g.snapshot.number? := rfl
  dsimp only
  rw [number]
  cases g.snapshot.number? v with
  | none => exact .refl _
  | some a =>
      cases g.snapshot.number? root with
      | none => exact .refl _
      | some r =>
          simp only [opposite.mem_below_iff]
          exact ((opposite.search_perm order _ r).filter _).map _

end Mirrors

end Graph

end Provenance
