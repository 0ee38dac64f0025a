import Provenance.Proofs.Graph.Refinement

/-! # Answers

A graph answers every query as the ledger that it tracks. Lists of edges at a vertex are in order of
creation; lists over the whole graph are in storage order.
-/

namespace Provenance

variable {N E : Type}

namespace Ledger

/-- The answer to a change that leaves everything as it is: one given a handle that is not live, or
one that joins a pair that is joined. -/
def idle? (l : Ledger N E) : Mutation N E → Option Reply
  | .removeVertex v | .setVertex v _ | .modifyVertex v _ =>
      if l.vertices.contains v then none else some (.flag false)
  | .removeEdge e | .setEdge e _ | .modifyEdge e _ =>
      if (l.link? e).isSome then none else some (.flag false)
  | .removeVertices vs => if vs.any l.vertices.contains then none else some .done
  | .addEdge s t =>
      match l.between? s t with
      | some e => some (.edge e)
      | none =>
          if l.vertices.contains s && l.vertices.contains t then none else some (.edge .null)
  | .addEdgeWith s t _ =>
      if l.vertices.contains s && l.vertices.contains t then none else some (.edge .null)
  | .addVertex | .addVertexWith _ | .clear | .copy => none

end Ledger

namespace Graph

/-- Every query, read off the ledger. -/
structure Answers [Inhabited E] (g : Graph N E) (l : Ledger N E) : Prop where
  direction : g.direction = l.direction
  vertexList : g.vertexList = l.vertices.keys
  vertexCount : g.vertexCount = l.vertices.size
  isEmpty : g.isEmpty = l.vertices.isEmpty
  containsVertex : ∀ v, g.containsVertex v = l.vertices.contains v
  vertexPayload? : ∀ v, g.vertexPayload? v = l.vertices[v]?
  findVertex? : ∀ test, g.findVertex? test =
    (l.vertices.toList.find? fun (_, payload) => test payload).map Prod.fst
  edgeList : g.edgeList = l.stored.map Prod.fst
  edgePairs : g.edgePairs = l.stored.map (·.2.ends)
  edgeCount : g.edgeCount = l.edges.length
  containsEdge : ∀ e, g.containsEdge e = (l.link? e).isSome
  edgePayload? : ∀ e, g.edgePayload? e = (l.link? e).map Link.payload
  source? : ∀ e, g.source? e = (l.link? e).map Link.source
  target? : ∀ e, g.target? e = (l.link? e).map Link.target
  edge? : ∀ s t, g.edge? s t = l.between? s t
  hasEdge : ∀ s t, g.hasEdge s t = (l.between? s t).isSome
  isConnected : ∀ v w, g.isConnected v w = ((l.between? v w).isSome || (l.between? w v).isSome)
  payloadBetween : ∀ s t, g.payloadBetween s t =
    (((l.between? s t).bind l.link?).map Link.payload).getD default
  outDegree : ∀ v, g.outDegree v = (l.outgoing v).length
  inDegree : ∀ v, g.inDegree v = (l.incoming v).length
  edgesOf : ∀ v flags, g.edgesOf v flags =
    let sides := flags.resolve l.direction
    (if sides.outbound then (l.outgoing v).map Prod.fst else []) ++
      (if sides.inbound then (l.incoming v).map Prod.fst else [])
  adjacentVertices : ∀ v flags, g.adjacentVertices v flags =
    let sides := flags.resolve l.direction
    (if sides.outbound then (l.outgoing v).map (·.2.target) else []) ++
      (if sides.inbound then (l.incoming v).map (·.2.source) else [])
  successors : ∀ v, g.successors v = (l.outgoing v).map (·.2.target)
  predecessors : ∀ v, g.predecessors v = (l.incoming v).map (·.2.source)
  roots : g.roots = l.roots
  leaves : g.leaves = l.leaves
  null_dead : g.containsVertex .null = false ∧ g.containsEdge .null = false

namespace Tracks

variable {g : Graph N E} {l : Ledger N E}

/-! ## The edges at a vertex -/

theorem successors (h : Tracks g l) (v : Vertex) :
    g.successors v = (l.outgoing v).map (·.2.target) := by
  rw [Graph.successors, ← h.outgoing, List.filterMap_map, ← List.filterMap_eq_map]
  refine List.filterMap_congr fun entry listed => ?_
  have found := (h.edges entry.1 entry.2).mp (List.mem_of_mem_filter listed)
  simp [target?, found]

theorem predecessors (h : Tracks g l) (v : Vertex) :
    g.predecessors v = (l.incoming v).map (·.2.source) := by
  rw [Graph.predecessors, ← h.incoming, List.filterMap_map, ← List.filterMap_eq_map]
  refine List.filterMap_congr fun entry listed => ?_
  have found := (h.edges entry.1 entry.2).mp (List.mem_of_mem_filter listed)
  simp [source?, found]

theorem outDegree (h : Tracks g l) (v : Vertex) : g.outDegree v = (l.outgoing v).length := by
  rw [Graph.outDegree, ← h.outgoing, List.length_map]

theorem inDegree (h : Tracks g l) (v : Vertex) : g.inDegree v = (l.incoming v).length := by
  rw [Graph.inDegree, ← h.incoming, List.length_map]

/-- A vertex without outbound edges is the source of none. -/
theorem no_outgoing (h : Tracks g l) (v : Vertex) :
    (g.outDegree v == 0) = l.edges.all fun (_, link) => link.source ≠ v := by
  rw [Bool.eq_iff_iff, h.outDegree]
  simp [Ledger.outgoing]

theorem no_incoming (h : Tracks g l) (v : Vertex) :
    (g.inDegree v == 0) = l.edges.all fun (_, link) => link.target ≠ v := by
  rw [Bool.eq_iff_iff, h.inDegree]
  simp [Ledger.incoming]

theorem roots (h : Tracks g l) : g.roots = l.roots := by
  unfold Graph.roots extremes Ledger.roots Ledger.family
  rw [← h.keys, h.direction]
  cases l.direction with
  | parentToChild => exact List.filter_congr fun v _ => h.no_incoming v
  | childToParent => exact List.filter_congr fun v _ => h.no_outgoing v

theorem leaves (h : Tracks g l) : g.leaves = l.leaves := by
  unfold Graph.leaves extremes Ledger.leaves Ledger.family
  rw [← h.keys, h.direction]
  cases l.direction with
  | parentToChild => exact List.filter_congr fun v _ => h.no_outgoing v
  | childToParent => exact List.filter_congr fun v _ => h.no_incoming v

/-! ## All queries -/

theorem findVertex? (h : Tracks g l) (test : N → Bool) :
    g.findVertex? test =
      (l.vertices.toList.find? fun (_, payload) => test payload).map Prod.fst := by
  rw [h.toList, List.find?_map, Option.map_map]
  rfl

theorem answers [Inhabited E] (h : Tracks g l) : Answers g l where
  direction := h.direction
  vertexList := h.keys.symm
  vertexCount := h.size.symm
  isEmpty := by rw [Graph.isEmpty, ← h.size, Std.ExtTreeMap.isEmpty_eq_size_beq_zero]
  containsVertex v := (h.contains v).symm
  vertexPayload? v := (h.vertices v).symm
  findVertex? := h.findVertex?
  edgeList := by
    rw [h.stored]
    rfl
  edgePairs := by
    rw [h.stored]
    rfl
  edgeCount := h.length.symm
  containsEdge e := by
    rw [h.link?]
    rfl
  edgePayload? e := by
    rw [h.link?]
    rfl
  source? e := by
    rw [h.link?]
    rfl
  target? e := by
    rw [h.link?]
    rfl
  edge? s t := (h.between? s t).symm
  hasEdge s t := by
    rw [h.between?]
    rfl
  isConnected v w := by
    rw [h.between?, h.between?]
    rfl
  payloadBetween s t := by
    rw [h.between?, show l.link? = g.edges.get? from funext h.link?, Option.map_bind]
    rfl
  outDegree := h.outDegree
  inDegree := h.inDegree
  edgesOf v flags := by
    rw [h.outgoing, h.incoming, ← h.direction]
    rfl
  adjacentVertices v flags := by
    rw [← h.successors, ← h.predecessors, ← h.direction]
    rfl
  successors := h.successors
  predecessors := h.predecessors
  roots := h.roots
  leaves := h.leaves
  null_dead := by
    rw [← h.contains, containsEdge, Arena.contains, ← h.link?, h.null_dead.2]
    exact ⟨Bool.eq_false_iff.mpr fun live => h.null_dead.1 (Std.ExtTreeMap.mem_iff_contains.mpr live),
      rfl⟩

/-! ## Changes that do nothing -/

theorem removeVertices_of_dead (h : Tracks g l) {vs : List Vertex}
    (dead : vs.any l.vertices.contains = false) : g.removeVertices vs = g := by
  induction vs with
  | nil => rfl
  | cons v vs ih =>
      rw [List.any_cons, Bool.or_eq_false_iff, h.contains] at dead
      rw [Graph.removeVertices, List.foldl_cons, removeVertex_of_dead dead.1]
      exact ih dead.2

theorem apply_of_idle [Inhabited N] [Inhabited E] (h : Tracks g l) {m : Mutation N E}
    {reply : Reply} (idle : l.idle? m = some reply) : m.apply g = (reply, g) := by
  have unchanged : ∀ {v : Vertex} (f : N → N), g.containsVertex v = false →
      g.modifyVertex v f = g := fun f dead => by
    simp [Graph.modifyVertex, Arena.modify, Arena.contains_eq_false.mp dead]
  have unchanged' : ∀ {e : Edge} (f : E → E), g.containsEdge e = false →
      g.modifyEdge e f = g := fun f dead => by
    simp [Graph.modifyEdge, Arena.modify, Arena.contains_eq_false.mp dead]
  have live_edge : ∀ e, (l.link? e).isSome = g.containsEdge e := fun e => by
    rw [h.link?]
    rfl
  cases m with
  | addVertex => simp [Ledger.idle?] at idle
  | addVertexWith payload => simp [Ledger.idle?] at idle
  | removeVertex v =>
      cases live : g.containsVertex v <;> simp [Ledger.idle?, h.contains, live] at idle
      rw [← idle, Mutation.apply, removeVertex_of_dead live]
      rfl
  | removeVertices vs =>
      cases live : vs.any l.vertices.contains <;> simp [Ledger.idle?, live] at idle
      rw [← idle, Mutation.apply, h.removeVertices_of_dead live]
  | addEdge s t =>
      cases found : g.edge? s t with
      | some e =>
          simp only [Ledger.idle?, h.between?, found, Option.some.injEq] at idle
          rw [← idle, Mutation.apply, addEdge_of_joined h.valid found]
          rfl
      | none =>
          cases live : g.containsVertex s && g.containsVertex t <;>
            simp [Ledger.idle?, h.contains, h.between?, found, live] at idle
          rw [← idle, Mutation.apply, addEdge_of_dead live]
          rfl
  | addEdgeWith s t payload =>
      cases live : g.containsVertex s && g.containsVertex t <;>
        simp [Ledger.idle?, h.contains, live] at idle
      rw [← idle, Mutation.apply, addEdgeWith_of_dead live]
      rfl
  | removeEdge e =>
      cases live : g.containsEdge e <;> simp [Ledger.idle?, live_edge, live] at idle
      have dead := dropEdge_of_dead (Arena.contains_eq_false.mp live)
      rw [← idle, Mutation.apply, Graph.removeEdge, live, dead]
      rfl
  | setVertex v payload =>
      cases live : g.containsVertex v <;> simp [Ledger.idle?, h.contains, live] at idle
      rw [← idle, Mutation.apply, setVertex, live, unchanged _ live]
      rfl
  | modifyVertex v f =>
      cases live : g.containsVertex v <;> simp [Ledger.idle?, h.contains, live] at idle
      rw [← idle, Mutation.apply, live, unchanged _ live]
  | setEdge e payload =>
      cases live : g.containsEdge e <;> simp [Ledger.idle?, live_edge, live] at idle
      rw [← idle, Mutation.apply, setEdge, live, unchanged' _ live]
      rfl
  | modifyEdge e f =>
      cases live : g.containsEdge e <;> simp [Ledger.idle?, live_edge, live] at idle
      rw [← idle, Mutation.apply, live, unchanged' _ live]
  | clear => simp [Ledger.idle?] at idle
  | copy => simp [Ledger.idle?] at idle

end Tracks

/-- Whatever is done to a graph, with whatever handles, some ledger goes through the same changes
with the same answers, and tells what the graph says about itself in the end. A change with a handle
that is not live, and one that joins a pair again, leaves the graph as it was. -/
theorem refines_ledger [Inhabited N] [Inhabited E] (direction : Direction)
    (ms : List (Mutation N E)) :
    let start : Graph N E := empty direction
    ∃ l, Ledger.Run (Ledger.empty direction) ms (start.replies ms) l ∧ l.Valid ∧
      Answers (start.after ms) l ∧
      ∀ m reply, l.idle? m = some reply → m.apply (start.after ms) = (reply, start.after ms) := by
  obtain ⟨l, run, tracks⟩ := (Tracks.empty direction : Tracks _ (.empty direction)).run ms
  exact ⟨l, run, tracks.ledger_valid, tracks.answers, fun m reply => tracks.apply_of_idle⟩

end Graph

end Provenance
