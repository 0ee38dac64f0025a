import Provenance.Proofs.Tables.Answers
import Provenance.Proofs.Tables.Mutations

/-! # Copies from tables

Closures and reductions are built from a table of the new vertices. With them every operation on a
graph that a run has led to is done without a failing access.
-/

namespace Provenance

namespace Table

variable {n : Nat}

/-- The pairs of a vertex and one that it reaches. -/
def pairsFrom? (reach : Array (VertexSet n)) (u : Nat) : Option (List (Nat × Nat)) := do
  return (← reach[u]?).toList.map fun w => (u, w.val)

def pairs? (reach : Array (VertexSet n)) : Option (List (Nat × Nat)) := do
  return (← (List.range n).mapM (pairsFrom? reach)).flatten

/-- Whether a chain through a vertex replaces an edge to `w`. -/
def bypasses? (reach : Array (VertexSet n)) (w v : Nat) : Option Bool := do
  return v != w && (← reach[v]?).bits.getLsbD w

/-- Whether an edge is implied by a chain through another successor of its source. -/
def implied? (succ : Array (List Nat)) (reach : Array (VertexSet n)) (u w : Nat) : Option Bool := do
  return !(← filter? (bypasses? reach w) (← succ[u]?)).isEmpty

def stays? (succ : Array (List Nat)) (reach : Array (VertexSet n)) (pair : Nat × Nat) :
    Option Bool := do
  return !(← implied? succ reach pair.1 pair.2)

/-- The edges of a closure. -/
def closurePairs? (n : Nat) (succ : Array (List Nat)) (order : List Nat) :
    Option (List (Nat × Nat)) := do
  pairs? (← reachOf? n succ order)

/-- The edges of a reduction. -/
def keptPairs? (n : Nat) (succ : Array (List Nat)) (order : List Nat) (pairs : List (Nat × Nat)) :
    Option (List (Nat × Nat)) := do
  filter? (stays? succ (← reachOf? n succ order)) pairs

end Table

/-! ## Building -/

namespace Graph

variable {N E : Type}

/-- One vertex for each of a number, and the table of them. -/
def skeleton? [Inhabited N] (direction : Direction) : Nat → Option (Graph N E × Array Vertex)
  | 0 => some (empty direction, #[])
  | n + 1 => do
      let (g, copied) ← skeleton? direction n
      let (v, g) ← g.addVertexWith? default
      return (g, copied.push v)

def copyEdge? [Inhabited E] (copied : Array Vertex) (h : Graph N E) (pair : Nat × Nat) :
    Option (Graph N E) := do
  return (← h.addEdge? (← copied[pair.1]?) (← copied[pair.2]?)).2

/-- The numbers of the ends of an edge. -/
def ends? (g : Graph N E) (l : Layout) (e : Edge) : Option (Option (Nat × Nat)) :=
  match g.edges.get? e with
  | none => return none
  | some link => do
      match ← l.number? link.source, ← l.number? link.target with
      | some u, some w => return some (u, w)
      | _, _ => return none

/-- The vertices of a copy that stand for the ends of an edge. -/
def copyEnds? (g : Graph N E) (l : Layout) (copied : Array Vertex) (e : Edge) :
    Option (Option (Vertex × Vertex)) := do
  match ← g.ends? l e with
  | some (u, w) => return some (← copied[u]?, ← copied[w]?)
  | none => return none

/-- The edge of a copy that stands for an edge of the graph. -/
def copyOf? (g : Graph N E) (l : Layout) (copied : Array Vertex) (copy : Graph N E) (e : Edge) :
    Option (Option Edge) := do
  match ← g.copyEnds? l copied e with
  | some (source, target) => return copy.edge? source target
  | none => return none

/-- Whether a copy has no edge for an edge of the graph. -/
def drops? (g : Graph N E) (l : Layout) (copied : Array Vertex) (copy : Graph N E) (e : Edge) :
    Option Bool := do
  match ← g.copyEnds? l copied e with
  | some (source, target) => return !copy.hasEdge source target
  | none => return false

def copyVertexPayload? (g : Graph N E) (l : Layout) (copied : Array Vertex) (h : Graph N E)
    (i : Nat) : Option (Graph N E) := do
  match g.vertexPayload? (← l.vertices[i]?) with
  | some payload => return (h.setVertex (← copied[i]?) payload).2
  | none => return h

def copyEdgePayload? (g : Graph N E) (l : Layout) (copied : Array Vertex) (copy h : Graph N E)
    (e : Edge) : Option (Graph N E) := do
  match ← g.copyOf? l copied copy e, g.edgePayload? e with
  | some copiedEdge, some payload => return (h.setEdge copiedEdge payload).2
  | _, _ => return h

def copyPayloads? (g : Graph N E) (l : Layout) (copied : Array Vertex) (flags : CopyFlags)
    (copy : Graph N E) : Option (Graph N E) := do
  let copy ←
    if flags.vertexPayloads then
      (List.range l.vertices.size).foldlM (g.copyVertexPayload? l copied) copy
    else some copy
  if flags.edgePayloads then g.edgeList.foldlM (g.copyEdgePayload? l copied copy) copy
  else some copy

def transitiveClosure? [Inhabited N] [Inhabited E] (g : Graph N E) (flags : CopyFlags) :
    Option (Except GraphError (Graph N E)) := do
  let l ← g.layout?
  match ← l.topologicalOrder? with
  | none => return .error (.notAcyclic .transitiveClosure)
  | some order =>
      let pairs ← Table.closurePairs? g.vertexList.length l.succ order
      let (blank, copied) ← skeleton? g.direction l.vertices.size
      let copy ← pairs.foldlM (copyEdge? copied) blank
      return .ok (← g.copyPayloads? l copied flags copy)

def transitiveReductionWithRemoved? [Inhabited N] [Inhabited E] (g : Graph N E)
    (flags : CopyFlags) : Option (Except GraphError (Graph N E × List Edge)) := do
  let l ← g.layout?
  match ← l.topologicalOrder? with
  | none => return .error (.notAcyclic .transitiveReduction)
  | some order =>
      let joined ← Table.filterMap? (g.ends? l) g.edgeList
      let pairs ← Table.keptPairs? g.vertexList.length l.succ order joined
      let (blank, copied) ← skeleton? g.direction l.vertices.size
      let copy ← pairs.foldlM (copyEdge? copied) blank
      let reduction ← g.copyPayloads? l copied flags copy
      return .ok (reduction, ← Table.filter? (g.drops? l copied reduction) g.edgeList)

end Graph

/-! ## Nothing fails -/

variable {n : Nat}

theorem VertexMap.table_push {α : Type} (m : VertexMap α n) (a : α) :
    (m.push a).table = m.table.push a := Vector.toArray_push

/-- Pairs of vertices by their numbers. -/
def plainPair (pair : Fin n × Fin n) : Nat × Nat := (pair.1.val, pair.2.val)

theorem pairs?_eq (reach : Reach n) :
    Table.pairs? reach.table = some (reach.pairs.map plainPair) := by
  have vertices : List.range n = (List.finRange n).map Fin.val := by simp
  have each : ∀ u : Fin n, Table.pairsFrom? reach.table u.val =
      some (((reach.get u).toList.map (u, ·)).map plainPair) := fun u => by
    simp [Table.pairsFrom?, plainPair, Function.comp_def]
  rw [Table.pairs?, vertices, Table.mapM_eq_some each, Option.bind_eq_bind, Option.bind_some,
    ← List.flatMap_def, Reach.pairs, List.map_flatMap]
  rfl

theorem bypasses?_eq (reach : Reach n) (w v : Fin n) :
    Table.bypasses? reach.table w.val v.val = some (v != w && decide (w ∈ reach.get v)) := by
  have bit : (reach.get v).bits.getLsbD w.val = decide (w ∈ reach.get v) := by
    simp [VertexSet.mem_def]
  have other : (v.val != w.val) = (v != w) := by
    simp [bne, beq_eq_decide, Fin.val_inj]
  rw [Table.bypasses?, VertexMap.getElem?_table, Option.bind_eq_bind, Option.bind_some, bit, other]
  rfl

theorem implied?_eq (d : Digraph n) (reach : Reach n) (u w : Fin n) :
    Table.implied? (d.lists .along) reach.table u.val w.val = some (d.implied reach u w) := by
  have kept := Table.filter?_eq_some fun v (_ : v ∈ d.neighbors .along u) => bypasses?_eq reach w v
  rw [Table.implied?, Digraph.getElem?_lists, Option.bind_eq_bind, Option.bind_some, kept,
    Option.bind_some, List.isEmpty_map, Digraph.implied]
  refine congrArg some ?_
  rw [Bool.eq_iff_iff]
  simp

namespace Graph

variable {N E : Type}

theorem skeleton?_eq [Inhabited N] [Inhabited E] (direction : Direction) (n : Nat) :
    skeleton? direction n = some ((skeleton direction n : Copy N E n).graph,
      (skeleton direction n : Copy N E n).vertices.table) := by
  induction n with
  | zero => rfl
  | succ n ih =>
      rw [skeleton?, ih, Option.bind_eq_bind, Option.bind_some]
      dsimp only
      rw [addVertexWith?_eq (valid_skeleton direction n), Option.bind_eq_bind, Option.bind_some,
        skeleton, VertexMap.table_push]
      rfl

theorem foldlM_copyEdge?_eq [Inhabited E] (vertices : VertexMap Vertex n) {h : Graph N E}
    (valid : h.Valid) (pairs : List (Fin n × Fin n)) :
    (pairs.map plainPair).foldlM (copyEdge? vertices.table) h =
      some (Copy.addEdges ⟨h, vertices⟩ pairs).graph := by
  induction pairs generalizing h with
  | nil => rfl
  | cons pair pairs ih =>
      have added : copyEdge? vertices.table h (plainPair pair) =
          some (h.addEdge (vertices.get pair.1) (vertices.get pair.2)).2 := by
        simp [copyEdge?, plainPair, addEdge?_eq valid]
      rw [List.map_cons, List.foldlM_cons, added, Option.bind_eq_bind, Option.bind_some]
      exact ih (valid_addEdge valid _ _)

/-- The first copy of a graph, with an edge for each of the pairs. -/
theorem foldlM_copyEdge?_skeleton [Inhabited N] [Inhabited E] (direction : Direction)
    (pairs : List (Fin n × Fin n)) :
    (pairs.map plainPair).foldlM
        (copyEdge? (skeleton direction n : Copy N E n).vertices.table)
        (skeleton direction n : Copy N E n).graph =
      some ((skeleton direction n : Copy N E n).addEdges pairs).graph :=
  foldlM_copyEdge?_eq _ (valid_skeleton direction n) pairs

section Copying

variable (g : Graph N E) (copied : VertexMap Vertex g.snapshot.size)

theorem ends?_eq (e : Edge) :
    g.ends? g.snapshot.layout e = some ((g.endNumbers? g.snapshot e).map plainPair) := by
  unfold ends? endNumbers?
  cases g.edges.get? e with
  | none => rfl
  | some link =>
      simp only [Snapshot.number?_layout, Option.bind_eq_bind, Option.bind_some]
      cases g.snapshot.number? link.source with
      | none => rfl
      | some u => cases g.snapshot.number? link.target <;> rfl

theorem copyEnds?_eq (copy : Graph N E) (e : Edge) :
    g.copyEnds? g.snapshot.layout copied.table e =
      some (g.copiedEnds? g.snapshot ⟨copy, copied⟩ e) := by
  rw [copyEnds?, ends?_eq, Option.bind_eq_bind, Option.bind_some, copiedEnds?]
  cases g.endNumbers? g.snapshot e with
  | none => rfl
  | some pair => simp [plainPair]

theorem copyOf?_eq (copy : Graph N E) (e : Edge) :
    g.copyOf? g.snapshot.layout copied.table copy e =
      some (g.counterpart? g.snapshot ⟨copy, copied⟩ e) := by
  rw [copyOf?, copyEnds?_eq g copied copy, Option.bind_eq_bind, Option.bind_some, counterpart?]
  cases g.copiedEnds? g.snapshot ⟨copy, copied⟩ e <;> rfl

theorem foldlM_copyVertexPayload?_eq (copy : Graph N E) :
    (List.range g.snapshot.layout.vertices.size).foldlM
        (g.copyVertexPayload? g.snapshot.layout copied.table) copy =
      some (g.copyVertexPayloads g.snapshot ⟨copy, copied⟩).graph := by
  rw [Snapshot.range_layout]
  refine Table.foldlM_eq_some (t := id) (fun h i => ?_) _ copy
  simp only [copyVertexPayload?, Snapshot.layout, VertexMap.getElem?_table, Option.bind_eq_bind,
    Option.bind_some, id, Snapshot.label]
  cases g.vertexPayload? (g.snapshot.labels.get i) <;> rfl

theorem foldlM_copyEdgePayload?_eq (copy : Graph N E) :
    g.edgeList.foldlM (g.copyEdgePayload? g.snapshot.layout copied.table copy) copy =
      some (g.copyEdgePayloads g.snapshot ⟨copy, copied⟩).graph := by
  have each : ∀ (h : Graph N E) (e : Edge),
      g.copyEdgePayload? g.snapshot.layout copied.table copy h e =
        some (match g.counterpart? g.snapshot ⟨copy, copied⟩ e, g.edgePayload? e with
          | some copied, some payload => (h.setEdge copied payload).2
          | _, _ => h) := by
    intro h e
    rw [copyEdgePayload?, copyOf?_eq, Option.bind_eq_bind, Option.bind_some]
    cases g.counterpart? g.snapshot ⟨copy, copied⟩ e with
    | none => rfl
    | some _ => cases g.edgePayload? e <;> rfl
  have loop := Table.foldlM_eq_some (i := id) (t := id) each g.edgeList copy
  rw [List.map_id] at loop
  exact loop

theorem copyPayloads?_eq (flags : CopyFlags) (copy : Graph N E) :
    g.copyPayloads? g.snapshot.layout copied.table flags copy =
      some (g.copyPayloads g.snapshot flags ⟨copy, copied⟩).graph := by
  unfold copyPayloads? copyPayloads
  cases flags.vertexPayloads with
  | false =>
      cases flags.edgePayloads with
      | false => rfl
      | true => exact foldlM_copyEdgePayload?_eq g copied copy
  | true =>
      simp only [if_true, foldlM_copyVertexPayload?_eq, Option.bind_eq_bind, Option.bind_some]
      cases flags.edgePayloads with
      | false => rfl
      | true => exact foldlM_copyEdgePayload?_eq g copied _

theorem closurePairs?_eq (order : List (Fin g.snapshot.size)) :
    Table.closurePairs? g.vertexList.length g.snapshot.layout.succ (order.map Fin.val) =
      some ((g.snapshot.digraph.reachOf order).pairs.map plainPair) := by
  have reach := reachOf?_eq g.snapshot.digraph order
  change Table.closurePairs? g.snapshot.size (g.snapshot.digraph.lists .along) _ = _
  rw [Table.closurePairs?, reach, Option.bind_eq_bind, Option.bind_some, pairs?_eq]

theorem keptPairs?_eq (order : List (Fin g.snapshot.size)) :
    Table.keptPairs? g.vertexList.length g.snapshot.layout.succ (order.map Fin.val)
        ((g.edgeList.filterMap (g.endNumbers? g.snapshot)).map plainPair) =
      some ((g.keptPairs (g.snapshot.digraph.reachOf order)).map plainPair) := by
  have reach := reachOf?_eq g.snapshot.digraph order
  change Table.keptPairs? g.snapshot.size (g.snapshot.digraph.lists .along) _ _ = _
  rw [Table.keptPairs?, reach, Option.bind_eq_bind, Option.bind_some, keptPairs]
  refine Table.filter?_eq_some fun pair _ => ?_
  simp [Table.stays?, plainPair, implied?_eq]

theorem filterMap?_ends?_eq :
    Table.filterMap? (g.ends? g.snapshot.layout) g.edgeList =
      some ((g.edgeList.filterMap (g.endNumbers? g.snapshot)).map plainPair) := by
  have found := Table.filterMap?_eq_some (i := id) fun e (_ : e ∈ g.edgeList) => g.ends?_eq e
  rw [List.map_id] at found
  rw [found, List.map_filterMap]

/-- Payloads leave the table of the new vertices as it is, so that the edges can be compared after
they are set. -/
theorem filter?_drops?_eq (flags : CopyFlags) (copy : Graph N E) :
    let reduction := g.copyPayloads g.snapshot flags ⟨copy, copied⟩
    Table.filter? (g.drops? g.snapshot.layout copied.table reduction.graph) g.edgeList =
      some (g.difference g.snapshot reduction) := by
  intro reduction
  have kept : reduction.vertices = copied := vertices_copyPayloads flags
  clear_value reduction
  subst kept
  have each : ∀ e ∈ g.edgeList,
      g.drops? g.snapshot.layout reduction.vertices.table reduction.graph (id e) =
        some (g.isMissing g.snapshot reduction e) := fun e _ => by
    rw [id, drops?, copyEnds?_eq g _ reduction.graph, Option.bind_eq_bind, Option.bind_some,
      isMissing]
    cases g.copiedEnds? g.snapshot reduction e <;> rfl
  have found := Table.filter?_eq_some each
  rwa [List.map_id, List.map_id] at found

end Copying

variable [Inhabited N] [Inhabited E] {g : Graph N E}

theorem transitiveClosure?_eq (valid : g.Valid) (flags : CopyFlags) :
    g.transitiveClosure? flags = some (g.transitiveClosure flags) := by
  rw [transitiveClosure_eq, transitiveClosure?, layout?_eq valid, Option.bind_eq_bind,
    Option.bind_some, Snapshot.topologicalOrder?_layout, Option.bind_eq_bind, Option.bind_some,
    Digraph.reach?]
  cases g.snapshot.digraph.topologicalOrder? with
  | none => rfl
  | some order =>
      simp only [Option.map_some, closurePairs?_eq, Snapshot.size_layout, skeleton?_eq,
        foldlM_copyEdge?_skeleton, copyPayloads?_eq, Option.bind_eq_bind, Option.bind_some]
      rfl

theorem transitiveReductionWithRemoved?_eq (valid : g.Valid) (flags : CopyFlags) :
    g.transitiveReductionWithRemoved? flags = some (g.transitiveReductionWithRemoved flags) := by
  rw [transitiveReductionWithRemoved_eq, transitiveReductionWithRemoved?, layout?_eq valid,
    Option.bind_eq_bind, Option.bind_some, Snapshot.topologicalOrder?_layout, Option.bind_eq_bind,
    Option.bind_some, Digraph.reach?]
  cases g.snapshot.digraph.topologicalOrder? with
  | none => rfl
  | some order =>
      simp only [Option.map_some, filterMap?_ends?_eq, keptPairs?_eq, Snapshot.size_layout,
        skeleton?_eq, foldlM_copyEdge?_skeleton, filter?_drops?_eq, copyPayloads?_eq,
        Option.bind_eq_bind, Option.bind_some]
      rfl

/-! ## All operations -/

/-- Every operation on the graph is done without a failing access, whatever handles it is given. -/
structure InBounds (g : Graph N E) : Prop where
  perform : ∀ m : Mutation N E, m.perform? g = some (m.apply g)
  after : ∀ ms : List (Mutation N E), g.after? ms = some (g.after ms)
  vertices : ∀ v ∈ g.vertexList, v.index < Handle.nullIndex
  edges : ∀ e ∈ g.edgeList, e.index < Handle.nullIndex
  layout : g.layout? = some g.snapshot.layout
  discovered : ∀ order start toward,
    g.discovered? order start toward = some (g.discovered order start toward)
  components : g.components? = some g.components
  cyclicGroups : g.cyclicGroups? = some g.cyclicGroups
  isAcyclic : g.isAcyclic? = some g.isAcyclic
  topologicalSort : g.topologicalSort? = some g.topologicalSort
  shortestPath : ∀ v w, g.shortestPath? v w = some (g.shortestPath v w)
  longestPath : ∀ v, g.longestPath? v = some (g.longestPath v)
  distances : ∀ start extent, g.distances? start extent = some (g.distances start extent)
  dominatorTree : ∀ root, g.dominatorTree? root = some (g.dominatorTree root)
  dominatedBy : ∀ v root order, g.dominatedBy? v root order = some (g.dominatedBy v root order)
  transitiveClosure : ∀ flags, g.transitiveClosure? flags = some (g.transitiveClosure flags)
  transitiveReduction : ∀ flags,
    g.transitiveReductionWithRemoved? flags = some (g.transitiveReductionWithRemoved flags)

theorem Valid.inBounds (valid : g.Valid) : g.InBounds where
  perform := perform?_eq valid
  after := after?_eq valid
  vertices _ listed := valid.vertices.index_lt_null listed
  edges _ listed := valid.edges.index_lt_null listed
  layout := layout?_eq valid
  discovered := discovered?_eq valid
  components := components?_eq valid
  cyclicGroups := cyclicGroups?_eq valid
  isAcyclic := isAcyclic?_eq valid
  topologicalSort := topologicalSort?_eq valid
  shortestPath := shortestPath?_eq valid
  longestPath := longestPath?_eq valid
  distances := distances?_eq valid
  dominatorTree := dominatorTree?_eq valid
  dominatedBy := dominatedBy?_eq valid
  transitiveClosure := transitiveClosure?_eq valid
  transitiveReduction := transitiveReductionWithRemoved?_eq valid

/-- Whatever has been done to a graph, every further operation is done without a failing access. So
it is with its closure and its reductions, to which a run of their own leads. -/
theorem runs_in_bounds (direction : Direction) (ms : List (Mutation N E)) :
    let g := (empty direction).after ms
    (empty direction).after? ms = some g ∧ g.InBounds ∧
      (∀ flags c, g.transitiveClosure flags = .ok c →
        ∃ ms', (empty g.direction).after? ms' = some c ∧ c.InBounds) ∧
      ∀ flags r removed, g.transitiveReductionWithRemoved flags = .ok (r, removed) →
        ∃ ms', (empty g.direction).after? ms' = some r ∧ r.InBounds := by
  have run : ∀ (direction : Direction) (ms : List (Mutation N E)),
      (empty direction).after? ms = some ((empty direction).after ms) ∧
        ((empty direction).after ms).InBounds := fun direction ms =>
    ⟨after?_eq (valid_empty direction) ms, (valid_after (valid_empty direction) ms).inBounds⟩
  refine ⟨(run direction ms).1, (run direction ms).2, fun flags c closed => ?_,
    fun flags r removed reduced => ?_⟩
  · obtain ⟨ms', rfl⟩ := continues_transitiveClosure closed
    exact ⟨ms', run _ ms'⟩
  · obtain ⟨ms', rfl⟩ := continues_transitiveReduction reduced
    exact ⟨ms', run _ ms'⟩

end Graph

end Provenance
