import Mathlib.Data.List.ProdSigma
import Provenance.Graph.Derived
import Provenance.Proofs.Digraph.Reach
import Provenance.Proofs.Graph.Joins

/-! # Transitive closure and reduction of a graph

The closure joins two vertices if there is a way from one to the other. The reduction drops edges
that a longer way replaces, so there are the same ways in it.
-/

open Relation (TransGen)

namespace Provenance.Graph

variable {N E : Type} {n : Nat}

/-! ## Copies -/

/-- Each number of a copy has a vertex of its own. -/
structure Copy.Faithful (copy : Copy N E n) : Prop where
  valid : copy.graph.Valid
  live : ∀ i, copy.graph.containsVertex (copy.vertices.get i) = true
  distinct : ∀ i j, copy.vertices.get i = copy.vertices.get j → i = j

theorem get_push {α : Type} (m : VertexMap α n) (a : α) (i : Fin (n + 1)) :
    (m.push a).get i = if h : i.val < n then m.get ⟨i, h⟩ else a := Vector.getElem_push i.isLt

/-- A copy stays faithful when it gets one more vertex. -/
theorem Copy.Faithful.push {copy : Copy N E n} (faithful : copy.Faithful)
    (room : copy.graph.vertices.isFull = false) (payload : N) :
    Copy.Faithful ⟨(copy.graph.addVertexWith payload).2,
      copy.vertices.push (copy.graph.addVertexWith payload).1⟩ := by
  have found := get?_addVertexWith faithful.valid room payload
  have fresh := addVertexWith_fresh faithful.valid room payload
  have valid := valid_addVertexWith faithful.valid payload
  generalize copy.graph.addVertexWith payload = added at *
  have others : ∀ i, copy.vertices.get i ≠ added.1 := by
    intro i same
    have live := faithful.live i
    rw [same, containsVertex, Arena.contains, fresh] at live
    cases live
  refine ⟨valid, fun i => ?_, fun i j same => ?_⟩
  · rw [get_push]
    split
    next old =>
      have live := faithful.live ⟨i, old⟩
      rwa [containsVertex, Arena.contains, found, if_neg (others _)]
    next => simp [containsVertex, Arena.contains, found]
  · simp only [get_push] at same
    split at same
    next old =>
      split at same
      next old' => exact Fin.ext (Fin.mk.inj (faithful.distinct _ _ same))
      next => exact absurd same (others _)
    next new =>
      split at same
      next => exact absurd same.symm (others _)
      next new' => exact Fin.ext (by omega)

theorem skeleton_spec [Inhabited N] (direction : Direction) (room : n ≤ Handle.nullIndex) :
    let copy := (skeleton direction n : Copy N E n)
    copy.Faithful ∧ copy.graph.direction = direction ∧ copy.graph.vertexCount = n ∧
      copy.graph.edgeCount = 0 := by
  induction n with
  | zero =>
      refine ⟨⟨valid_empty direction, ?_, ?_⟩, rfl, rfl, rfl⟩
      · exact fun i => i.elim0
      · exact fun i => i.elim0
  | succ n ih =>
      obtain ⟨faithful, same_direction, count, no_edges⟩ := ih (Nat.le_of_succ_le room)
      have not_full : (skeleton direction n : Copy N E n).graph.vertices.isFull = false := by
        cases full : (skeleton direction n : Copy N E n).graph.vertices.isFull with
        | false => rfl
        | true =>
            have all := faithful.valid.vertices.isFull_iff.mp full
            rw [vertexCount, all] at count
            omega
      refine ⟨faithful.push not_full default, ?_, ?_, ?_⟩
      · exact (direction_addVertexWith _ default).trans same_direction
      · exact (vertexCount_addVertexWith not_full default).trans (congrArg (· + 1) count)
      · exact (congrArg Arena.size (edges_addVertexWith _ default)).trans no_edges

theorem Valid.vertexCount_le {g : Graph N E} (valid : g.Valid) :
    g.vertexCount ≤ Handle.nullIndex := by
  rw [vertexCount, valid.vertices.counted]
  exact Nat.le_trans Array.countP_le_size valid.vertices.bounded

theorem Valid.edgeCount_le {g : Graph N E} (valid : g.Valid) : g.edgeCount ≤ Handle.nullIndex := by
  rw [edgeCount, valid.edges.counted]
  exact Nat.le_trans Array.countP_le_size valid.edges.bounded

theorem size_snapshot {g : Graph N E} (valid : g.Valid) : g.snapshot.size = g.vertexCount :=
  valid.vertices.length_handles

/-- The pairs of vertices that stand for pairs of numbers. -/
def Copy.placed (copy : Copy N E n) (pairs : List (Fin n × Fin n)) : List (Vertex × Vertex) :=
  pairs.map fun (u, w) => (copy.vertices.get u, copy.vertices.get w)

theorem Copy.Faithful.mem_placed {copy : Copy N E n} (faithful : copy.Faithful)
    {pairs : List (Fin n × Fin n)} {u w : Fin n} :
    (copy.vertices.get u, copy.vertices.get w) ∈ copy.placed pairs ↔ (u, w) ∈ pairs := by
  constructor
  · intro listed
    obtain ⟨⟨u', w'⟩, listed, same⟩ := List.mem_map.mp listed
    obtain ⟨source, target⟩ := Prod.mk.inj same
    rwa [← faithful.distinct _ _ source, ← faithful.distinct _ _ target]
  · exact fun listed => List.mem_map.mpr ⟨(u, w), listed, rfl⟩

theorem Copy.Faithful.joins [Inhabited E] {copy : Copy N E n} (faithful : copy.Faithful)
    (pairs : List (Fin n × Fin n)) :
    Joins copy.graph (copy.addEdges pairs).graph (copy.placed pairs) := by
  have joins := joins_addEdges faithful.valid (copy.placed pairs) fun s t listed => by
    obtain ⟨⟨u, w⟩, -, same⟩ := List.mem_map.mp listed
    obtain ⟨rfl, rfl⟩ := Prod.mk.inj same
    exact ⟨faithful.live u, faithful.live w⟩
  rwa [Copy.placed, List.foldl_map] at joins

theorem Copy.Faithful.addEdges [Inhabited E] {copy : Copy N E n} (faithful : copy.Faithful)
    (pairs : List (Fin n × Fin n)) : (copy.addEdges pairs).Faithful where
  valid := (faithful.joins pairs).valid
  live i := ((faithful.joins pairs).containsVertex _).trans (faithful.live i)
  distinct := faithful.distinct

/-! ## Payloads of a copy -/

/-- Graphs that differ in payloads only. -/
structure SameShape (g g' : Graph N E) : Prop where
  valid : g'.Valid
  direction : g'.direction = g.direction
  containsVertex : ∀ v, g'.containsVertex v = g.containsVertex v
  edgeCount : g'.edgeCount = g.edgeCount
  joined : ∀ s t, g'.Joined s t ↔ g.Joined s t

namespace SameShape

variable {g g' g'' : Graph N E}

theorem refl (valid : g.Valid) : SameShape g g := ⟨valid, rfl, fun _ => rfl, rfl, fun _ _ => .rfl⟩

theorem trans (first : SameShape g g') (second : SameShape g' g'') : SameShape g g'' where
  valid := second.valid
  direction := second.direction.trans first.direction
  containsVertex v := (second.containsVertex v).trans (first.containsVertex v)
  edgeCount := second.edgeCount.trans first.edgeCount
  joined s t := (second.joined s t).trans (first.joined s t)

theorem modifyVertex (valid : g.Valid) (v : Vertex) (f : N → N) :
    SameShape g (g.modifyVertex v f) where
  valid := valid_modifyVertex valid v f
  direction := rfl
  containsVertex w := by
    have isSome : ∀ (h : Graph N E) w, h.containsVertex w = (h.vertexPayload? w).isSome :=
      fun h w => Option.isSome_map.symm
    rw [isSome, isSome, vertexPayload?_modifyVertex]
    split
    next same => rw [Option.isSome_map, same]
    next => rfl
  edgeCount := rfl
  joined _ _ := .rfl

theorem modifyEdge (valid : g.Valid) (e : Edge) (f : E → E) : SameShape g (g.modifyEdge e f) where
  valid := valid_modifyEdge valid e f
  direction := rfl
  containsVertex _ := rfl
  edgeCount := Arena.size_modify _ _ _
  joined _ _ := .rfl

end SameShape

section CopyPayloads

variable {g : Graph N E} {copy : Copy N E g.snapshot.size}

/-- Each vertex of the copy has the payload of the one that it stands for, once it was its turn. -/
theorem copyVertexPayloads_list (faithful : copy.Faithful) {is : List (Fin g.snapshot.size)}
    (nodup : is.Nodup) {h : Graph N E} (shape : SameShape copy.graph h) :
    let h' := is.foldl (fun h i => match g.vertexPayload? (g.snapshot.label i) with
      | some payload => (h.setVertex (copy.vertices.get i) payload).2
      | none => h) h
    SameShape copy.graph h' ∧
      (∀ i ∈ is, h'.vertexPayload? (copy.vertices.get i) =
        g.vertexPayload? (g.snapshot.label i)) ∧
      ∀ i, i ∉ is → h'.vertexPayload? (copy.vertices.get i) =
        h.vertexPayload? (copy.vertices.get i) := by
  induction is generalizing h with
  | nil => exact ⟨shape, fun i listed => absurd listed List.not_mem_nil, fun i _ => rfl⟩
  | cons i is ih =>
      obtain ⟨new, nodup⟩ := List.nodup_cons.mp nodup
      obtain ⟨node, found⟩ := containsVertex_iff.mp (g.label_live i)
      have payload : g.vertexPayload? (g.snapshot.label i) = some node.payload := by
        rw [vertexPayload?, found]
        rfl
      have live : (h.vertexPayload? (copy.vertices.get i)).isSome := by
        have live := (shape.containsVertex _).trans (faithful.live i)
        rwa [vertexPayload?, Option.isSome_map]
      have set := vertexPayload?_modifyVertex h (copy.vertices.get i) fun _ => node.payload
      obtain ⟨same, done, others⟩ := ih nodup
        (shape.trans (SameShape.modifyVertex shape.valid (copy.vertices.get i) fun _ => node.payload))
      simp only [List.foldl_cons, payload]
      refine ⟨same, fun j listed => ?_, fun j unlisted => ?_⟩
      · rcases List.mem_cons.mp listed with rfl | later
        · refine (others j new).trans ?_
          rw [set, if_pos rfl, payload]
          obtain ⟨old, hold⟩ := Option.isSome_iff_exists.mp live
          rw [hold]
          rfl
        · exact done j later
      · rw [List.mem_cons, not_or] at unlisted
        refine (others j unlisted.2).trans ?_
        rw [set, if_neg fun same => unlisted.1 (faithful.distinct _ _ same)]

theorem copyVertexPayloads_spec (faithful : copy.Faithful) :
    SameShape copy.graph (g.copyVertexPayloads g.snapshot copy).graph ∧
      ∀ i, (g.copyVertexPayloads g.snapshot copy).graph.vertexPayload? (copy.vertices.get i) =
        g.vertexPayload? (g.snapshot.label i) := by
  obtain ⟨shape, done, -⟩ := copyVertexPayloads_list faithful (List.nodup_finRange _)
    (SameShape.refl faithful.valid)
  exact ⟨shape, fun i => done i (List.mem_finRange i)⟩

/-- The payloads of the edges change nothing else. -/
theorem copyEdgePayloads_spec (valid : copy.graph.Valid) :
    SameShape copy.graph (g.copyEdgePayloads g.snapshot copy).graph ∧
      ∀ v, (g.copyEdgePayloads g.snapshot copy).graph.vertexPayload? v =
        copy.graph.vertexPayload? v := by
  unfold copyEdgePayloads
  dsimp only
  refine List.foldlRecOn (motive := fun h => SameShape copy.graph h ∧
    ∀ v, h.vertexPayload? v = copy.graph.vertexPayload? v) g.edgeList _
    ⟨.refl valid, fun _ => rfl⟩ fun h so_far e _ => ?_
  obtain ⟨shape, payloads⟩ := so_far
  split
  next copied payload _ _ =>
    exact ⟨shape.trans (.modifyEdge shape.valid copied fun _ => payload), payloads⟩
  next => exact ⟨shape, payloads⟩

theorem vertices_copyPayloads (flags : CopyFlags) :
    (g.copyPayloads g.snapshot flags copy).vertices = copy.vertices := by
  unfold copyPayloads
  cases flags.vertexPayloads <;> cases flags.edgePayloads <;> rfl

theorem copyPayloads_spec (faithful : copy.Faithful) (flags : CopyFlags) :
    SameShape copy.graph (g.copyPayloads g.snapshot flags copy).graph ∧
      (flags.vertexPayloads = true → ∀ i,
        (g.copyPayloads g.snapshot flags copy).graph.vertexPayload? (copy.vertices.get i) =
          g.vertexPayload? (g.snapshot.label i)) := by
  unfold copyPayloads
  have with_edges : ∀ copy' : Copy N E g.snapshot.size, SameShape copy.graph copy'.graph →
      let result := if flags.edgePayloads then g.copyEdgePayloads g.snapshot copy' else copy'
      SameShape copy.graph result.graph ∧
        ∀ v, result.graph.vertexPayload? v = copy'.graph.vertexPayload? v := by
    intro copy' shape
    obtain ⟨shape', payloads⟩ := copyEdgePayloads_spec (g := g) shape.valid
    cases flags.edgePayloads with
    | true => exact ⟨shape.trans shape', payloads⟩
    | false => exact ⟨shape, fun _ => rfl⟩
  cases flags.vertexPayloads with
  | true =>
      obtain ⟨shape, done⟩ := copyVertexPayloads_spec faithful
      obtain ⟨shape', payloads⟩ := with_edges _ shape
      exact ⟨shape', fun _ i => (payloads _).trans (done i)⟩
  | false =>
      obtain ⟨shape, payloads⟩ := with_edges copy (.refl faithful.valid)
      exact ⟨shape, fun asked => by cases asked⟩

end CopyPayloads

/-! ## The closure -/

theorem reach?_snapshot_isSome_iff {g : Graph N E} (valid : g.Valid) :
    g.snapshot.digraph.reach?.isSome ↔ ∀ v, ¬ TransGen g.Joined v v :=
  Digraph.reach?_isSome_iff.trans valid.acyclic_snapshot

theorem transitiveClosure_eq [Inhabited N] [Inhabited E] (g : Graph N E) (flags : CopyFlags) :
    g.transitiveClosure flags =
      match g.snapshot.digraph.reach? with
      | some reach => .ok (g.copyPayloads g.snapshot flags
          ((skeleton g.direction g.snapshot.size).addEdges reach.pairs)).graph
      | none => .error (.notAcyclic .transitiveClosure) := by
  unfold transitiveClosure
  cases found : g.snapshot.digraph.reach? <;> simp [found, Operation.require]

theorem exists_reach_of_closure [Inhabited N] [Inhabited E] {g c : Graph N E} {flags : CopyFlags}
    (closed : g.transitiveClosure flags = .ok c) :
    ∃ reach, g.snapshot.digraph.reach? = some reach ∧
      c = (g.copyPayloads g.snapshot flags
        ((skeleton g.direction g.snapshot.size).addEdges reach.pairs)).graph := by
  rw [transitiveClosure_eq] at closed
  cases found : g.snapshot.digraph.reach? with
  | none => simp [found] at closed
  | some reach =>
      simp only [found, Except.ok.injEq] at closed
      exact ⟨reach, rfl, closed.symm⟩

/-- A graph has a closure exactly if it has no cycle. -/
theorem transitiveClosure_ok_iff [Inhabited N] [Inhabited E] {g : Graph N E} (valid : g.Valid)
    (flags : CopyFlags) :
    (∃ c, g.transitiveClosure flags = .ok c) ↔ ∀ v, ¬ TransGen g.Joined v v := by
  rw [← reach?_snapshot_isSome_iff valid, transitiveClosure_eq]
  cases g.snapshot.digraph.reach? <;> simp

theorem label_pair_inj {g : Graph N E} : Function.Injective
    fun (p : Fin g.snapshot.size × Fin g.snapshot.size) =>
      (g.snapshot.label p.1, g.snapshot.label p.2) := by
  intro p q same
  obtain ⟨source, target⟩ := Prod.mk.inj same
  exact Prod.ext (label_inj source) (label_inj target)

/-- There are handles for an edge between any two vertices that a chain joins. -/
def ClosureFits (g : Graph N E) : Prop :=
  ∀ pairs : List (Vertex × Vertex), pairs.Nodup → (∀ p ∈ pairs, TransGen g.Joined p.1 p.2) →
    pairs.length ≤ Handle.nullIndex

theorem Valid.closureFits {g : Graph N E} (valid : g.Valid)
    (few : g.vertexCount * g.vertexCount ≤ Handle.nullIndex) : g.ClosureFits := by
  intro pairs nodup joined
  have inside : pairs ⊆ g.vertexList ×ˢ g.vertexList := by
    rintro ⟨s, t⟩ listed
    obtain ⟨live, live'⟩ := valid.live_of_chain (joined _ listed)
    exact List.pair_mem_product.mpr ⟨Arena.mem_handles.mpr live, Arena.mem_handles.mpr live'⟩
  have shorter := nodup.length_le_of_subset inside
  have all : g.vertexList.length = g.vertexCount := valid.vertices.length_handles
  rw [List.length_product, all] at shorter
  exact Nat.le_trans shorter few

theorem Valid.exists_chains {g : Graph N E} (valid : g.Valid) :
    ∃ pairs : List (Vertex × Vertex), pairs.Nodup ∧
      ∀ p, p ∈ pairs ↔ TransGen g.Joined p.1 p.2 := by
  classical
  have nodup : g.vertexList.Nodup := g.vertices.handles_nodup
  refine ⟨(g.vertexList ×ˢ g.vertexList).filter fun p => TransGen g.Joined p.1 p.2,
    (nodup.product nodup).filter _, fun p => ?_⟩
  rw [List.mem_filter, decide_eq_true_iff, and_iff_right_iff_imp]
  intro chain
  obtain ⟨live, live'⟩ := valid.live_of_chain chain
  exact List.mem_product.mpr ⟨Arena.mem_handles.mpr live, Arena.mem_handles.mpr live'⟩

/-- The vertices that stand for two others are joined in the closure if there is a way from one of
those to the other. As long as there are handles for the edges, the converse holds as well. -/
theorem transitiveClosure_spec [Inhabited N] [Inhabited E] {g : Graph N E} (valid : g.Valid)
    {flags : CopyFlags} {c : Graph N E} (closed : g.transitiveClosure flags = .ok c) :
    ∃ place : Fin g.snapshot.size → Vertex,
      (∀ i j, place i = place j → i = j) ∧ c.Valid ∧ c.direction = g.direction ∧
      (∀ s t, c.Joined s t → ∃ i j, place i = s ∧ place j = t ∧
        TransGen g.Joined (g.snapshot.label i) (g.snapshot.label j)) ∧
      (c.edgeCount < Handle.nullIndex ∨ g.ClosureFits → ∀ i j,
        TransGen g.Joined (g.snapshot.label i) (g.snapshot.label j) →
          c.Joined (place i) (place j)) ∧
      (flags.vertexPayloads = true → ∀ i,
        c.vertexPayload? (place i) = g.vertexPayload? (g.snapshot.label i)) := by
  obtain ⟨reach, found, closed⟩ := exists_reach_of_closure closed
  have reaches : ∀ i j, (i, j) ∈ reach.pairs ↔
      TransGen g.Joined (g.snapshot.label i) (g.snapshot.label j) := fun i j => by
    rw [Reach.mem_pairs, Digraph.reach?_eq_some found, valid.transGen_snapshot]
  have room : g.snapshot.size ≤ Handle.nullIndex := by
    rw [size_snapshot valid]
    exact valid.vertexCount_le
  obtain ⟨faithful, direction, -, no_edges⟩ := skeleton_spec (N := N) (E := E) g.direction room
  generalize (skeleton g.direction g.snapshot.size : Copy N E g.snapshot.size) = blank at *
  have joins := faithful.joins reach.pairs
  obtain ⟨shape, payloads⟩ :=
    copyPayloads_spec (g := g) (faithful.addEdges reach.pairs) flags
  rw [← closed] at shape payloads
  have none_before := faithful.valid.not_joined no_edges
  refine ⟨blank.vertices.get, faithful.distinct, shape.valid, ?_, ?_, ?_, payloads⟩
  · exact shape.direction.trans (joins.direction.trans direction)
  · intro s t joined
    rcases joins.only s t ((shape.joined s t).mp joined) with before | listed
    · exact absurd before (none_before s t)
    · obtain ⟨⟨i, j⟩, reached, same⟩ := List.mem_map.mp listed
      obtain ⟨rfl, rfl⟩ := Prod.mk.inj same
      exact ⟨i, j, rfl, rfl, (reaches i j).mp reached⟩
  · intro room i j way
    rw [shape.edgeCount] at room
    refine (shape.joined _ _).mpr (joins.all (room.symm.imp_left fun fits => ?_) _ _ ?_)
    · have listed := fits (reach.pairs.map fun (i, j) => (g.snapshot.label i, g.snapshot.label j))
        (reach.nodup_pairs.map label_pair_inj) fun p member => by
          obtain ⟨⟨i, j⟩, reached, rfl⟩ := List.mem_map.mp member
          exact (reaches i j).mp reached
      rw [List.length_map] at listed
      rwa [no_edges, Nat.zero_add, Copy.placed, List.length_map]
    · exact faithful.mem_placed.mpr ((reaches i j).mpr way)

/-! ## The reduction -/

theorem endNumbers?_eq_some {g : Graph N E} {e : Edge} {i j : Fin g.snapshot.size} :
    g.endNumbers? g.snapshot e = some (i, j) ↔
      ∃ link, g.edges.get? e = some link ∧
        link.ends = (g.snapshot.label i, g.snapshot.label j) := by
  unfold endNumbers?
  cases g.edges.get? e with
  | none => simp
  | some link =>
      have source : g.snapshot.number? link.source = some i ↔ link.source = g.snapshot.label i :=
        number?_eq_some.trans eq_comm
      have target : g.snapshot.number? link.target = some j ↔ link.target = g.snapshot.label j :=
        number?_eq_some.trans eq_comm
      simp [Link.ends, Option.bind_eq_some_iff, source, target]

/-- The pairs of numbers that the edges kept by a reduction stand for. -/
def keptPairs (g : Graph N E) (reach : Reach g.snapshot.size) :
    List (Fin g.snapshot.size × Fin g.snapshot.size) :=
  (g.edgeList.filterMap (g.endNumbers? g.snapshot)).filter fun (u, w) =>
    !g.snapshot.digraph.implied reach u w

theorem transitiveReductionWithRemoved_eq [Inhabited N] [Inhabited E] (g : Graph N E)
    (flags : CopyFlags) :
    g.transitiveReductionWithRemoved flags =
      match g.snapshot.digraph.reach? with
      | some reach =>
          let reduction := g.copyPayloads g.snapshot flags
            ((skeleton g.direction g.snapshot.size).addEdges (g.keptPairs reach))
          .ok (reduction.graph, g.difference g.snapshot reduction)
      | none => .error (.notAcyclic .transitiveReduction) := by
  unfold transitiveReductionWithRemoved
  cases found : g.snapshot.digraph.reach? <;> simp [found, Operation.require, keptPairs]

theorem exists_reach_of_reduction [Inhabited N] [Inhabited E] {g : Graph N E} {flags : CopyFlags}
    {r : Graph N E} {removed : List Edge}
    (reduced : g.transitiveReductionWithRemoved flags = .ok (r, removed)) :
    ∃ reach reduction, g.snapshot.digraph.reach? = some reach ∧
      reduction = g.copyPayloads g.snapshot flags
        ((skeleton g.direction g.snapshot.size).addEdges (g.keptPairs reach)) ∧
      r = reduction.graph ∧ removed = g.difference g.snapshot reduction := by
  rw [transitiveReductionWithRemoved_eq] at reduced
  cases found : g.snapshot.digraph.reach? with
  | none => simp [found] at reduced
  | some reach =>
      simp only [found, Except.ok.injEq, Prod.mk.injEq] at reduced
      exact ⟨reach, _, rfl, rfl, reduced.1.symm, reduced.2.symm⟩

theorem exists_removed [Inhabited N] [Inhabited E] {g r : Graph N E} {flags : CopyFlags}
    (reduced : g.transitiveReduction flags = .ok r) :
    ∃ removed, g.transitiveReductionWithRemoved flags = .ok (r, removed) := by
  unfold transitiveReduction at reduced
  cases result : g.transitiveReductionWithRemoved flags with
  | error cause =>
      rw [result] at reduced
      cases reduced
  | ok both =>
      rw [result] at reduced
      cases reduced
      exact ⟨both.2, rfl⟩

/-- Edges are removed in storage order. -/
theorem sublist_removed [Inhabited N] [Inhabited E] {g : Graph N E} {flags : CopyFlags}
    {r : Graph N E} {removed : List Edge}
    (reduced : g.transitiveReductionWithRemoved flags = .ok (r, removed)) :
    removed.Sublist g.edgeList := by
  obtain ⟨reach, reduction, -, -, -, rfl⟩ := exists_reach_of_reduction reduced
  exact List.filter_sublist

/-- A graph has a reduction exactly if it has no cycle. -/
theorem transitiveReduction_ok_iff [Inhabited N] [Inhabited E] {g : Graph N E} (valid : g.Valid)
    (flags : CopyFlags) :
    (∃ r, g.transitiveReductionWithRemoved flags = .ok r) ↔ ∀ v, ¬ TransGen g.Joined v v := by
  rw [← reach?_snapshot_isSome_iff valid, transitiveReductionWithRemoved_eq]
  cases g.snapshot.digraph.reach? <;> simp

/-- A pair of vertices is bridged if there is a way from one to the other over a third. -/
def Bridged (g : Graph N E) (s t : Vertex) : Prop :=
  ∃ v, g.Joined s v ∧ v ≠ t ∧ TransGen g.Joined v t

theorem implied_snapshot {g : Graph N E} (valid : g.Valid) {reach : Reach g.snapshot.size}
    (found : g.snapshot.digraph.reach? = some reach) {i j : Fin g.snapshot.size} :
    g.snapshot.digraph.implied reach i j = true ↔
      g.Bridged (g.snapshot.label i) (g.snapshot.label j) := by
  rw [Digraph.implied_iff found]
  constructor
  · rintro ⟨k, edge, apart, way⟩
    exact ⟨g.snapshot.label k, valid.edge_snapshot.mp edge, fun same => apart (label_inj same),
      valid.transGen_snapshot.mp way⟩
  · rintro ⟨v, joined, apart, way⟩
    obtain ⟨k, rfl⟩ := exists_label (valid.live_of_joined joined).2
    exact ⟨k, valid.edge_snapshot.mpr joined, fun same => apart (congrArg _ same),
      valid.transGen_snapshot.mpr way⟩

/-- No more pairs are kept than there are edges, so there are handles for all of them. -/
theorem Valid.length_keptPairs_le {g : Graph N E} (valid : g.Valid)
    (reach : Reach g.snapshot.size) : (g.keptPairs reach).length ≤ Handle.nullIndex := by
  have kept : (g.keptPairs reach).length ≤ g.edgeList.length :=
    Nat.le_trans (List.length_filter_le _ _) (List.length_filterMap_le _ _)
  have all : g.edgeList.length = g.edgeCount := valid.edges.length_handles
  exact Nat.le_trans (all ▸ kept) valid.edgeCount_le

theorem mem_keptPairs {g : Graph N E} (valid : g.Valid) {reach : Reach g.snapshot.size}
    {i j : Fin g.snapshot.size} :
    (i, j) ∈ g.keptPairs reach ↔ g.Joined (g.snapshot.label i) (g.snapshot.label j) ∧
      g.snapshot.digraph.implied reach i j = false := by
  simp only [keptPairs, List.mem_filter, List.mem_filterMap, endNumbers?_eq_some,
    valid.joined_iff, Bool.not_eq_true']
  refine and_congr_left fun _ => exists_congr fun e => ?_
  constructor
  · exact fun both => both.2
  · rintro ⟨link, found, ends⟩
    exact ⟨Arena.mem_handles.mpr (containsEdge_iff.mpr ⟨link, found⟩), link, found, ends⟩

theorem joined_reduction [Inhabited N] [Inhabited E] {g : Graph N E} (valid : g.Valid)
    (reach : Reach g.snapshot.size) {flags : CopyFlags} {reduction : Copy N E g.snapshot.size}
    (built : reduction = g.copyPayloads g.snapshot flags
      ((skeleton g.direction g.snapshot.size).addEdges (g.keptPairs reach)))
    {i j : Fin g.snapshot.size} :
    reduction.graph.Joined (reduction.vertices.get i) (reduction.vertices.get j) ↔
      g.Joined (g.snapshot.label i) (g.snapshot.label j) ∧
        g.snapshot.digraph.implied reach i j = false := by
  have room : g.snapshot.size ≤ Handle.nullIndex := by
    rw [size_snapshot valid]
    exact valid.vertexCount_le
  obtain ⟨faithful, -, -, no_edges⟩ := skeleton_spec (N := N) (E := E) g.direction room
  generalize (skeleton g.direction g.snapshot.size : Copy N E g.snapshot.size) = blank at *
  have joins := faithful.joins (g.keptPairs reach)
  obtain ⟨shape, -⟩ := copyPayloads_spec (g := g) (faithful.addEdges (g.keptPairs reach)) flags
  have enough : blank.graph.edgeCount + (blank.placed (g.keptPairs reach)).length ≤
      Handle.nullIndex := by
    rw [Copy.placed, List.length_map, no_edges, Nat.zero_add]
    exact valid.length_keptPairs_le reach
  rw [built, vertices_copyPayloads, shape.joined, ← mem_keptPairs valid]
  constructor
  · intro joined
    rcases joins.only _ _ joined with before | listed
    · exact absurd before (faithful.valid.not_joined no_edges _ _)
    · exact faithful.mem_placed.mp listed
  · exact fun kept => joins.all (.inl enough) _ _ (faithful.mem_placed.mpr kept)

/-- An edge is missing from a copy if the vertices that stand for its ends are not joined. -/
theorem mem_difference {g : Graph N E} {copy : Copy N E g.snapshot.size} {e : Edge} {link : Link E}
    (found : g.edges.get? e = some link) {i j : Fin g.snapshot.size}
    (ends : link.ends = (g.snapshot.label i, g.snapshot.label j)) :
    e ∈ g.difference g.snapshot copy ↔
      ¬ copy.graph.Joined (copy.vertices.get i) (copy.vertices.get j) := by
  have numbers : g.endNumbers? g.snapshot e = some (i, j) :=
    endNumbers?_eq_some.mpr ⟨link, found, ends⟩
  have listed : e ∈ g.edgeList := Arena.mem_handles.mpr (containsEdge_iff.mpr ⟨link, found⟩)
  rw [difference, List.mem_filter, and_iff_right listed, isMissing, copiedEnds?, numbers]
  simp [Joined]

/-- An edge is removed exactly if its ends are bridged. -/
theorem mem_removed_iff [Inhabited N] [Inhabited E] {g : Graph N E} (valid : g.Valid)
    {flags : CopyFlags} {r : Graph N E} {removed : List Edge}
    (reduced : g.transitiveReductionWithRemoved flags = .ok (r, removed)) {e : Edge}
    {link : Link E} (found : g.edges.get? e = some link) :
    e ∈ removed ↔ g.Bridged link.source link.target := by
  obtain ⟨reach, reduction, reached, built, -, rfl⟩ := exists_reach_of_reduction reduced
  obtain ⟨source, target⟩ := valid.ends_live e link found
  obtain ⟨i, hi⟩ := exists_label source
  obtain ⟨j, hj⟩ := exists_label target
  have ends : link.ends = (g.snapshot.label i, g.snapshot.label j) := Prod.ext hi.symm hj.symm
  have joined : g.Joined (g.snapshot.label i) (g.snapshot.label j) :=
    valid.joined_iff.mpr ⟨e, link, found, ends⟩
  rw [mem_difference found ends, joined_reduction valid reach built, and_iff_right joined,
    Bool.not_eq_false, implied_snapshot valid reached, hi, hj]

/-- Dropping the removed edges leaves a pair joined unless it is bridged. -/
theorem joined_dropRemoved [Inhabited N] [Inhabited E] {g : Graph N E} (valid : g.Valid)
    {flags : CopyFlags} {r : Graph N E} {removed : List Edge}
    (reduced : g.transitiveReductionWithRemoved flags = .ok (r, removed)) {s t : Vertex} :
    Joined (removed.foldl dropEdge g) s t ↔ g.Joined s t ∧ ¬ g.Bridged s t := by
  rw [Joined, hasEdge, edge?_dropEdges valid, Joined, hasEdge]
  cases found : g.edge? s t with
  | none => simp
  | some e =>
      obtain ⟨payload, entry⟩ := (valid.edge?_eq_some s t e).mp found
      simp [Option.filter_some, mem_removed_iff valid reduced entry]

/-- What can be reached stays the same. -/
theorem transGen_dropRemoved [Inhabited N] [Inhabited E] {g : Graph N E} (valid : g.Valid)
    {flags : CopyFlags} {r : Graph N E} {removed : List Edge}
    (reduced : g.transitiveReductionWithRemoved flags = .ok (r, removed)) {s t : Vertex} :
    TransGen (Joined (removed.foldl dropEdge g)) s t ↔ TransGen g.Joined s t := by
  constructor
  · exact fun way => way.lift id fun _ _ joined => ((joined_dropRemoved valid reduced).mp joined).1
  · intro way
    obtain ⟨live, live'⟩ := valid.live_of_chain way
    obtain ⟨i, rfl⟩ := exists_label live
    obtain ⟨j, rfl⟩ := exists_label live'
    have acyclic := (transitiveReduction_ok_iff valid flags).mp ⟨_, reduced⟩
    obtain ⟨reach, reached⟩ := Option.isSome_iff_exists.mp
      ((reach?_snapshot_isSome_iff valid).mpr acyclic)
    have kept := (Digraph.transGen_kept reached).mpr (valid.transGen_snapshot.mpr way)
    refine kept.lift g.snapshot.label fun i j edge => ?_
    refine (joined_dropRemoved valid reduced).mpr ⟨valid.edge_snapshot.mp edge.1, ?_⟩
    rw [← implied_snapshot valid reached, Bool.not_eq_true]
    exact edge.2

end Provenance.Graph
