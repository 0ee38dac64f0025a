import Provenance.Proofs.ArenaMap
import Provenance.Proofs.Graph.Derived

/-! # Outlines

The outline of a graph is what is left without its payloads. Every operation acts on it alone, and
the outline of a copy is fixed by the pairs that were joined in it, up to the last edge handle.
-/

namespace Provenance

def Node.outline {N : Type} (node : Node N) : Node Unit := ⟨(), node.outbound, node.inbound⟩

def Link.outline {E : Type} (link : Link E) : Link Unit := ⟨link.source, link.target, ()⟩

namespace Graph

variable {N E : Type}

def outline (g : Graph N E) : Graph Unit Unit where
  direction := g.direction
  vertices := g.vertices.map Node.outline
  edges := g.edges.map Link.outline
  between := g.between

/-! ## Queries -/

theorem vertexList_outline (g : Graph N E) : g.outline.vertexList = g.vertexList :=
  Arena.handles_map

theorem edgePairs_outline (g : Graph N E) : g.outline.edgePairs = g.edgePairs := by
  rw [edgePairs, outline, Arena.entries_map, List.map_map]
  rfl

theorem containsVertex_outline (g : Graph N E) (v : Vertex) :
    g.outline.containsVertex v = g.containsVertex v := Arena.contains_map v

/-- Graphs with one outline and the same payloads are the same. -/
theorem eq_of_outline_eq {g g' : Graph N E} (same : g.outline = g'.outline)
    (vertices : ∀ v, g.vertexPayload? v = g'.vertexPayload? v)
    (edges : ∀ e, g.edgePayload? e = g'.edgePayload? e) : g = g' := by
  have same_vertices : g.vertices.map Node.outline = g'.vertices.map Node.outline :=
    congrArg Graph.vertices same
  have same_edges : g.edges.map Link.outline = g'.edges.map Link.outline :=
    congrArg Graph.edges same
  have nodes : ∀ v, g.vertices.get? v = g'.vertices.get? v := by
    intro v
    have payload := vertices v
    have rest := congrArg (Arena.get? · v) same_vertices
    simp only [Arena.get?_map, vertexPayload?] at rest payload
    rcases here : g.vertices.get? v with _ | ⟨_, _, _⟩ <;>
      rcases there : g'.vertices.get? v with _ | ⟨_, _, _⟩ <;>
      simp_all [Node.outline]
  have links : ∀ e, g.edges.get? e = g'.edges.get? e := by
    intro e
    have payload := edges e
    have rest := congrArg (Arena.get? · e) same_edges
    simp only [Arena.get?_map, edgePayload?] at rest payload
    rcases here : g.edges.get? e with _ | ⟨_, _, _⟩ <;>
      rcases there : g'.edges.get? e with _ | ⟨_, _, _⟩ <;>
      simp_all [Link.outline]
  have vertices_eq := Arena.eq_of_map_eq same_vertices nodes
  have edges_eq := Arena.eq_of_map_eq same_edges links
  have direction_eq : g.direction = g'.direction := by
    change g.outline.direction = g'.outline.direction
    rw [same]
  have between_eq : g.between = g'.between := by
    change g.outline.between = g'.outline.between
    rw [same]
  cases g
  cases g'
  simp_all

/-! ## Operations -/

theorem outline_modifyVertex (g : Graph N E) (v : Vertex) (f : N → N) :
    (g.modifyVertex v f).outline = g.outline := by
  have unseen : ∀ node : Node N, Node.outline { node with payload := f node.payload } =
      node.outline := fun _ => rfl
  have kept : (g.modifyVertex v f).vertices.map Node.outline = g.vertices.map Node.outline :=
    Arena.map_modify unseen v
  rw [outline, kept]
  rfl

theorem outline_modifyEdge (g : Graph N E) (e : Edge) (f : E → E) :
    (g.modifyEdge e f).outline = g.outline := by
  have unseen : ∀ link : Link E, Link.outline { link with payload := f link.payload } =
      link.outline := fun _ => rfl
  have kept : (g.modifyEdge e f).edges.map Link.outline = g.edges.map Link.outline :=
    Arena.map_modify unseen e
  rw [outline, kept]
  rfl

theorem addVertexWith_outline (g : Graph N E) (payload : N) :
    g.outline.addVertexWith () =
      ((g.addVertexWith payload).1, (g.addVertexWith payload).2.outline) := by
  have inserted := Arena.insert_map (a := g.vertices) (f := Node.outline) { payload }
  unfold addVertexWith
  rw [show g.outline.vertices.isFull = g.vertices.isFull from Arena.isFull_map]
  split
  · rfl
  · exact congrArg (fun p : Vertex × Arena .vertex (Node Unit) =>
      (p.1, { g.outline with vertices := p.2 })) inserted

theorem joinWith_outline (g : Graph N E) (s t : Vertex) (payload : E) :
    g.outline.joinWith s t () =
      ((g.joinWith s t payload).1, (g.joinWith s t payload).2.outline) := by
  have inserted := Arena.insert_map (a := g.edges) (f := Link.outline) ⟨s, t, payload⟩
  unfold joinWith
  rw [show g.outline.edges.isFull = g.edges.isFull from Arena.isFull_map]
  split
  · rfl
  · have out : ∀ e (node : Node N),
        Node.addOutbound e node.outline = (node.addOutbound e).outline := fun _ _ => rfl
    have into : ∀ e (node : Node N),
        Node.addInbound e node.outline = (node.addInbound e).outline := fun _ _ => rfl
    rw [show g.outline.edges.insert ⟨s, t, ()⟩ = _ from inserted]
    dsimp only [outline]
    rw [Arena.modify_map (out _), Arena.modify_map (into _)]

theorem addEdge_outline [Inhabited E] (g : Graph N E) (s t : Vertex) :
    (g.outline.addEdge s t).2 = (g.addEdge s t).2.outline := by
  unfold addEdge
  rw [containsVertex_outline, containsVertex_outline,
    show g.outline.edge? s t = g.edge? s t from rfl]
  split
  · split
    · rfl
    · exact congrArg Prod.snd (joinWith_outline g s t default)
  · rfl

/-! ## Edges in order -/

theorem vertexList_joinWith (g : Graph N E) (s t : Vertex) (payload : E) :
    (g.joinWith s t payload).2.vertexList = g.vertexList := by
  unfold joinWith vertexList
  split
  · rfl
  · rw [Arena.handles_modify, Arena.handles_modify]

/-- As long as no edge was removed, a new edge is stored last. -/
theorem edgePairs_joinWith {g : Graph N E} (room : g.edges.isFull = false)
    (no_free : g.edges.free = []) (s t : Vertex) (payload : E) :
    (g.joinWith s t payload).2.edgePairs = g.edgePairs ++ [(s, t)] ∧
      (g.joinWith s t payload).2.edges.free = [] := by
  have entries := Arena.entries_insert_of_no_free no_free ⟨s, t, payload⟩
  have inserted := Arena.insert_of_no_free no_free ⟨s, t, payload⟩
  simp only [joinWith, room, Bool.false_eq_true, if_false, edgePairs, entries, List.map_append]
  exact ⟨rfl, by rw [inserted]⟩

/-- Pairs joined anew are stored in their order, and those that find no handle left are ignored. -/
theorem edgePairs_addEdges [Inhabited E] {g : Graph N E} (valid : g.Valid)
    (no_free : g.edges.free = []) {pairs : List (Vertex × Vertex)} (nodup : pairs.Nodup)
    (live : ∀ s t, (s, t) ∈ pairs → g.containsVertex s = true ∧ g.containsVertex t = true)
    (apart : ∀ s t, (s, t) ∈ pairs → ¬ g.Joined s t) :
    let join := fun (g : Graph N E) (pair : Vertex × Vertex) => (g.addEdge pair.1 pair.2).2
    let taken := pairs.take (Handle.nullIndex - g.edgeCount)
    pairs.foldl join g = taken.foldl join g ∧
      (pairs.foldl join g).edgePairs = g.edgePairs ++ taken ∧
      (pairs.foldl join g).vertexList = g.vertexList := by
  intro join
  induction pairs generalizing g with
  | nil => simp
  | cons pair pairs ih =>
      obtain ⟨s, t⟩ := pair
      obtain ⟨new, nodup⟩ := List.nodup_cons.mp nodup
      obtain ⟨source, target⟩ := live s t List.mem_cons_self
      have none_yet : g.edge? s t = none :=
        Option.not_isSome_iff_eq_none.mp (apart s t List.mem_cons_self)
      have step : join g (s, t) = (g.joinWith s t default).2 :=
        congrArg Prod.snd (addEdge_of_apart source target none_yet)
      have joins := joins_joinWith valid source target none_yet default
      cases room : g.edges.isFull with
      | true =>
          have full : g.edgeCount = Handle.nullIndex := valid.edges.isFull_iff.mp room
          have same : join g (s, t) = g := step.trans (by rw [joinWith_of_full room])
          have rest := ih valid no_free nodup
            (fun s t listed => live s t (List.mem_cons_of_mem _ listed))
            fun s t listed => apart s t (List.mem_cons_of_mem _ listed)
          simpa only [full, Nat.sub_self, List.take_zero, List.foldl_cons, same] using rest
      | false =>
          have below : g.edgeCount < Handle.nullIndex := by
            have bounded := valid.edgeCount_le
            have not_full : g.edgeCount ≠ Handle.nullIndex := fun full => by
              rw [valid.edges.isFull_iff.mpr full] at room
              cases room
            omega
          obtain ⟨pairs_eq, free_eq⟩ := edgePairs_joinWith room no_free s t default
          have count := edgeCount_joinWith room s t (default : E)
          have left : Handle.nullIndex - g.edgeCount =
              Handle.nullIndex - (g.joinWith s t default).2.edgeCount + 1 := by omega
          obtain ⟨folded, listed_eq, vertices_eq⟩ := ih joins.valid free_eq nodup
            (fun v w listed => by
              rw [joins.containsVertex, joins.containsVertex]
              exact live v w (List.mem_cons_of_mem _ listed))
            fun v w listed joined => by
              rcases joins.only v w joined with before | now
              · exact apart v w (List.mem_cons_of_mem _ listed) before
              · exact new (List.mem_singleton.mp now ▸ listed)
          rw [left]
          simp only [List.take_succ_cons, List.foldl_cons, step]
          refine ⟨folded, ?_, ?_⟩
          · rw [listed_eq, pairs_eq, List.append_assoc]
            rfl
          · rw [vertices_eq, vertexList_joinWith]

/-! ## Copies -/

variable {n : Nat}

theorem skeleton_outline [Inhabited N] (direction : Direction) (n : Nat) :
    (skeleton direction n : Copy Unit Unit n) =
      ⟨(skeleton direction n : Copy N E n).graph.outline,
        (skeleton direction n : Copy N E n).vertices⟩ := by
  induction n with
  | zero => simp [skeleton, outline, empty, Arena.map_empty]
  | succ n ih =>
      have added := addVertexWith_outline (skeleton direction n : Copy N E n).graph default
      rw [skeleton, ih]
      unfold addVertex
      rw [show (default : Unit) = () from rfl, added]
      rfl

theorem addEdges_outline [Inhabited E] (copy : Copy N E n) (pairs : List (Fin n × Fin n)) :
    (Copy.addEdges ⟨copy.graph.outline, copy.vertices⟩ pairs).graph =
      (copy.addEdges pairs).graph.outline := by
  have each : ∀ g : Graph N E,
      pairs.foldl (fun h p => (h.addEdge (copy.vertices.get p.1) (copy.vertices.get p.2)).2)
        g.outline =
      (pairs.foldl (fun h p => (h.addEdge (copy.vertices.get p.1) (copy.vertices.get p.2)).2)
        g).outline := by
    induction pairs with
    | nil => exact fun _ => rfl
    | cons pair pairs ih =>
        intro g
        rw [List.foldl_cons, List.foldl_cons, addEdge_outline, ih]
  exact each copy.graph

theorem outline_copyPayloads (g : Graph N E) (t : Snapshot) (flags : CopyFlags)
    (copy : Copy N E t.size) : (g.copyPayloads t flags copy).graph.outline = copy.graph.outline := by
  have vertices : ∀ copy : Copy N E t.size,
      (g.copyVertexPayloads t copy).graph.outline = copy.graph.outline := by
    intro copy
    refine List.foldlRecOn (motive := (Graph.outline · = copy.graph.outline)) _ _ rfl ?_
    intro h so_far i _
    split
    · exact (outline_modifyVertex _ _ _).trans so_far
    · exact so_far
  have edges : ∀ copy : Copy N E t.size,
      (g.copyEdgePayloads t copy).graph.outline = copy.graph.outline := by
    intro copy
    refine List.foldlRecOn (motive := (Graph.outline · = copy.graph.outline)) _ _ rfl ?_
    intro h so_far e _
    split
    · exact (outline_modifyEdge _ _ _).trans so_far
    · exact so_far
  unfold copyPayloads
  cases flags.vertexPayloads <;> cases flags.edgePayloads
  · rfl
  · exact edges copy
  · exact vertices copy
  · exact (edges _).trans (vertices copy)

/-! ## Plans -/

/-- The vertex in a slot that was never freed. -/
def spot (i : Nat) : Vertex := ⟨i, 0⟩

theorem spot_inj {i j : Fin n} (same : spot i = spot j) : i = j :=
  Fin.ext (congrArg Handle.index same)

/-- The pairs of slots that stand for pairs of numbers. -/
def spots (pairs : List (Fin n × Fin n)) : List (Vertex × Vertex) :=
  pairs.map fun (u, w) => (spot u, spot w)

theorem mem_spots {pairs : List (Fin n × Fin n)} {s t : Vertex} :
    (s, t) ∈ spots pairs ↔ ∃ i j, (i, j) ∈ pairs ∧ spot i = s ∧ spot j = t := by
  simp [spots]

theorem spots_inj {pairs pairs' : List (Fin n × Fin n)} (same : spots pairs = spots pairs') :
    pairs = pairs' := by
  refine List.map_injective_iff.mpr ?_ same
  intro ⟨u, w⟩ ⟨u', w'⟩ eq
  obtain ⟨source, target⟩ := Prod.mk.inj eq
  rw [spot_inj source, spot_inj target]

theorem nodup_spots {pairs : List (Fin n × Fin n)} (nodup : pairs.Nodup) :
    (spots pairs).Nodup := by
  refine nodup.map ?_
  intro ⟨u, w⟩ ⟨u', w'⟩ eq
  obtain ⟨source, target⟩ := Prod.mk.inj eq
  rw [spot_inj source, spot_inj target]

/-- A copy fills the first slots in their order. -/
theorem skeleton_layout [Inhabited N] (direction : Direction) (room : n ≤ Handle.nullIndex) :
    let copy := (skeleton direction n : Copy N E n)
    copy.graph.vertexList = (List.range n).map spot ∧ (∀ i, copy.vertices.get i = spot i) ∧
      copy.graph.edges = ∅ ∧ copy.graph.vertices.free = [] ∧
      copy.graph.vertices.slots.size = n := by
  induction n with
  | zero => exact ⟨rfl, fun i => i.elim0, rfl, rfl, rfl⟩
  | succ n ih =>
      obtain ⟨vertexList, get, edges, no_free, size⟩ := ih (Nat.le_of_succ_le room)
      have not_full : (skeleton direction n : Copy N E n).graph.vertices.isFull = false := by
        rw [Arena.isFull, no_free, size]
        simpa using Nat.lt_of_succ_le room
      have inserted := Arena.insert_of_no_free no_free ({ payload := default } : Node N)
      have entries := Arena.entries_insert_of_no_free no_free ({ payload := default } : Node N)
      have added : (skeleton direction n : Copy N E n).graph.addVertex =
          (spot n, { (skeleton direction n : Copy N E n).graph with
            vertices := ((skeleton direction n : Copy N E n).graph.vertices.insert
              { payload := default }).2 }) := by
        rw [addVertex, addVertexWith, not_full, inserted, size]
        rfl
      dsimp only
      rw [skeleton]
      dsimp only
      rw [added]
      refine ⟨?_, fun i => ?_, edges, ?_, ?_⟩
      · have before : (skeleton direction n : Copy N E n).graph.vertices.entries.map Prod.fst =
            (List.range n).map spot := vertexList
        rw [Graph.vertexList, Arena.handles, entries, List.map_append, before, size,
          List.range_succ, List.map_append]
        rfl
      · rw [get_push]
        split
        next old => exact get ⟨i, old⟩
        next new => rw [show i.val = n by omega]
      · rw [inserted]
      · simp [inserted, size]

/-- The outline of a copy. -/
def plan (direction : Direction) (n : Nat) (pairs : List (Fin n × Fin n)) : Graph Unit Unit :=
  ((skeleton direction n).addEdges pairs).graph

theorem plan_spec (direction : Direction) (room : n ≤ Handle.nullIndex)
    {pairs : List (Fin n × Fin n)} (nodup : pairs.Nodup) :
    plan direction n pairs = plan direction n (pairs.take Handle.nullIndex) ∧
      (plan direction n pairs).edgePairs = (spots pairs).take Handle.nullIndex ∧
      (plan direction n pairs).vertexList = (List.range n).map spot := by
  obtain ⟨faithful, -, -, no_edges⟩ := skeleton_spec (N := Unit) (E := Unit) direction room
  obtain ⟨vertexList, get, edges, -⟩ := skeleton_layout (N := Unit) (E := Unit) direction room
  have none_before : (skeleton direction n : Copy Unit Unit n).graph.edgePairs = [] := by
    rw [edgePairs, edges]
    rfl
  have drawn : ∀ pairs, plan direction n pairs =
      (spots pairs).foldl (fun g pair => (g.addEdge pair.1 pair.2).2)
        (skeleton direction n : Copy Unit Unit n).graph := by
    intro pairs
    rw [plan, Copy.addEdges, spots, List.foldl_map]
    simp only [get]
  obtain ⟨folded, listed, vertices⟩ := edgePairs_addEdges faithful.valid (by rw [edges]; rfl)
    (nodup_spots nodup)
    (fun s t listed => by
      obtain ⟨i, j, -, rfl, rfl⟩ := mem_spots.mp listed
      rw [← get, ← get]
      exact ⟨faithful.live i, faithful.live j⟩)
    fun s t _ => faithful.valid.not_joined no_edges s t
  rw [no_edges, Nat.sub_zero] at folded listed
  rw [none_before, List.nil_append] at listed
  refine ⟨?_, ?_, ?_⟩
  · rw [drawn, drawn, folded, spots, spots, List.map_take]
  · rw [drawn, listed]
  · rw [drawn, vertices, vertexList]

/-- A plan is fixed by its pairs. -/
theorem plan_eq_of_edgePairs (direction : Direction) {n' : Nat} (same : n = n')
    (room : n ≤ Handle.nullIndex) {pairs : List (Fin n × Fin n)} {pairs' : List (Fin n' × Fin n')}
    (nodup : pairs.Nodup) (nodup' : pairs'.Nodup)
    (edges : (plan direction n pairs).edgePairs = (plan direction n' pairs').edgePairs) :
    plan direction n pairs = plan direction n' pairs' := by
  subst same
  obtain ⟨cut, listed, -⟩ := plan_spec direction room nodup
  obtain ⟨cut', listed', -⟩ := plan_spec direction room nodup'
  rw [listed, listed', spots, spots, ← List.map_take, ← List.map_take] at edges
  rw [cut, cut', spots_inj edges]

end Graph

end Provenance
