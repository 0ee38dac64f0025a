import Provenance.Proofs.Graph.Ledger

/-! # Graphs as ledgers

A valid graph tracks a ledger: the two have the same vertices, payloads and edges, and the lists at
a vertex follow the order of the ledger. Every change keeps the two together.
-/

namespace Provenance.Graph

variable {N E : Type}

structure Tracks (g : Graph N E) (l : Ledger N E) : Prop where
  valid : g.Valid
  direction : g.direction = l.direction
  vertices : ∀ v, l.vertices[v]? = g.vertexPayload? v
  edges : ∀ e link, (e, link) ∈ l.edges ↔ g.edges.get? e = some link
  nodup : (l.edges.map Prod.fst).Nodup
  outgoing : ∀ v, (l.outgoing v).map Prod.fst = g.outbound v
  incoming : ∀ v, (l.incoming v).map Prod.fst = g.inbound v

namespace Tracks

variable {g : Graph N E} {l : Ledger N E}

theorem empty (direction : Direction) :
    Tracks (empty direction : Graph N E) (Ledger.empty direction) where
  valid := valid_empty direction
  direction := rfl
  vertices v := by simp [Ledger.empty, vertexPayload?, Graph.empty]
  edges e link := by simp [Ledger.empty, Graph.empty]
  nodup := List.nodup_nil
  outgoing v := rfl
  incoming v := rfl

/-! ## Shared views -/

theorem mem_vertices (h : Tracks g l) {v : Vertex} :
    v ∈ l.vertices ↔ g.containsVertex v = true := by
  rw [Std.ExtTreeMap.mem_iff_isSome_getElem?, h.vertices, vertexPayload?, Option.isSome_map]
  rfl

theorem contains (h : Tracks g l) (v : Vertex) : l.vertices.contains v = g.containsVertex v := by
  rw [Std.ExtTreeMap.contains_eq_isSome_getElem?, h.vertices, vertexPayload?, Option.isSome_map]
  rfl

theorem link? (h : Tracks g l) (e : Edge) : l.link? e = g.edges.get? e := by
  refine Option.ext fun link => ?_
  rw [Ledger.link?_eq_some h.nodup, h.edges]

theorem ends_nodup (h : Tracks g l) : (l.edges.map (·.2.ends)).Nodup := by
  refine List.pairwise_map.mpr ((List.pairwise_map.mp h.nodup).imp_of_mem ?_)
  rintro ⟨e, link⟩ ⟨e', link'⟩ listed listed' apart same
  exact apart (h.valid.eq_of_ends_eq ((h.edges e link).mp listed) ((h.edges e' link').mp listed')
    same)

theorem ledger_valid (h : Tracks g l) : l.Valid where
  handles_nodup := h.nodup
  ends_nodup := h.ends_nodup
  ends_live := by
    rintro ⟨e, link⟩ listed
    obtain ⟨source, target⟩ := h.valid.ends_live e link ((h.edges e link).mp listed)
    exact ⟨h.mem_vertices.mpr source, h.mem_vertices.mpr target⟩

theorem between? (h : Tracks g l) (s t : Vertex) : l.between? s t = g.edge? s t := by
  refine Option.ext fun e => ?_
  rw [Ledger.between?_eq_some h.ends_nodup, h.valid.edge?_eq_some]
  simp only [h.edges]

/-! ## Storage order -/

/-- The vertices of the ledger, by handle, are those of the slots in their order. -/
theorem toList (h : Tracks g l) :
    l.vertices.toList = g.vertices.entries.map fun (v, node) => (v, node.payload) := by
  have by_index : (g.vertices.entries.map fun (v, node) => (v, node.payload)).Pairwise
      fun p q => compare p.1 q.1 = .lt := by
    refine List.pairwise_map.mpr (g.vertices.entries_sorted.imp fun {p q} lt => ?_)
    exact Handle.compare_of_index_lt lt
  refine List.Perm.eq_of_pairwise (fun p q _ _ lt gt => ?_) l.vertices.ordered_keys_toList by_index
    ((List.perm_ext_iff_of_nodup ?_ ?_).mpr ?_)
  · exact absurd (Std.OrientedCmp.gt_of_lt lt) (by simp [gt])
  · exact l.vertices.distinct_keys_toList.imp fun apart same => apart (by simp [same])
  · exact by_index.imp fun lt same => by simp [same] at lt
  · rintro ⟨v, payload⟩
    rw [Std.ExtTreeMap.mem_toList_iff_getElem?_eq_some, h.vertices, vertexPayload?,
      Option.map_eq_some_iff]
    simp [Arena.mem_entries]

theorem keys (h : Tracks g l) : l.vertices.keys = g.vertexList := by
  rw [← Std.ExtTreeMap.map_fst_toList_eq_keys, h.toList, List.map_map]
  rfl

theorem size (h : Tracks g l) : l.vertices.size = g.vertexCount := by
  rw [← Std.ExtTreeMap.length_keys, h.keys]
  exact h.valid.vertices.length_handles

theorem perm (h : Tracks g l) : List.Perm l.edges g.edges.entries := by
  have nodup : g.edges.entries.Nodup :=
    g.edges.entries_sorted.imp fun lt same => by simp [same] at lt
  refine (List.perm_ext_iff_of_nodup (List.Nodup.of_map _ h.nodup) nodup).mpr ?_
  rintro ⟨e, link⟩
  rw [h.edges, Arena.mem_entries]

theorem stored (h : Tracks g l) : l.stored = g.edges.entries := by
  have sorted : l.stored.Pairwise fun p q => p.1.index ≤ q.1.index := by
    refine (List.pairwise_mergeSort (fun p q r => ?_) (fun p q => ?_) l.edges).imp
      of_decide_eq_true
    · simpa using Nat.le_trans
    · simpa using Nat.le_total p.1.index q.1.index
  refine List.Perm.eq_of_pairwise ?_ sorted (g.edges.entries_sorted.imp Nat.le_of_lt)
    ((List.mergeSort_perm _ _).trans h.perm)
  rintro ⟨e, link⟩ ⟨e', link'⟩ listed listed' le ge
  have found := (h.edges e link).mp ((List.mergeSort_perm _ _).mem_iff.mp listed)
  have found' := Arena.mem_entries.mp listed'
  obtain rfl := Arena.eq_of_index_eq found found' (Nat.le_antisymm le ge)
  rw [found, Option.some.injEq] at found'
  rw [found']

theorem length (h : Tracks g l) : l.edges.length = g.edgeCount := by
  rw [h.perm.length_eq, ← List.length_map (f := Prod.fst)]
  exact h.valid.edges.length_handles

theorem null_dead (h : Tracks g l) : Handle.null ∉ l.vertices ∧ l.link? .null = none := by
  rw [h.mem_vertices, h.link?]
  refine ⟨?_, h.valid.edges.get?_null⟩
  exact Bool.eq_false_iff.mp h.valid.null_dead

/-! ## Changes of vertices -/

theorem addVertexWith (h : Tracks g l) (payload : N) :
    ∃ v', v' ∉ l.vertices ∧ (l.addVertex v' payload).1 = (g.addVertexWith payload).1 ∧
      Tracks (g.addVertexWith payload).2 (l.addVertex v' payload).2 := by
  have full_iff : g.vertices.isFull = true ↔ l.vertices.size = Handle.nullIndex := by
    rw [h.valid.vertices.isFull_iff, h.size]
    rfl
  cases room : g.vertices.isFull with
  | true =>
      refine ⟨.null, h.null_dead.1, ?_⟩
      simp only [Ledger.addVertex, full_iff.mp room, if_true, addVertexWith_of_full room, true_and]
      exact h
  | false =>
      have not_full : ¬ l.vertices.size = Handle.nullIndex := fun all => by
        simp [full_iff.mpr all] at room
      have fresh := addVertexWith_fresh h.valid room payload
      refine ⟨(g.addVertexWith payload).1, ?_, ?_⟩
      · rw [h.mem_vertices, Bool.not_eq_true]
        exact Arena.contains_eq_false.mpr fresh
      · simp only [Ledger.addVertex, not_full, if_false, true_and]
        exact {
          valid := valid_addVertexWith h.valid payload
          direction := by simpa [Graph.addVertexWith, room] using h.direction
          vertices v := by
            simp only [Std.ExtTreeMap.getElem?_insert, h.vertices, vertexPayload?,
              get?_addVertexWith h.valid room, Std.compare_eq_iff_eq, eq_comm (b := v)]
            split <;> rfl
          edges e link := by
            rw [edges_addVertexWith]
            exact h.edges e link
          nodup := h.nodup
          outgoing v := (h.outgoing v).trans (outbound_addVertexWith h.valid payload v).symm
          incoming v := (h.incoming v).trans (inbound_addVertexWith h.valid payload v).symm }

theorem modifyVertex (h : Tracks g l) (v : Vertex) (f : N → N) :
    (l.modifyVertex v f).1 = g.containsVertex v ∧
      Tracks (g.modifyVertex v f) (l.modifyVertex v f).2 := by
  refine ⟨h.contains v, ?_⟩
  exact {
    valid := valid_modifyVertex h.valid v f
    direction := h.direction
    vertices w := by
      simp only [vertexPayload?_modifyVertex, Ledger.modifyVertex, Std.ExtTreeMap.getElem?_modify,
        h.vertices, Std.compare_eq_iff_eq, eq_comm (b := w)]
    edges := h.edges
    nodup := h.nodup
    outgoing w := (h.outgoing w).trans (outbound_modifyVertex g v f w).symm
    incoming w := (h.incoming w).trans (inbound_modifyVertex g v f w).symm }

theorem removeVertex (h : Tracks g l) (v : Vertex) :
    (l.removeVertex v).1 = (g.removeVertex v).1 ∧
      Tracks (g.removeVertex v).2 (l.removeVertex v).2 := by
  refine ⟨(h.contains v).trans (removeVertex_fst g v).symm, ?_⟩
  exact {
    valid := valid_removeVertex h.valid v
    direction := (direction_removeVertex g v).trans h.direction
    vertices w := by
      simp only [vertexPayload?_removeVertex h.valid, Ledger.removeVertex,
        Std.ExtTreeMap.getElem?_erase, h.vertices, Std.compare_eq_iff_eq, eq_comm (b := w)]
    edges e link := by
      rw [get?_edges_removeVertex h.valid, Ledger.removeVertex, List.mem_filter, h.edges,
        Option.filter_eq_some_iff]
      simp
    nodup := h.nodup.sublist (List.filter_sublist.map _)
    outgoing w := by
      rw [outbound_removeVertex h.valid, ← h.outgoing, List.filter_map]
      simp only [Ledger.outgoing, Ledger.removeVertex, List.filter_filter]
      split
      next same =>
        subst same
        simpa using fun e link _ starts elsewhere => absurd starts elsewhere
      next other =>
        refine congrArg _ (List.filter_congr fun entry listed => ?_)
        have found := (h.edges entry.1 entry.2).mp listed
        by_cases starts : entry.2.source = w <;>
          simp [starts, other, target?, found, bne, beq_eq_decide]
    incoming w := by
      rw [inbound_removeVertex h.valid, ← h.incoming, List.filter_map]
      simp only [Ledger.incoming, Ledger.removeVertex, List.filter_filter]
      split
      next same =>
        subst same
        simpa using fun e link _ ends _ => ends
      next other =>
        refine congrArg _ (List.filter_congr fun entry listed => ?_)
        have found := (h.edges entry.1 entry.2).mp listed
        by_cases ends : entry.2.target = w <;>
          simp [ends, other, source?, found, bne, beq_eq_decide] }

theorem removeVertices (h : Tracks g l) (vs : List Vertex) :
    Tracks (g.removeVertices vs) (vs.foldl (fun l v => (l.removeVertex v).2) l) := by
  induction vs generalizing g l with
  | nil => exact h
  | cons v vs ih => exact ih (h.removeVertex v).2

/-! ## Changes of edges -/

theorem modifyEdge (h : Tracks g l) (e : Edge) (f : E → E) :
    (l.modifyEdge e f).1 = g.containsEdge e ∧
      Tracks (g.modifyEdge e f) (l.modifyEdge e f).2 := by
  refine ⟨by rw [Ledger.modifyEdge, h.link?]; rfl, ?_⟩
  exact {
    valid := valid_modifyEdge h.valid e f
    direction := h.direction
    vertices := h.vertices
    edges e' link := by
      rw [get?_modifyEdge]
      simp only [Ledger.modifyEdge, List.mem_map, Prod.exists, Prod.mk.injEq, h.edges]
      by_cases same : e' = e
      · subst same
        simp
      · simp [same]
    nodup := by simpa [Ledger.modifyEdge, Function.comp_def] using h.nodup
    outgoing v := by
      rw [show (g.modifyEdge e f).outbound v = g.outbound v from rfl, ← h.outgoing]
      simp only [Ledger.outgoing, Ledger.modifyEdge, List.filter_map, List.map_map]
      refine congrArg₂ _ rfl (List.filter_congr fun entry _ => ?_)
      by_cases same : entry.1 = e <;> simp [same]
    incoming v := by
      rw [show (g.modifyEdge e f).inbound v = g.inbound v from rfl, ← h.incoming]
      simp only [Ledger.incoming, Ledger.modifyEdge, List.filter_map, List.map_map]
      refine congrArg₂ _ rfl (List.filter_congr fun entry _ => ?_)
      by_cases same : entry.1 = e <;> simp [same] }

theorem removeEdge (h : Tracks g l) (e : Edge) :
    (l.removeEdge e).1 = g.containsEdge e ∧ Tracks (g.dropEdge e) (l.removeEdge e).2 := by
  refine ⟨by rw [Ledger.removeEdge, h.link?]; rfl, ?_⟩
  exact {
    valid := valid_dropEdge h.valid e
    direction := (direction_dropEdges g [e]).trans h.direction
    vertices v := (h.vertices v).trans (vertexPayload?_dropEdge h.valid e v).symm
    edges e' link := by
      rw [get?_edges_dropEdge, Ledger.removeEdge, List.mem_filter, h.edges]
      by_cases same : e' = e <;> simp [same]
    nodup := h.nodup.sublist (List.filter_sublist.map _)
    outgoing v := by
      rw [outbound_dropEdge h.valid, ← h.outgoing, List.filter_map]
      simp only [Ledger.outgoing, Ledger.removeEdge, List.filter_filter]
      refine congrArg _ (List.filter_congr fun entry _ => ?_)
      by_cases same : entry.1 = e <;> simp [same]
    incoming v := by
      rw [inbound_dropEdge h.valid, ← h.incoming, List.filter_map]
      simp only [Ledger.incoming, Ledger.removeEdge, List.filter_filter]
      refine congrArg _ (List.filter_congr fun entry _ => ?_)
      by_cases same : entry.1 = e <;> simp [same] }

/-- Two live vertices without an edge are joined by one at the end of the ledger. -/
theorem joinWith (h : Tracks g l) {s t : Vertex} (source : g.containsVertex s = true)
    (target : g.containsVertex t = true) (apart : g.edge? s t = none) (payload : E)
    (change : E → E) :
    ∃ e', l.link? e' = none ∧
      (l.addEdge e' s t payload change).1 = (g.joinWith s t payload).1 ∧
      Tracks (g.joinWith s t payload).2 (l.addEdge e' s t payload change).2 := by
  have full_iff : g.edges.isFull = true ↔ l.edges.length = Handle.nullIndex := by
    rw [h.valid.edges.isFull_iff, h.length]
    rfl
  have live : l.vertices.contains s ∧ l.vertices.contains t := by
    simp [h.contains, source, target]
  have unjoined : l.between? s t = none := (h.between? s t).trans apart
  cases room : g.edges.isFull with
  | true =>
      refine ⟨.null, h.null_dead.2, ?_⟩
      simp only [Ledger.addEdge, live, and_self, if_true, unjoined, full_iff.mp room,
        joinWith_of_full room, true_and]
      exact h
  | false =>
      have not_full : ¬ l.edges.length = Handle.nullIndex := fun all => by
        simp [full_iff.mpr all] at room
      have fresh := joinWith_fresh h.valid room s t payload
      refine ⟨(g.joinWith s t payload).1, (h.link? _).trans fresh, ?_⟩
      simp only [Ledger.addEdge, live, and_self, if_true, unjoined, not_full, if_false, true_and]
      exact {
        valid := valid_joinWith h.valid source target apart payload
        direction := by simpa [Graph.joinWith, room] using h.direction
        vertices v := (h.vertices v).trans (vertexPayload?_joinWith g s t payload v).symm
        edges e link := by
          rw [get?_edges_joinWith h.valid room, List.mem_append, h.edges]
          by_cases same : e = (g.joinWith s t payload).1
          · simp [same, fresh, eq_comm]
          · simp [same]
        nodup := by
          rw [List.map_append, List.nodup_append]
          refine ⟨h.nodup, by simp, fun e listed e' last same => ?_⟩
          obtain rfl : e' = (g.joinWith s t payload).1 := by simpa using last
          obtain ⟨⟨_, link⟩, entry, rfl⟩ := List.mem_map.mp listed
          have found := (h.edges _ link).mp entry
          have absent := (congrArg g.edges.get? same).trans fresh
          exact Option.some_ne_none link (found.symm.trans absent)
        outgoing v := by
          rw [outbound_joinWith room source, ← h.outgoing]
          by_cases same : s = v <;> simp [Ledger.outgoing, same, eq_comm (a := v)]
        incoming v := by
          rw [inbound_joinWith room s target, ← h.incoming]
          by_cases same : t = v <;> simp [Ledger.incoming, same, eq_comm (a := v)] }

/-! ## Steps and runs -/

/-- An edge that is there is found, whatever handle a new one would get. -/
theorem ledger_addEdge_of_joined (h : Tracks g l) {s t : Vertex} {e : Edge}
    (found : g.edge? s t = some e) (e' : Edge) (payload : E) (change : E → E) :
    l.addEdge e' s t payload change = (e, (l.modifyEdge e change).2) := by
  obtain ⟨source, target, -⟩ := h.valid.live_of_edge? found
  simp [Ledger.addEdge, h.contains, source, target, h.between?, found]

theorem ledger_addEdge_of_dead (h : Tracks g l) {s t : Vertex}
    (dead : (g.containsVertex s && g.containsVertex t) = false) (e' : Edge) (payload : E)
    (change : E → E) : l.addEdge e' s t payload change = (.null, l) := by
  have refused : ¬ (l.vertices.contains s ∧ l.vertices.contains t) := by
    simpa [h.contains] using dead
  simp only [Ledger.addEdge, refused, if_false]

theorem addEdgeWith (h : Tracks g l) (s t : Vertex) (payload : E) :
    ∃ e', l.link? e' = none ∧
      (l.addEdge e' s t payload fun _ => payload).1 = (g.addEdgeWith s t payload).1 ∧
      Tracks (g.addEdgeWith s t payload).2 (l.addEdge e' s t payload fun _ => payload).2 := by
  cases live : g.containsVertex s && g.containsVertex t with
  | false =>
      refine ⟨.null, h.null_dead.2, ?_⟩
      rw [h.ledger_addEdge_of_dead live, addEdgeWith_of_dead live]
      exact ⟨rfl, h⟩
  | true =>
      obtain ⟨source, target⟩ := Bool.and_eq_true_iff.mp live
      cases found : g.edge? s t with
      | some e =>
          refine ⟨.null, h.null_dead.2, ?_⟩
          rw [h.ledger_addEdge_of_joined found, addEdgeWith_of_joined h.valid found]
          exact ⟨rfl, (h.modifyEdge e fun _ => payload).2⟩
      | none =>
          rw [addEdgeWith_of_apart source target found]
          exact h.joinWith source target found payload _

theorem addEdge [Inhabited E] (h : Tracks g l) (s t : Vertex) :
    ∃ e', l.link? e' = none ∧ (l.addEdge e' s t default id).1 = (g.addEdge s t).1 ∧
      Tracks (g.addEdge s t).2 (l.addEdge e' s t default id).2 := by
  cases live : g.containsVertex s && g.containsVertex t with
  | false =>
      refine ⟨.null, h.null_dead.2, ?_⟩
      rw [h.ledger_addEdge_of_dead live, addEdge_of_dead live]
      exact ⟨rfl, h⟩
  | true =>
      obtain ⟨source, target⟩ := Bool.and_eq_true_iff.mp live
      cases found : g.edge? s t with
      | some e =>
          refine ⟨.null, h.null_dead.2, ?_⟩
          rw [h.ledger_addEdge_of_joined found, addEdge_of_joined h.valid found,
            Ledger.modifyEdge_id]
          exact ⟨rfl, h⟩
      | none =>
          rw [addEdge_of_apart source target found]
          exact h.joinWith source target found default id

/-- A step of the graph is a step of the ledger with the same answer. -/
theorem step [Inhabited N] [Inhabited E] (h : Tracks g l) (m : Mutation N E) :
    ∃ l', l.Step m (m.apply g).1 l' ∧ Tracks (m.apply g).2 l' := by
  have known : ∀ {reply : Reply} {l' : Ledger N E}, l.apply .null .null m = (reply, l') →
      l.Step m reply l' := fun answer => ⟨.null, .null, h.null_dead.1, h.null_dead.2, answer⟩
  cases m with
  | addVertex =>
      obtain ⟨v', fresh, answer, tracks⟩ := h.addVertexWith default
      exact ⟨_, ⟨v', .null, fresh, h.null_dead.2, Prod.ext (congrArg Reply.vertex answer) rfl⟩,
        tracks⟩
  | addVertexWith payload =>
      obtain ⟨v', fresh, answer, tracks⟩ := h.addVertexWith payload
      exact ⟨_, ⟨v', .null, fresh, h.null_dead.2, Prod.ext (congrArg Reply.vertex answer) rfl⟩,
        tracks⟩
  | removeVertex v =>
      obtain ⟨answer, tracks⟩ := h.removeVertex v
      exact ⟨_, known (Prod.ext (congrArg Reply.flag answer) rfl), tracks⟩
  | removeVertices vs => exact ⟨_, known rfl, h.removeVertices vs⟩
  | addEdge s t =>
      obtain ⟨e', fresh, answer, tracks⟩ := h.addEdge s t
      exact ⟨_, ⟨.null, e', h.null_dead.1, fresh, Prod.ext (congrArg Reply.edge answer) rfl⟩,
        tracks⟩
  | addEdgeWith s t payload =>
      obtain ⟨e', fresh, answer, tracks⟩ := h.addEdgeWith s t payload
      exact ⟨_, ⟨.null, e', h.null_dead.1, fresh, Prod.ext (congrArg Reply.edge answer) rfl⟩,
        tracks⟩
  | removeEdge e =>
      obtain ⟨answer, tracks⟩ := h.removeEdge e
      exact ⟨_, known (Prod.ext (congrArg Reply.flag answer) rfl), tracks⟩
  | setVertex v payload =>
      obtain ⟨answer, tracks⟩ := h.modifyVertex v fun _ => payload
      exact ⟨_, known (Prod.ext (congrArg Reply.flag answer) rfl), tracks⟩
  | modifyVertex v f =>
      obtain ⟨answer, tracks⟩ := h.modifyVertex v f
      exact ⟨_, known (Prod.ext (congrArg Reply.flag answer) rfl), tracks⟩
  | setEdge e payload =>
      obtain ⟨answer, tracks⟩ := h.modifyEdge e fun _ => payload
      exact ⟨_, known (Prod.ext (congrArg Reply.flag answer) rfl), tracks⟩
  | modifyEdge e f =>
      obtain ⟨answer, tracks⟩ := h.modifyEdge e f
      exact ⟨_, known (Prod.ext (congrArg Reply.flag answer) rfl), tracks⟩
  | clear =>
      refine ⟨_, known rfl, ?_⟩
      rw [← h.direction]
      exact empty g.direction
  | copy => exact ⟨_, known rfl, h⟩

end Tracks

/-- The answers to the changes of a run. -/
def replies [Inhabited N] [Inhabited E] (g : Graph N E) : List (Mutation N E) → List Reply
  | [] => []
  | m :: ms => (m.apply g).1 :: (m.apply g).2.replies ms

theorem Tracks.run [Inhabited N] [Inhabited E] {g : Graph N E} {l : Ledger N E} (h : Tracks g l)
    (ms : List (Mutation N E)) :
    ∃ l', Ledger.Run l ms (g.replies ms) l' ∧ Tracks (g.after ms) l' := by
  induction ms generalizing g l with
  | nil => exact ⟨l, .done l, h⟩
  | cons m ms ih =>
      obtain ⟨l', step, tracks⟩ := h.step m
      obtain ⟨l'', run, tracks'⟩ := ih tracks
      exact ⟨l'', .step step run, tracks'⟩

end Provenance.Graph
