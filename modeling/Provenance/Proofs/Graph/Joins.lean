import Provenance.Proofs.Graph.Snapshot

/-! # Joining vertices

What becomes of the edges when pairs of vertices are joined one after the other. A pair is refused
only once every edge handle is taken.
-/

namespace Provenance.Graph

variable {N E : Type}

/-- The second graph is the first with some pairs joined, as far as there were handles. -/
structure Joins (g g' : Graph N E) (pairs : List (Vertex × Vertex)) : Prop where
  valid : g'.Valid
  direction : g'.direction = g.direction
  vertexCount : g'.vertexCount = g.vertexCount
  vertexPayload? : ∀ v, g'.vertexPayload? v = g.vertexPayload? v
  keeps : ∀ s t, g.Joined s t → g'.Joined s t
  only : ∀ s t, g'.Joined s t → g.Joined s t ∨ (s, t) ∈ pairs
  edgeCount_le : g.edgeCount ≤ g'.edgeCount
  edgeCount_le_add : g'.edgeCount ≤ g.edgeCount + pairs.length
  all : g.edgeCount + pairs.length ≤ Handle.nullIndex ∨ g'.edgeCount < Handle.nullIndex →
    ∀ s t, (s, t) ∈ pairs → g'.Joined s t

namespace Joins

variable {g g' g'' : Graph N E} {pairs pairs' : List (Vertex × Vertex)}

theorem containsVertex (joins : Joins g g' pairs) (v : Vertex) :
    g'.containsVertex v = g.containsVertex v := by
  have same := congrArg Option.isSome (joins.vertexPayload? v)
  rwa [Graph.vertexPayload?, Graph.vertexPayload?, Option.isSome_map, Option.isSome_map] at same

theorem refl (valid : g.Valid) : Joins g g [] where
  valid := valid
  direction := rfl
  vertexCount := rfl
  vertexPayload? _ := rfl
  keeps _ _ joined := joined
  only _ _ joined := .inl joined
  edgeCount_le := Nat.le_refl _
  edgeCount_le_add := Nat.le_refl _
  all _ _ _ listed := absurd listed List.not_mem_nil

theorem trans (first : Joins g g' pairs) (second : Joins g' g'' pairs') :
    Joins g g'' (pairs ++ pairs') where
  valid := second.valid
  direction := second.direction.trans first.direction
  vertexCount := second.vertexCount.trans first.vertexCount
  vertexPayload? v := (second.vertexPayload? v).trans (first.vertexPayload? v)
  keeps s t joined := second.keeps s t (first.keeps s t joined)
  only s t joined := by
    rcases second.only s t joined with joined | listed
    · rcases first.only s t joined with joined | listed
      · exact .inl joined
      · exact .inr (List.mem_append_left _ listed)
    · exact .inr (List.mem_append_right _ listed)
  edgeCount_le := Nat.le_trans first.edgeCount_le second.edgeCount_le
  edgeCount_le_add := by
    have le := first.edgeCount_le_add
    have le' := second.edgeCount_le_add
    rw [List.length_append]
    omega
  all room s t listed := by
    have le := first.edgeCount_le_add
    have le' := second.edgeCount_le
    rw [List.length_append] at room
    rcases List.mem_append.mp listed with listed | listed
    · exact second.keeps s t (first.all (by omega) s t listed)
    · exact second.all (by omega) s t listed

/-- A graph that has the edges already. -/
theorem of_joined (valid : g'.Valid) (direction : g'.direction = g.direction)
    (vertexCount : g'.vertexCount = g.vertexCount)
    (vertexPayload? : ∀ v, g'.vertexPayload? v = g.vertexPayload? v)
    (edgeCount : g'.edgeCount = g.edgeCount) (same : ∀ s t, g'.Joined s t ↔ g.Joined s t)
    (already : ∀ s t, (s, t) ∈ pairs → g.Joined s t) : Joins g g' pairs where
  valid := valid
  direction := direction
  vertexCount := vertexCount
  vertexPayload? := vertexPayload?
  keeps s t := (same s t).mpr
  only s t joined := .inl ((same s t).mp joined)
  edgeCount_le := Nat.le_of_eq edgeCount.symm
  edgeCount_le_add := by omega
  all _ s t listed := (same s t).mpr (already s t listed)

end Joins

theorem edgeCount_joinWith {g : Graph N E} (room : g.edges.isFull = false) (s t : Vertex)
    (payload : E) : (g.joinWith s t payload).2.edgeCount = g.edgeCount + 1 := by
  simpa [joinWith, room, edgeCount] using Arena.size_insert _ _

theorem joins_joinWith {g : Graph N E} (valid : g.Valid) {s t : Vertex}
    (source : g.containsVertex s = true) (target : g.containsVertex t = true)
    (apart : g.edge? s t = none) (payload : E) :
    Joins g (g.joinWith s t payload).2 [(s, t)] := by
  cases room : g.edges.isFull with
  | true =>
      have full : g.edgeCount = Handle.nullIndex := valid.edges.isFull_iff.mp room
      rw [joinWith_of_full room]
      exact { Joins.refl valid with
        only := fun _ _ joined => .inl joined
        edgeCount_le_add := Nat.le_add_right _ _
        all := fun room => by
          dsimp only at room
          rw [List.length_singleton] at room
          omega }
  | false =>
      have joined_iff : ∀ v w, (g.joinWith s t payload).2.Joined v w ↔
          g.Joined v w ∨ (v, w) ∈ [(s, t)] := by
        intro v w
        rw [Joined, hasEdge, edge?_joinWith room, List.mem_singleton]
        by_cases same : (v, w) = (s, t) <;> simp [same, Joined, hasEdge]
      have count := edgeCount_joinWith room s t payload
      exact {
        valid := valid_joinWith valid source target apart payload
        direction := direction_joinWith g s t payload
        vertexCount := vertexCount_joinWith g s t payload
        vertexPayload? := vertexPayload?_joinWith g s t payload
        keeps := fun v w joined => (joined_iff v w).mpr (.inl joined)
        only := fun v w => (joined_iff v w).mp
        edgeCount_le := by omega
        edgeCount_le_add := by simp [count]
        all := fun _ v w listed => (joined_iff v w).mpr (.inr listed) }

theorem joins_modifyEdge {g : Graph N E} (valid : g.Valid) {s t : Vertex} {e : Edge}
    (found : g.edge? s t = some e) (f : E → E) : Joins g (g.modifyEdge e f) [(s, t)] := by
  refine Joins.of_joined (valid_modifyEdge valid e f) rfl rfl (fun _ => rfl)
    (Arena.size_modify _ _ _) (fun _ _ => .rfl) fun v w listed => ?_
  obtain ⟨rfl, rfl⟩ := Prod.mk.inj (List.mem_singleton.mp listed)
  simp [Joined, hasEdge, found]

theorem joins_addEdgeWith {g : Graph N E} (valid : g.Valid) {s t : Vertex}
    (source : g.containsVertex s = true) (target : g.containsVertex t = true) (payload : E) :
    Joins g (g.addEdgeWith s t payload).2 [(s, t)] := by
  cases found : g.edge? s t with
  | some e =>
      rw [addEdgeWith_of_joined valid found]
      exact joins_modifyEdge valid found fun _ => payload
  | none =>
      rw [addEdgeWith_of_apart source target found]
      exact joins_joinWith valid source target found payload

theorem joins_addEdge [Inhabited E] {g : Graph N E} (valid : g.Valid) {s t : Vertex}
    (source : g.containsVertex s = true) (target : g.containsVertex t = true) :
    Joins g (g.addEdge s t).2 [(s, t)] := by
  cases found : g.edge? s t with
  | some e =>
      rw [addEdge_of_joined valid found]
      refine Joins.of_joined valid rfl rfl (fun _ => rfl) rfl (fun _ _ => .rfl) fun v w listed => ?_
      obtain ⟨rfl, rfl⟩ := Prod.mk.inj (List.mem_singleton.mp listed)
      simp [Joined, hasEdge, found]
  | none =>
      rw [addEdge_of_apart source target found]
      exact joins_joinWith valid source target found default

theorem joins_addEdges [Inhabited E] {g : Graph N E} (valid : g.Valid)
    (pairs : List (Vertex × Vertex))
    (live : ∀ s t, (s, t) ∈ pairs → g.containsVertex s = true ∧ g.containsVertex t = true) :
    Joins g (pairs.foldl (fun g (s, t) => (g.addEdge s t).2) g) pairs := by
  induction pairs generalizing g with
  | nil => exact .refl valid
  | cons pair pairs ih =>
      obtain ⟨source, target⟩ := live pair.1 pair.2 List.mem_cons_self
      have first := joins_addEdge valid source target
      refine first.trans (ih first.valid fun s t listed => ?_)
      rw [first.containsVertex, first.containsVertex]
      exact live s t (List.mem_cons_of_mem pair listed)

/-! ## The pairs of a graph -/

theorem Valid.mem_edgePairs {g : Graph N E} (valid : g.Valid) {s t : Vertex} :
    (s, t) ∈ g.edgePairs ↔ g.Joined s t := by
  simp only [edgePairs, List.mem_map, Prod.exists, Arena.mem_entries, valid.joined_iff]

theorem Valid.nodup_edgePairs {g : Graph N E} (valid : g.Valid) : g.edgePairs.Nodup := by
  refine List.pairwise_map.mpr (g.edges.entries_sorted.imp_of_mem ?_)
  rintro ⟨e, link⟩ ⟨e', link'⟩ listed listed' lt same
  have eq := valid.eq_of_ends_eq (Arena.mem_entries.mp listed) (Arena.mem_entries.mp listed') same
  exact Nat.ne_of_lt lt (congrArg Handle.index eq)

theorem Valid.length_edgePairs {g : Graph N E} (valid : g.Valid) :
    g.edgePairs.length = g.edgeCount := by
  rw [edgePairs, List.length_map, ← List.length_map (f := Prod.fst)]
  exact valid.edges.length_handles

theorem Valid.not_joined {g : Graph N E} (valid : g.Valid) (no_edges : g.edgeCount = 0)
    (s t : Vertex) : ¬ g.Joined s t := by
  rw [← valid.length_edgePairs, List.length_eq_zero_iff] at no_edges
  rw [← valid.mem_edgePairs, no_edges]
  exact List.not_mem_nil

end Provenance.Graph
