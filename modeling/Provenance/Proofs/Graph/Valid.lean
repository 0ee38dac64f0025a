import Provenance.Graph.Query
import Provenance.Proofs.Arena

/-! # Graphs in good order

A graph tells its edges in three ways: as stored edges, in the lists of their ends, and in the table
from pairs of vertices. In a valid graph the three agree, and every operation keeps it so.
-/

namespace Provenance

namespace Node

variable {N : Type}

theorem dropOutbound_eq {e : Edge} {node : Node N} (h : e ∉ node.outbound) :
    node.dropOutbound e = node := by
  have same : node.outbound.filter (· != e) = node.outbound :=
    List.filter_eq_self.mpr fun e' he' => by simpa using fun eq : e' = e => h (eq ▸ he')
  simp only [dropOutbound, same]

theorem dropInbound_eq {e : Edge} {node : Node N} (h : e ∉ node.inbound) :
    node.dropInbound e = node := by
  have same : node.inbound.filter (· != e) = node.inbound :=
    List.filter_eq_self.mpr fun e' he' => by simpa using fun eq : e' = e => h (eq ▸ he')
  simp only [dropInbound, same]

end Node

namespace Graph

variable {N E : Type}

/-- The edges are the same in the slots, in the lists at their ends and in the table of pairs: each
is listed once at either end and nowhere else, and found under its pair. -/
structure Valid (g : Graph N E) : Prop where
  vertices : g.vertices.Valid
  edges : g.edges.Valid
  ends_live : ∀ e link, g.edges.get? e = some link →
    g.containsVertex link.source = true ∧ g.containsVertex link.target = true
  outbound_nodup : ∀ v, (g.outbound v).Nodup
  mem_outbound : ∀ e v, e ∈ g.outbound v ↔ g.source? e = some v
  inbound_nodup : ∀ v, (g.inbound v).Nodup
  mem_inbound : ∀ e v, e ∈ g.inbound v ↔ g.target? e = some v
  edge?_eq_some : ∀ s t e, g.edge? s t = some e ↔
    ∃ payload, g.edges.get? e = some ⟨s, t, payload⟩

/-! ## Views -/

theorem containsVertex_iff {g : Graph N E} {v : Vertex} :
    g.containsVertex v = true ↔ ∃ node, g.vertices.get? v = some node := Arena.contains_iff

theorem containsEdge_iff {g : Graph N E} {e : Edge} :
    g.containsEdge e = true ↔ ∃ link, g.edges.get? e = some link := Arena.contains_iff

theorem source?_eq_some {g : Graph N E} {e : Edge} {v : Vertex} :
    g.source? e = some v ↔ ∃ link, g.edges.get? e = some link ∧ link.source = v :=
  Option.map_eq_some_iff

theorem target?_eq_some {g : Graph N E} {e : Edge} {v : Vertex} :
    g.target? e = some v ↔ ∃ link, g.edges.get? e = some link ∧ link.target = v :=
  Option.map_eq_some_iff

theorem outbound_eq (g : Graph N E) (v : Vertex) :
    g.outbound v = ((g.vertices.get? v).map Node.outbound).getD [] := by
  unfold outbound
  cases g.vertices.get? v <;> rfl

theorem inbound_eq (g : Graph N E) (v : Vertex) :
    g.inbound v = ((g.vertices.get? v).map Node.inbound).getD [] := by
  unfold inbound
  cases g.vertices.get? v <;> rfl

theorem contains_of_mem_outbound {g : Graph N E} {e : Edge} {v : Vertex} (h : e ∈ g.outbound v) :
    g.containsVertex v = true := by
  cases hv : g.vertices.get? v with
  | none => simp [outbound_eq, hv] at h
  | some node => exact containsVertex_iff.mpr ⟨node, hv⟩

theorem contains_of_mem_inbound {g : Graph N E} {e : Edge} {v : Vertex} (h : e ∈ g.inbound v) :
    g.containsVertex v = true := by
  cases hv : g.vertices.get? v with
  | none => simp [inbound_eq, hv] at h
  | some node => exact containsVertex_iff.mpr ⟨node, hv⟩

/-- That the ends of an edge are live follows from the lists it stands in. -/
theorem valid_of_lists {g : Graph N E} (vertices : g.vertices.Valid) (edges : g.edges.Valid)
    (outbound_nodup : ∀ v, (g.outbound v).Nodup)
    (mem_outbound : ∀ e v, e ∈ g.outbound v ↔ g.source? e = some v)
    (inbound_nodup : ∀ v, (g.inbound v).Nodup)
    (mem_inbound : ∀ e v, e ∈ g.inbound v ↔ g.target? e = some v)
    (edge?_eq_some : ∀ s t e, g.edge? s t = some e ↔
      ∃ payload, g.edges.get? e = some ⟨s, t, payload⟩) : g.Valid where
  vertices := vertices
  edges := edges
  ends_live e link h :=
    ⟨contains_of_mem_outbound ((mem_outbound e _).mpr (source?_eq_some.mpr ⟨link, h, rfl⟩)),
      contains_of_mem_inbound ((mem_inbound e _).mpr (target?_eq_some.mpr ⟨link, h, rfl⟩))⟩
  outbound_nodup := outbound_nodup
  mem_outbound := mem_outbound
  inbound_nodup := inbound_nodup
  mem_inbound := mem_inbound
  edge?_eq_some := edge?_eq_some

/-- A change of payloads and of vertices without edges leaves a graph valid. -/
theorem Valid.of_same_edges {g g' : Graph N E} (valid : g.Valid) (vertices : g'.vertices.Valid)
    (edges : g'.edges.Valid) (outbound : ∀ v, g'.outbound v = g.outbound v)
    (inbound : ∀ v, g'.inbound v = g.inbound v)
    (links : ∀ e, (g'.edges.get? e).map Link.ends = (g.edges.get? e).map Link.ends)
    (between : g'.between = g.between) : g'.Valid := by
  have ends : ∀ (h : Graph N E) (e : Edge) (s t : Vertex),
      (∃ payload, h.edges.get? e = some ⟨s, t, payload⟩) ↔
        (h.edges.get? e).map Link.ends = some (s, t) := by
    intro h e s t
    cases h.edges.get? e with
    | none => simp
    | some link =>
        obtain ⟨source, target, payload⟩ := link
        simp [Link.ends]
  have source : ∀ e, g'.source? e = g.source? e := fun e => by
    have step := congrArg (Option.map Prod.fst) (links e)
    simpa only [Option.map_map, Function.comp_def, Link.ends, source?] using step
  have target : ∀ e, g'.target? e = g.target? e := fun e => by
    have step := congrArg (Option.map Prod.snd) (links e)
    simpa only [Option.map_map, Function.comp_def, Link.ends, target?] using step
  refine valid_of_lists vertices edges ?_ ?_ ?_ ?_ ?_
  · intro v
    rw [outbound]
    exact valid.outbound_nodup v
  · intro e v
    rw [outbound, source]
    exact valid.mem_outbound e v
  · intro v
    rw [inbound]
    exact valid.inbound_nodup v
  · intro e v
    rw [inbound, target]
    exact valid.mem_inbound e v
  · intro s t e
    rw [ends, links, ← ends, edge?, between]
    exact valid.edge?_eq_some s t e

theorem valid_empty (direction : Direction) : (empty direction : Graph N E).Valid := by
  refine valid_of_lists Arena.valid_empty Arena.valid_empty ?_ ?_ ?_ ?_ ?_
  · exact fun v => List.nodup_nil
  · exact fun e v => by simp [outbound, source?, empty]
  · exact fun v => List.nodup_nil
  · exact fun e v => by simp [inbound, target?, empty]
  · exact fun s t e => by simp [edge?, empty]

/-- An edge is found under its pair. -/
theorem Valid.edge?_ends {g : Graph N E} (valid : g.Valid) {e : Edge} {link : Link E}
    (h : g.edges.get? e = some link) : g.edge? link.source link.target = some e :=
  (valid.edge?_eq_some _ _ _).mpr ⟨link.payload, h⟩

/-- There is at most one edge from one vertex to another. -/
theorem Valid.eq_of_ends_eq {g : Graph N E} (valid : g.Valid) {e e' : Edge} {link link' : Link E}
    (h : g.edges.get? e = some link) (h' : g.edges.get? e' = some link')
    (same : link.ends = link'.ends) : e = e' := by
  have found := valid.edge?_ends h
  have found' := valid.edge?_ends h'
  simp only [Link.ends, Prod.mk.injEq] at same
  rw [same.1, same.2, found'] at found
  exact (Option.some.inj found).symm

end Graph

end Provenance
