import Mathlib.Data.List.FinRange
import Provenance.Proofs.Graph.Algebra

/-! # The places of a copy

A copy has a vertex in the place of each vertex of the graph. The payloads that the flags ask for
are those of the vertex in the same place, or of the edge between the same places, and all others
are left at their defaults.
-/

open Relation (TransGen)

namespace Provenance.Graph

variable {N E : Type} {flags : CopyFlags} {g d : Graph N E} {v w : Vertex}

/-! ## Defaults -/

section Defaults

variable [Inhabited N] [Inhabited E]

/-- The payloads that the flags do not ask for are the defaults. -/
structure Blank (flags : CopyFlags) (g : Graph N E) : Prop where
  vertices : flags.vertexPayloads = false →
    ∀ v payload, g.vertexPayload? v = some payload → payload = default
  edges : flags.edgePayloads = false →
    ∀ e payload, g.edgePayload? e = some payload → payload = default

namespace Blank

theorem addVertex (blank : g.Blank flags) (valid : g.Valid) : g.addVertex.2.Blank flags := by
  rw [Graph.addVertex]
  cases room : g.vertices.isFull with
  | true => rwa [addVertexWith_of_full room]
  | false =>
      refine ⟨fun unasked v payload found => ?_, fun unasked e payload found => ?_⟩
      · rw [vertexPayload?_addVertexWith valid room] at found
        split at found
        next => exact (Option.some.inj found).symm
        next => exact blank.vertices unasked v payload found
      · rw [edgePayload?, edges_addVertexWith] at found
        exact blank.edges unasked e payload found

theorem joinWith (blank : g.Blank flags) (valid : g.Valid) (s t : Vertex) :
    (g.joinWith s t default).2.Blank flags := by
  cases room : g.edges.isFull with
  | true => rwa [joinWith_of_full room]
  | false =>
      refine ⟨fun unasked v payload found => ?_, fun unasked e payload found => ?_⟩
      · rw [vertexPayload?_joinWith] at found
        exact blank.vertices unasked v payload found
      · rw [edgePayload?, get?_edges_joinWith valid room] at found
        split at found
        next => exact (Option.some.inj found).symm
        next => exact blank.edges unasked e payload found

theorem addEdge (blank : g.Blank flags) (valid : g.Valid) (s t : Vertex) :
    (g.addEdge s t).2.Blank flags := by
  unfold Graph.addEdge
  split
  · split
    · exact blank
    · exact blank.joinWith valid s t
  · exact blank

theorem addEdges {n : Nat} {copy : Copy N E n} (blank : copy.graph.Blank flags)
    (valid : copy.graph.Valid) (pairs : List (Fin n × Fin n)) :
    (copy.addEdges pairs).graph.Blank flags :=
  (List.foldlRecOn (motive := fun h : Graph N E => h.Valid ∧ h.Blank flags) pairs _ ⟨valid, blank⟩
    fun _ so_far _ _ => ⟨valid_addEdge so_far.1 _ _, so_far.2.addEdge so_far.1 _ _⟩).2

/-- Only payloads that are asked for are copied. -/
theorem copyPayloads {t : Snapshot} {copy : Copy N E t.size} (blank : copy.graph.Blank flags) :
    (g.copyPayloads t flags copy).graph.Blank flags := by
  have vertices : flags.vertexPayloads = true → ∀ copy : Copy N E t.size,
      copy.graph.Blank flags → (g.copyVertexPayloads t copy).graph.Blank flags := by
    intro asked copy blank
    refine List.foldlRecOn (motive := Blank flags) (List.finRange t.size) _ blank
      fun h so_far i _ => ?_
    split
    · exact ⟨fun unasked => absurd asked (by simp [unasked]), so_far.edges⟩
    · exact so_far
  have edges : flags.edgePayloads = true → ∀ copy : Copy N E t.size,
      copy.graph.Blank flags → (g.copyEdgePayloads t copy).graph.Blank flags := by
    intro asked copy blank
    refine List.foldlRecOn (motive := Blank flags) g.edgeList _ blank fun h so_far e _ => ?_
    split
    · exact ⟨so_far.vertices, fun unasked => absurd asked (by simp [unasked])⟩
    · exact so_far
  unfold Graph.copyPayloads
  cases asked : flags.vertexPayloads <;> cases asked' : flags.edgePayloads
  · exact blank
  · exact edges asked' copy blank
  · exact vertices asked copy blank
  · exact edges asked' _ (vertices asked copy blank)

end Blank

theorem blank_skeleton (flags : CopyFlags) (direction : Direction) (n : Nat) :
    (skeleton direction n : Copy N E n).graph.Blank flags := by
  induction n with
  | zero => exact ⟨fun _ _ _ found => (nomatch found), fun _ _ _ found => (nomatch found)⟩
  | succ n ih => exact ih.addVertex (valid_skeleton direction n)

end Defaults

/-! ## Places -/

/-- The vertex of a copy that has the place of `v` in the storage order of the graph. -/
def place (g : Graph N E) (v : Vertex) : Vertex := spot (g.vertexList.idxOf v)

theorem place_label (g : Graph N E) (i : Fin g.snapshot.size) :
    g.place (g.snapshot.label i) = spot i :=
  congrArg spot (g.vertices.handles_nodup.idxOf_getElem i.val i.isLt)

theorem Copies.vertexList_place {pairs : List (Fin g.snapshot.size × Fin g.snapshot.size)}
    (copies : Copies flags g d pairs) : d.vertexList = g.vertexList.map g.place := by
  rw [copies.vertexList, ← List.map_coe_finRange_eq_range, ← g.map_label_finRange, List.map_map,
    List.map_map]
  exact List.map_congr_left fun i _ => (g.place_label i).symm

theorem copiedPairs_place (valid : g.Valid) :
    g.copiedPairs = g.edgePairs.map (Prod.map g.place g.place) := by
  rw [copiedPairs, spots, ← map_label_numbers valid, List.map_map]
  refine List.map_congr_left fun pair _ => ?_
  simp only [Function.comp_apply, Prod.map_apply', place_label]

theorem Valid.transGen_place (valid : g.Valid) (live : g.containsVertex v = true)
    (live' : g.containsVertex w = true) :
    TransGen g.Copied (g.place v) (g.place w) ↔ TransGen g.Joined v w := by
  obtain ⟨i, rfl⟩ := exists_label live
  obtain ⟨j, rfl⟩ := exists_label live'
  rw [place_label, place_label, transGen_copied, ← valid.transGen_snapshot]
  constructor
  · rintro ⟨a, b, chain, source, target⟩
    rwa [spot_inj source, spot_inj target] at chain
  · exact fun chain => ⟨i, j, chain, rfl, rfl⟩

theorem exists_place (live : g.containsVertex v = true) :
    ∃ i, g.snapshot.label i = v ∧ g.place v = spot i := by
  obtain ⟨i, rfl⟩ := exists_label live
  exact ⟨i, rfl, g.place_label i⟩

/-- An edge joins one pair of places. -/
theorem places_of_edge {d : Graph N E} (valid : d.Valid) {n : Nat} {i j i' j' : Fin n} {e : Edge}
    (between : d.edge? (spot i) (spot j) = some e)
    (between' : d.edge? (spot i') (spot j') = some e) : i' = i ∧ j' = j := by
  obtain ⟨_, entry⟩ := (valid.edge?_eq_some _ _ _).mp between
  obtain ⟨_, entry'⟩ := (valid.edge?_eq_some _ _ _).mp between'
  have same := Option.some.inj (entry'.symm.trans entry)
  simp only [Link.mk.injEq] at same
  exact ⟨spot_inj same.1, spot_inj same.2.1⟩

/-! ## Payloads by place -/

section Payloads

variable [Inhabited N] [Inhabited E] {pairs : List (Fin g.snapshot.size × Fin g.snapshot.size)}

/-- The second graph is built from the first one by joining the pairs in a copy. -/
structure Built (flags : CopyFlags) (g d : Graph N E)
    (pairs : List (Fin g.snapshot.size × Fin g.snapshot.size)) : Prop where
  nodup : pairs.Nodup
  result : (g.copyPayloads g.snapshot flags ((skeleton g.direction _).addEdges pairs)).graph = d

namespace Built

theorem copies (built : Built flags g d pairs) (valid : g.Valid) : Copies flags g d pairs :=
  built.result ▸ copies_copyPayloads valid flags built.nodup

theorem blank (built : Built flags g d pairs) : d.Blank flags := by
  rw [← built.result]
  exact ((blank_skeleton flags g.direction _).addEdges (valid_skeleton _ _) pairs).copyPayloads

theorem vertexPayload?_place (built : Built flags g d pairs) (valid : g.Valid)
    (live : g.containsVertex v = true) :
    d.vertexPayload? (g.place v) =
      if flags.vertexPayloads then g.vertexPayload? v else some default := by
  have copies := built.copies valid
  cases asked : flags.vertexPayloads with
  | true =>
      obtain ⟨i, rfl, place⟩ := exists_place live
      rw [place]
      exact copies.vertexPayload? asked i
  | false =>
      have copied : g.place v ∈ d.vertexList := by
        rw [copies.vertexList_place]
        exact List.mem_map_of_mem (Arena.mem_handles.mpr live)
      obtain ⟨node, found⟩ := containsVertex_iff.mp (Arena.mem_handles.mp copied)
      have held : d.vertexPayload? (g.place v) = some node.payload := by
        rw [Graph.vertexPayload?, found]
        rfl
      rw [held, built.blank.vertices asked _ _ held]
      rfl

/-- Payloads are set at the counterparts of edges only. -/
theorem edgePayload?_of_no_counterpart (built : Built flags g d pairs) (valid : g.Valid)
    (asked : flags.edgePayloads = true) {e : Edge}
    (apart : ∀ i j : Fin g.snapshot.size, d.edge? (spot i) (spot j) = some e →
      ¬ g.Joined (g.snapshot.label i) (g.snapshot.label j)) :
    d.edgePayload? e =
      ((skeleton g.direction _ : Copy N E _).addEdges pairs).graph.edgePayload? e := by
  obtain ⟨faithful, places, -⟩ :=
    joined_skeleton (N := N) (E := E) g.direction (built.copies valid).room pairs
  rw [← built.result]
  refine (edgePayload?_copyPayloads valid faithful asked).2 e fun e' counterpart => ?_
  obtain ⟨i, j, link, found, ends, between⟩ := counterpart?_eq_some.mp counterpart
  rw [places, places, ← edge?_copyPayloads flags, built.result] at between
  exact apart i j between (valid.joined_iff.mpr ⟨e', link, found, ends⟩)

/-- An edge between two places has the payload of the edge between their vertices, or the default
if there is none or it is not asked for. -/
theorem edgePayload?_place (built : Built flags g d pairs) (valid : g.Valid)
    (live : g.containsVertex v = true) (live' : g.containsVertex w = true) {e : Edge}
    (between : d.edge? (g.place v) (g.place w) = some e) :
    d.edgePayload? e = some (if flags.edgePayloads then g.payloadBetween v w else default) := by
  have copies := built.copies valid
  obtain ⟨payload, entry⟩ := (copies.valid.edge?_eq_some _ _ _).mp between
  have held : d.edgePayload? e = some payload := by rw [Graph.edgePayload?, entry]; rfl
  cases asked : flags.edgePayloads with
  | false =>
      rw [held, built.blank.edges asked e payload held]
      rfl
  | true =>
      obtain ⟨i, rfl, place⟩ := exists_place live
      obtain ⟨j, rfl, place'⟩ := exists_place live'
      rw [place, place'] at between
      cases joined : g.edge? (g.snapshot.label i) (g.snapshot.label j) with
      | some source =>
          obtain ⟨payload, found⟩ := (valid.edge?_eq_some _ _ _).mp joined
          rw [copies.edgePayload? asked source _ i j found rfl e between, payloadBetween, joined,
            Option.bind_some, Graph.edgePayload?, found]
          rfl
      | none =>
          have bare : ((skeleton g.direction _ : Copy N E _).addEdges pairs).graph.Blank .nothing :=
            (blank_skeleton .nothing g.direction _).addEdges (valid_skeleton _ _) pairs
          have alone : ∀ i' j' : Fin g.snapshot.size, d.edge? (spot i') (spot j') = some e →
              ¬ g.Joined (g.snapshot.label i') (g.snapshot.label j') := by
            intro i' j' between' edge
            obtain ⟨rfl, rfl⟩ := places_of_edge copies.valid between between'
            exact Option.not_isSome_iff_eq_none.mpr joined edge
          have kept := built.edgePayload?_of_no_counterpart valid asked alone
          rw [payloadBetween, joined, held, bare.edges rfl e payload (kept.symm.trans held)]
          rfl

end Built

end Payloads

end Provenance.Graph
