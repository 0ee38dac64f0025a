import Mathlib.Data.List.Sort
import Provenance.Proofs.Graph.Around
import Provenance.Proofs.Graph.Detours
import Provenance.Proofs.Graph.Outline

/-! # Copied graphs

A closure or a reduction is a copy of a graph in the first slots, with edges of its own and the
payloads that the graph had. Two copies with the same edges in the same order and the same payloads
are the same graph, and a copy of a copy keeps every vertex in its slot.
-/

open Relation (TransGen)

namespace Provenance

/-- The chains of a relation that an injective map carries over. -/
theorem transGen_map {α β : Type} {r : α → α → Prop} {f : α → β}
    (inj : ∀ a b, f a = f b → a = b) {s t : β} :
    TransGen (Relation.Map r f f) s t ↔ ∃ a b, TransGen r a b ∧ f a = s ∧ f b = t := by
  constructor
  · intro chain
    induction chain with
    | single step =>
        obtain ⟨a, b, step, source, target⟩ := step
        exact ⟨a, b, .single step, source, target⟩
    | tail _ step ih =>
        obtain ⟨a, b, chain, source, rfl⟩ := ih
        obtain ⟨b', c, step, same, target⟩ := step
        exact ⟨a, c, chain.tail (inj _ _ same ▸ step), source, target⟩
  · rintro ⟨a, b, chain, rfl, rfl⟩
    exact TransGen.lift f (fun a b step => ⟨a, b, step, rfl, rfl⟩) a b chain

namespace Graph

variable {N E : Type} {g d d' : Graph N E}

/-! ## Payloads of copied edges -/

theorem edgePayload?_modifyEdge (g : Graph N E) (e : Edge) (f : E → E) (e' : Edge) :
    (g.modifyEdge e f).edgePayload? e' =
      if e' = e then (g.edgePayload? e).map f else g.edgePayload? e' := by
  rw [edgePayload?, get?_modifyEdge]
  split
  next => simp [edgePayload?, Function.comp_def]
  next => rfl

section

variable {copy : Copy N E g.snapshot.size}

theorem counterpart?_eq_some {e copied : Edge} :
    g.counterpart? g.snapshot copy e = some copied ↔ ∃ i j link, g.edges.get? e = some link ∧
      link.ends = (g.snapshot.label i, g.snapshot.label j) ∧
      copy.graph.edge? (copy.vertices.get i) (copy.vertices.get j) = some copied := by
  simp only [counterpart?, copiedEnds?, Option.bind_eq_bind, Option.bind_assoc, Option.pure_def,
    Option.bind_some, Option.bind_eq_some_iff, Prod.exists, endNumbers?_eq_some]
  constructor
  · rintro ⟨i, j, ⟨link, found, ends⟩, between⟩
    exact ⟨i, j, link, found, ends, between⟩
  · rintro ⟨i, j, link, found, ends, between⟩
    exact ⟨i, j, ⟨link, found, ends⟩, between⟩

theorem counterpart?_inj (valid : g.Valid) (faithful : copy.Faithful) {e e' copied : Edge}
    (first : g.counterpart? g.snapshot copy e = some copied)
    (second : g.counterpart? g.snapshot copy e' = some copied) : e = e' := by
  obtain ⟨i, j, link, found, ends, between⟩ := counterpart?_eq_some.mp first
  obtain ⟨i', j', link', found', ends', between'⟩ := counterpart?_eq_some.mp second
  obtain ⟨payload, entry⟩ := (faithful.valid.edge?_eq_some _ _ _).mp between
  obtain ⟨payload', entry'⟩ := (faithful.valid.edge?_eq_some _ _ _).mp between'
  have same := Option.some.inj (entry.symm.trans entry')
  simp only [Link.mk.injEq] at same
  have source := faithful.distinct _ _ same.1
  have target := faithful.distinct _ _ same.2.1
  exact valid.eq_of_ends_eq found found' (by rw [ends, ends', source, target])

/-- Each copied edge has the payload of the one that it stands for, once it was its turn. -/
theorem copyEdgePayloads_list (valid : g.Valid) (faithful : copy.Faithful) {es : List Edge}
    (nodup : es.Nodup) (live : ∀ e ∈ es, g.containsEdge e = true) {h : Graph N E}
    (outline : h.outline = copy.graph.outline) :
    let h' := es.foldl (fun h e => match g.counterpart? g.snapshot copy e, g.edgePayload? e with
      | some copied, some payload => (h.setEdge copied payload).2
      | _, _ => h) h
    (∀ e ∈ es, ∀ copied, g.counterpart? g.snapshot copy e = some copied →
      h'.edgePayload? copied = g.edgePayload? e) ∧
    ∀ copied, (∀ e ∈ es, g.counterpart? g.snapshot copy e ≠ some copied) →
      h'.edgePayload? copied = h.edgePayload? copied := by
  induction es generalizing h with
  | nil => exact ⟨fun e listed => absurd listed List.not_mem_nil, fun _ _ => rfl⟩
  | cons e es ih =>
      obtain ⟨new, nodup⟩ := List.nodup_cons.mp nodup
      have live_rest : ∀ e' ∈ es, g.containsEdge e' = true :=
        fun e' listed => live e' (List.mem_cons_of_mem e listed)
      obtain ⟨link, found⟩ := containsEdge_iff.mp (live e List.mem_cons_self)
      have payload : g.edgePayload? e = some link.payload := by rw [edgePayload?, found]; rfl
      simp only [List.foldl_cons, payload]
      cases counterpart : g.counterpart? g.snapshot copy e with
      | none =>
          obtain ⟨done, others⟩ := ih nodup live_rest outline
          refine ⟨fun e' listed copied same => ?_, fun copied untouched => ?_⟩
          · rcases List.mem_cons.mp listed with rfl | later
            · rw [counterpart] at same
              cases same
            · exact done e' later copied same
          · exact others copied fun e' listed => untouched e' (List.mem_cons_of_mem e listed)
      | some copied =>
          obtain ⟨i, j, -, -, -, between⟩ := counterpart?_eq_some.mp counterpart
          have held : (h.edgePayload? copied).isSome := by
            have there := (faithful.valid.live_of_edge? between).2.2
            have same := congrArg (fun g => g.edges.contains copied) outline
            simp only [Graph.outline, Arena.contains_map] at same
            rw [edgePayload?, Option.isSome_map]
            exact same.trans there
          have set := edgePayload?_modifyEdge h copied fun _ => link.payload
          obtain ⟨done, others⟩ :=
            ih nodup live_rest ((outline_modifyEdge h copied fun _ => link.payload).trans outline)
          dsimp only
          refine ⟨fun e' listed copied' same => ?_, fun copied' untouched => ?_⟩
          · rcases List.mem_cons.mp listed with rfl | later
            · rw [counterpart] at same
              cases same
              refine (others copied fun e'' later same => ?_).trans ?_
              · exact new (counterpart?_inj valid faithful counterpart same ▸ later)
              · rw [set, if_pos rfl, payload]
                obtain ⟨old, hold⟩ := Option.isSome_iff_exists.mp held
                rw [hold]
                rfl
            · exact done e' later copied' same
          · refine (others copied' fun e' later =>
              untouched e' (List.mem_cons_of_mem e later)).trans ?_
            have other : copied' ≠ copied := by
              rintro rfl
              exact untouched e List.mem_cons_self counterpart
            rw [set, if_neg other]

/-- The edges get their payloads last, and nothing but payloads of vertices is set before. -/
theorem exists_painted (faithful : copy.Faithful) {flags : CopyFlags}
    (asked : flags.edgePayloads = true) :
    ∃ painted : Copy N E g.snapshot.size,
      g.copyPayloads g.snapshot flags copy = g.copyEdgePayloads g.snapshot painted ∧
      painted.vertices = copy.vertices ∧ painted.graph.outline = copy.graph.outline ∧
      painted.graph.edges = copy.graph.edges ∧ painted.Faithful := by
  cases first : flags.vertexPayloads with
  | true =>
      obtain ⟨shape, -⟩ := copyVertexPayloads_spec (g := g) faithful
      refine ⟨g.copyVertexPayloads g.snapshot copy, ?_, rfl,
        outline_copyPayloads g g.snapshot .vertices copy, ?_, shape.valid,
        fun i => (shape.containsVertex _).trans (faithful.live i), faithful.distinct⟩
      · simp [copyPayloads, first, asked]
      · refine List.foldlRecOn (motive := fun h : Graph N E => h.edges = copy.graph.edges) _ _ rfl
          fun h so_far i _ => ?_
        split
        · exact so_far
        · exact so_far
  | false => exact ⟨copy, by simp [copyPayloads, first, asked], rfl, rfl, rfl, faithful⟩

theorem edge?_copyPayloads (flags : CopyFlags) (copy : Copy N E g.snapshot.size) (s t : Vertex) :
    (g.copyPayloads g.snapshot flags copy).graph.edge? s t = copy.graph.edge? s t :=
  congrArg (fun g : Graph Unit Unit => g.edge? s t) (outline_copyPayloads g g.snapshot flags copy)

/-- An edge gets the payload of the one that it stands for, or keeps its own if there is none. -/
theorem edgePayload?_copyPayloads (valid : g.Valid) (faithful : copy.Faithful) {flags : CopyFlags}
    (asked : flags.edgePayloads = true) :
    let d := (g.copyPayloads g.snapshot flags copy).graph
    (∀ e copied, g.counterpart? g.snapshot copy e = some copied →
      d.edgePayload? copied = g.edgePayload? e) ∧
    ∀ copied, (∀ e, g.counterpart? g.snapshot copy e ≠ some copied) →
      d.edgePayload? copied = copy.graph.edgePayload? copied := by
  intro d
  obtain ⟨painted, done, vertices, outline, edges, painted_faithful⟩ :=
    exists_painted faithful asked
  have counterparts : ∀ e,
      g.counterpart? g.snapshot painted e = g.counterpart? g.snapshot copy e := by
    intro e
    have between : painted.graph.edge? = copy.graph.edge? :=
      congrArg (fun g : Graph Unit Unit => g.edge?) outline
    rw [counterpart?, counterpart?, copiedEnds?, copiedEnds?, vertices, between]
  have all : g.edgeList.Nodup := g.edges.handles_nodup
  obtain ⟨set, kept⟩ := copyEdgePayloads_list valid painted_faithful all
    (fun e listed => Arena.mem_handles.mp listed) rfl
  have result : d = (g.copyEdgePayloads g.snapshot painted).graph := congrArg Copy.graph done
  rw [result]
  refine ⟨fun e copied counterpart => ?_, fun copied none_for => ?_⟩
  · obtain ⟨i, j, link, found, -⟩ := counterpart?_eq_some.mp counterpart
    have listed : e ∈ g.edgeList := Arena.mem_handles.mpr (containsEdge_iff.mpr ⟨link, found⟩)
    exact set e listed copied ((counterparts e).trans counterpart)
  · refine (kept copied fun e _ => counterparts e ▸ none_for e).trans ?_
    rw [edgePayload?, edgePayload?, edges]

end

/-! ## What a copy is -/

/-- The second graph has a vertex for each number of the first, in the slot of that number, the
edges of the pairs, as far as there were handles, and the payloads that the flags ask for. -/
structure Copies (flags : CopyFlags) (g d : Graph N E)
    (pairs : List (Fin g.snapshot.size × Fin g.snapshot.size)) : Prop where
  valid : d.Valid
  room : g.snapshot.size ≤ Handle.nullIndex
  nodup : pairs.Nodup
  direction : d.direction = g.direction
  outline : d.outline = plan g.direction g.snapshot.size pairs
  vertexPayload? : flags.vertexPayloads = true → ∀ i : Fin g.snapshot.size,
    d.vertexPayload? (spot i) = g.vertexPayload? (g.snapshot.label i)
  edgePayload? : flags.edgePayloads = true → ∀ e link i j, g.edges.get? e = some link →
    link.ends = (g.snapshot.label i, g.snapshot.label j) → ∀ copied,
      d.edge? (spot i) (spot j) = some copied → d.edgePayload? copied = some link.payload

/-- What is joined in a copy before any payload is set. -/
theorem joined_skeleton [Inhabited N] [Inhabited E] (direction : Direction) {n : Nat}
    (room : n ≤ Handle.nullIndex) (pairs : List (Fin n × Fin n)) :
    let copy := (skeleton direction n : Copy N E n).addEdges pairs
    copy.Faithful ∧ (∀ i, copy.vertices.get i = spot i) ∧ copy.graph.direction = direction ∧
      copy.graph.outline = plan direction n pairs := by
  intro copy
  obtain ⟨faithful, same_direction, -⟩ := skeleton_spec (N := N) (E := E) direction room
  obtain ⟨-, places, -⟩ := skeleton_layout (N := N) (E := E) direction room
  have joins := faithful.joins pairs
  refine ⟨faithful.addEdges pairs, places, joins.direction.trans same_direction, ?_⟩
  rw [plan, skeleton_outline (N := N) (E := E), addEdges_outline]

theorem copies_copyPayloads [Inhabited N] [Inhabited E] (valid : g.Valid) (flags : CopyFlags)
    {pairs : List (Fin g.snapshot.size × Fin g.snapshot.size)} (nodup : pairs.Nodup) :
    Copies flags g
      (g.copyPayloads g.snapshot flags ((skeleton g.direction _).addEdges pairs)).graph pairs := by
  have room : g.snapshot.size ≤ Handle.nullIndex := by
    rw [size_snapshot valid]
    exact valid.vertexCount_le
  obtain ⟨faithful, places, direction, planned⟩ :=
    joined_skeleton (N := N) (E := E) g.direction room pairs
  obtain ⟨shape, payloads⟩ := copyPayloads_spec (g := g) faithful flags
  refine ⟨shape.valid, room, nodup, shape.direction.trans direction,
    (outline_copyPayloads g g.snapshot flags _).trans planned, fun asked i => ?_, fun asked => ?_⟩
  · rw [← places i]
    exact payloads asked i
  · intro e link i j found ends copied between
    rw [edge?_copyPayloads, ← places, ← places] at between
    refine ((edgePayload?_copyPayloads valid faithful asked).1 e copied ?_).trans ?_
    · exact counterpart?_eq_some.mpr ⟨i, j, link, found, ends, between⟩
    · rw [edgePayload?, found]
      rfl

namespace Copies

variable {flags : CopyFlags} {pairs : List (Fin g.snapshot.size × Fin g.snapshot.size)}

theorem vertexList (copies : Copies flags g d pairs) :
    d.vertexList = (List.range g.snapshot.size).map spot := by
  rw [← vertexList_outline, copies.outline]
  exact (plan_spec g.direction copies.room copies.nodup).2.2

theorem edgePairs (copies : Copies flags g d pairs) :
    d.edgePairs = (spots pairs).take Handle.nullIndex := by
  rw [← edgePairs_outline, copies.outline]
  exact (plan_spec g.direction copies.room copies.nodup).2.1

theorem size (copies : Copies flags g d pairs) : d.snapshot.size = g.snapshot.size := by
  change d.vertexList.length = _
  rw [copies.vertexList, List.length_map, List.length_range]

/-- In a copy every vertex stands for itself. -/
theorem label (copies : Copies flags g d pairs) (i : Fin d.snapshot.size) :
    d.snapshot.label i = spot i := by
  have listed : d.vertexList[i.val]? = some (spot i) := by
    rw [copies.vertexList, List.getElem?_map, List.getElem?_range (copies.size ▸ i.isLt)]
    rfl
  exact (List.getElem?_eq_some_iff.mp listed).2

theorem joined_iff (copies : Copies flags g d pairs) {s t : Vertex} :
    d.Joined s t ↔ (s, t) ∈ (spots pairs).take Handle.nullIndex := by
  rw [← copies.edgePairs, copies.valid.mem_edgePairs]

/-- A copy of a copy that has its edges in the same order is that copy. -/
theorem eq_self (copies : Copies .all g d pairs)
    {pairs' : List (Fin d.snapshot.size × Fin d.snapshot.size)} (copies' : Copies .all d d' pairs')
    (same : d'.edgePairs = d.edgePairs) : d' = d := by
  have outline : d'.outline = d.outline := by
    rw [copies'.outline, copies.outline, copies.direction]
    refine plan_eq_of_edgePairs g.direction copies.size copies'.room copies'.nodup copies.nodup ?_
    rw [← copies.outline, edgePairs_outline, ← same, ← edgePairs_outline d', copies'.outline,
      copies.direction]
  have links : ∀ e, (d'.edges.get? e).map Link.outline = (d.edges.get? e).map Link.outline := by
    intro e
    have same := congrArg (fun g => g.edges.get? e) outline
    simpa only [Graph.outline, Arena.get?_map] using same
  refine eq_of_outline_eq outline (fun v => ?_) fun e => ?_
  · cases live : d.containsVertex v with
    | false =>
        have dead : d'.containsVertex v = false := by
          rw [← containsVertex_outline, outline, containsVertex_outline, live]
        rw [Graph.vertexPayload?, Graph.vertexPayload?, Arena.contains_eq_false.mp live,
          Arena.contains_eq_false.mp dead]
    | true =>
        obtain ⟨i, rfl⟩ := exists_label live
        rw [← copies'.vertexPayload? rfl i, copies.label]
  · have link := links e
    cases found : d.edges.get? e with
    | none =>
        rw [found, Option.map_none, Option.map_eq_none_iff] at link
        rw [Graph.edgePayload?, Graph.edgePayload?, found, link]
    | some entry =>
        obtain ⟨source, target⟩ := copies.valid.ends_live e entry found
        obtain ⟨i, hi⟩ := exists_label source
        obtain ⟨j, hj⟩ := exists_label target
        have between : d'.edge? (spot i) (spot j) = some e := by
          rw [← copies.label, ← copies.label, hi, hj, ← copies.valid.edge?_ends found]
          exact congrArg (fun g : Graph Unit Unit => g.edge? _ _) outline
        have ends : entry.ends = (d.snapshot.label i, d.snapshot.label j) :=
          Prod.ext hi.symm hj.symm
        rw [copies'.edgePayload? rfl e entry i j found ends e between, Graph.edgePayload?, found]
        rfl

end Copies

end Graph

end Provenance
