import Mathlib
import Provenance.Proofs.Graph.Around
import Provenance.Proofs.Graph.Reduced
import Provenance.Proofs.History.Unnoticed

/-! # What reduction takes out

The derivations that a longer chain implies are taken out one after the other. Their records are
parted from those that stay, and nothing else about the history changes.
-/

open Relation (TransGen)

namespace Provenance

/-! ## Edges that are dropped -/

namespace Graph

variable {N E : Type} {g : Graph N E} {es : List Edge}

theorem edgeList_dropEdges (g : Graph N E) (es : List Edge) :
    (es.foldl dropEdge g).edgeList = g.edgeList.filter (· ∉ es) := by
  unfold edgeList
  refine Handle.eq_of_mem_iff (Arena.handles_sorted _) (g.edges.handles_sorted.filter _) ?_
  intro e
  rw [List.mem_filter, Arena.mem_handles, Arena.mem_handles, decide_eq_true_iff,
    Arena.contains_iff, Arena.contains_iff, get?_edges_dropEdges]
  by_cases listed : e ∈ es <;> simp [listed]

theorem perm_append_filter_edgeList (ordered : es.Sublist g.edgeList) :
    List.Perm (es ++ g.edgeList.filter (· ∉ es)) g.edgeList := by
  have nodup : g.edgeList.Nodup := g.edges.handles_nodup
  have apart : es.Disjoint (g.edgeList.filter (· ∉ es)) := fun e listed other =>
    of_decide_eq_true (List.mem_filter.mp other).2 listed
  refine (List.perm_ext_iff_of_nodup
    ((nodup.sublist ordered).append (nodup.filter _) apart) nodup).mpr fun e => ?_
  rw [List.mem_append, List.mem_filter, decide_eq_true_iff]
  by_cases listed : e ∈ es
  · exact iff_of_true (.inl listed) (ordered.subset listed)
  · simp [listed]

theorem payloadBetween_of_dropped [Inhabited E] (valid : g.Valid) {s t : Vertex}
    (dropped : ∀ e, g.edge? s t = some e → e ∈ es) :
    (es.foldl dropEdge g).payloadBetween s t = default := by
  rw [payloadBetween, edge?_dropEdges valid]
  cases found : g.edge? s t with
  | none => rfl
  | some e => simp [Option.filter_some, dropped e found]

theorem payloadBetween_of_kept [Inhabited E] (valid : g.Valid) {s t : Vertex}
    (kept : ∀ e, g.edge? s t = some e → e ∉ es) :
    (es.foldl dropEdge g).payloadBetween s t = g.payloadBetween s t := by
  rw [payloadBetween, edge?_dropEdges valid, payloadBetween]
  cases found : g.edge? s t with
  | none => rfl
  | some e =>
      simp [Option.filter_some, kept e found, edgePayload?, get?_edges_dropEdges]

end Graph

namespace History

variable {h h' : History} {p c : Vertex} {e : Edge} {gone : List Edge} {removed : List Relation}

/-! ## Stored derivations -/

theorem orient_back {s t : Vertex} (ends : h.orient s t = (p, c)) : h.orient p c = (s, t) := by
  have back := h.orient_orient s t
  rwa [ends] at back

/-- The edge at which the derivation of a child from a parent is stored. -/
def StoredAt (h : History) (p c : Vertex) (e : Edge) : Prop :=
  h.graph.edge? (h.orient p c).1 (h.orient p c).2 = some e

theorem Valid.storedAt_iff (valid : h.Valid) :
    h.StoredAt p c e ↔
      ∃ link, h.graph.edges.get? e = some link ∧ h.orient link.source link.target = (p, c) := by
  rw [StoredAt, valid.graph.edge?_eq_some]
  constructor
  · rintro ⟨payload, found⟩
    exact ⟨_, found, h.orient_orient p c⟩
  · rintro ⟨link, found, ends⟩
    rw [orient_back ends]
    exact ⟨link.payload, found⟩

/-- There is a detour for an edge if there is one for the derivation stored at it. -/
theorem Valid.roundabout_iff (valid : h.Valid) :
    h.graph.Roundabout e ↔ ∃ p c, h.StoredAt p c e ∧ Detour h.Parent p c := by
  simp only [valid.storedAt_iff, detour_parent]
  constructor
  · rintro ⟨link, found, detour⟩
    refine ⟨(h.orient link.source link.target).1, (h.orient link.source link.target).2,
      ⟨link, found, rfl⟩, ?_⟩
    rwa [orient_orient]
  · rintro ⟨p, c, ⟨link, found, ends⟩, detour⟩
    rw [orient_back ends] at detour
    exact ⟨link, found, detour⟩

/-- The records of a derivation pair each file of the child with those of the parent. -/
theorem Valid.relationsOf_eq (valid : h.Valid) (stored : h.StoredAt p c e) :
    h.relationsOf e = (h.filesAt c).flatMap fun b => (h.filesAt p).map fun a => ⟨b, a⟩ := by
  obtain ⟨link, found, ends⟩ := valid.storedAt_iff.mp stored
  simp only [relationsOf, found, ends, filesAt]
  cases h.graph.vertexPayload? p with
  | none => cases h.graph.vertexPayload? c <;> simp
  | some parent => cases h.graph.vertexPayload? c <;> rfl

/-- A record is one of a single derivation. -/
theorem Valid.eq_of_mem_relationsOf (valid : h.Valid) {e' : Edge} {r : Relation}
    (listed : r ∈ h.relationsOf e) (listed' : r ∈ h.relationsOf e') : e = e' := by
  have held : ∀ e, r ∈ h.relationsOf e →
      ∃ link, h.graph.edges.get? e = some link ∧
        h.Holds (h.orient link.source link.target).1 r.object ∧
        h.Holds (h.orient link.source link.target).2 r.subject := by
    intro e listed
    cases found : h.graph.edges.get? e with
    | none => simp [relationsOf, found] at listed
    | some link => exact ⟨link, rfl, (mem_relationsOf found).mp listed⟩
  obtain ⟨link, found, object, subject⟩ := held e listed
  obtain ⟨link', found', object', subject'⟩ := held e' listed'
  have same : h.orient link.source link.target = h.orient link'.source link'.target :=
    Prod.ext (valid.holder_unique _ _ _ object object') (valid.holder_unique _ _ _ subject subject')
  obtain ⟨source, target⟩ := orient_inj same
  exact valid.graph.eq_of_ends_eq found found' (Prod.ext source target)

/-- The actions between two images are those of the derivation between their versions. -/
theorem Valid.actions_eq (valid : h.Valid) {a b : ImageId} (holds_a : h.Holds p a)
    (holds_b : h.Holds c b) :
    h.actions a b =
      .ok (h.graph.payloadBetween (h.orient p c).1 (h.orient p c).2).actions := by
  unfold actions require
  rw [valid.vertexFor?_eq_some.mpr holds_a, valid.vertexFor?_eq_some.mpr holds_b]
  rfl

/-! ## What is left -/

/-- The second history is the first one without the derivations for which there is a detour. -/
structure Dropped (h h' : History) (gone : List Edge) : Prop where
  thins : Thins h h'
  ordered : gone.Sublist h.graph.edgeList
  mem_gone : ∀ e, e ∈ gone ↔ ∃ p c, h.StoredAt p c e ∧ Detour h.Parent p c
  eq : h' = { h with graph := gone.foldl .dropEdge h.graph }

theorem Valid.exists_dropped (valid : h.Valid) (reduced : h.reduceEdges = .ok (removed, h')) :
    ∃ gone, removed = gone.flatMap h.relationsOf ∧ Dropped h h' gone := by
  have thins := thins_reduceEdges valid reduced
  rw [valid.reduceEdges_eq] at reduced
  cases result : h.graph.transitiveReductionWithRemoved .nothing with
  | error cause => simp [result] at reduced
  | ok pair =>
      simp only [result, Except.ok.injEq, Prod.mk.injEq] at reduced
      refine ⟨pair.2, reduced.1.symm, thins, ?_, fun e => ?_, reduced.2.symm⟩
      · exact Graph.sublist_removed result
      · rw [Graph.mem_removed_iff_roundabout valid.graph result, valid.roundabout_iff]

namespace Dropped

theorem nodup (dropped : Dropped h h' gone) : gone.Nodup :=
  h.graph.edges.handles_nodup.sublist dropped.ordered

theorem graph (dropped : Dropped h h' gone) : h'.graph = gone.foldl .dropEdge h.graph := by
  rw [dropped.eq]

theorem orient (dropped : Dropped h h' gone) : h'.orient = h.orient := by
  rw [dropped.eq]
  rfl

theorem edgeList (dropped : Dropped h h' gone) :
    h'.graph.edgeList = h.graph.edgeList.filter (· ∉ gone) := by
  rw [dropped.graph, Graph.edgeList_dropEdges]

theorem mem_gone_iff (dropped : Dropped h h' gone) (stored : h.StoredAt p c e) :
    e ∈ gone ↔ Detour h.Parent p c := by
  rw [dropped.mem_gone]
  constructor
  · rintro ⟨p', c', stored', detour⟩
    obtain ⟨link, found, ends⟩ := dropped.thins.valid.storedAt_iff.mp stored
    obtain ⟨link', found', ends'⟩ := dropped.thins.valid.storedAt_iff.mp stored'
    obtain rfl := Option.some.inj (found.symm.trans found')
    obtain ⟨rfl, rfl⟩ := Prod.mk.inj (ends'.symm.trans ends)
    exact detour
  · exact fun detour => ⟨p, c, stored, detour⟩

theorem relations (dropped : Dropped h h' gone) :
    h'.relations = (h.graph.edgeList.filter (· ∉ gone)).flatMap h.relationsOf := by
  rw [History.relations, dropped.edgeList]
  refine List.flatMap_congr fun e listed => ?_
  have kept : e ∉ gone := of_decide_eq_true (List.mem_filter.mp listed).2
  rw [dropped.eq, dropped.thins.valid.relationsOf_dropEdges kept]

/-- What is taken out and what is left are all records. -/
theorem perm_relations (dropped : Dropped h h' gone) :
    List.Perm (gone.flatMap h.relationsOf ++ h'.relations) h.relations := by
  rw [dropped.relations, ← List.flatMap_append]
  exact (Graph.perm_append_filter_edgeList dropped.ordered).flatMap_right _

theorem disjoint (dropped : Dropped h h' gone) :
    (gone.flatMap h.relationsOf).Disjoint h'.relations := by
  rw [dropped.relations]
  intro r taken left
  obtain ⟨e, listed, record⟩ := List.mem_flatMap.mp taken
  obtain ⟨e', listed', record'⟩ := List.mem_flatMap.mp left
  obtain rfl := dropped.thins.valid.eq_of_mem_relationsOf record record'
  exact of_decide_eq_true (List.mem_filter.mp listed').2 listed

theorem actions_gone (dropped : Dropped h h' gone) {a b : ImageId} (detour : Detour h.Recorded a b) :
    h'.actions a b = .ok [] := by
  have valid := dropped.thins.valid
  obtain ⟨p, c, detour, holds_a, holds_b⟩ := valid.detour_recorded.mp detour
  rw [dropped.thins.valid'.actions_eq (dropped.thins.holds.mpr holds_a)
      (dropped.thins.holds.mpr holds_b), dropped.orient, dropped.graph,
    Graph.payloadBetween_of_dropped valid.graph fun e stored =>
      (dropped.mem_gone_iff stored).mpr detour]
  rfl

theorem actions_kept (dropped : Dropped h h' gone) {a b : ImageId}
    (direct : ¬ Detour h.Recorded a b) : h'.actions a b = h.actions a b := by
  have valid := dropped.thins.valid
  have same := dropped.thins.vertexFor?
  cases found : h.vertexFor? a with
  | none => simp [actions, require, same, found, bind, Except.bind]
  | some p =>
      cases found' : h.vertexFor? b with
      | none => simp [actions, require, same, found, found', bind, Except.bind]
      | some c =>
          have holds_a := holds_of_vertexFor? found
          have holds_b := holds_of_vertexFor? found'
          have direct : ¬ Detour h.Parent p c := fun detour =>
            direct (valid.detour_recorded.mpr ⟨p, c, detour, holds_a, holds_b⟩)
          rw [dropped.thins.valid'.actions_eq (dropped.thins.holds.mpr holds_a)
              (dropped.thins.holds.mpr holds_b), valid.actions_eq holds_a holds_b, dropped.orient,
            dropped.graph, Graph.payloadBetween_of_kept valid.graph fun e stored =>
              (dropped.mem_gone_iff stored).not.mpr direct]

end Dropped

/-- Once it is reduced there is nothing more to take out of a history. -/
theorem Valid.reduceEdges_again (valid : h.Valid) (reduced : h.reduceEdges = .ok (removed, h')) :
    h'.reduceEdges = .ok ([], h') := by
  have thins := thins_reduceEdges valid reduced
  have acyclic := valid.reduceEdges_ok_iff.mp ⟨_, reduced⟩
  obtain ⟨⟨removed', h''⟩, reduced'⟩ := thins.valid'.reduceEdges_ok_iff.mpr fun a cycle =>
    acyclic a (thins.recorded_chains.mp cycle)
  obtain ⟨gone, rfl, dropped⟩ := thins.valid'.exists_dropped reduced'
  -- a detour left over would have been one before, and its derivation would be gone
  have nothing : gone = [] := by
    refine List.eq_nil_iff_forall_not_mem.mpr fun e listed => ?_
    obtain ⟨p, c, stored, detour⟩ := (dropped.mem_gone e).mp listed
    have parent : h'.Parent p c := Option.isSome_of_eq_some stored
    refine ((valid.parent_reduceEdges reduced).mp parent).2 ?_
    exact (Detour.congr fun _ _ => thins.next_chains .leaves).mp detour
  rw [reduced', dropped.eq, nothing]
  rfl

/-- A record is taken out if there is a detour for it. -/
theorem Valid.mem_removed_iff (valid : h.Valid) (reduced : h.reduceEdges = .ok (removed, h'))
    {r : Relation} :
    r ∈ removed ↔ r ∈ h.relations ∧ Detour h.Recorded r.object r.subject := by
  obtain ⟨gone, rfl, dropped⟩ := valid.exists_dropped reduced
  have either : r ∈ h.relations ↔ r ∈ gone.flatMap h.relationsOf ∨ r ∈ h'.relations := by
    rw [← dropped.perm_relations.mem_iff, List.mem_append]
  have stays : r ∈ h'.relations ↔ r ∈ h.relations ∧ ¬ Detour h.Recorded r.object r.subject :=
    valid.recorded_reduceEdges reduced
  constructor
  · intro taken
    have listed := either.mpr (.inl taken)
    refine ⟨listed, by_contra fun direct => ?_⟩
    exact dropped.disjoint taken (stays.mpr ⟨listed, direct⟩)
  · rintro ⟨listed, detour⟩
    exact (either.mp listed).resolve_right fun left => (stays.mp left).2 detour

/-! ## What a reduction does -/

/-- A reduction takes out the derivations in `gone`, which are those that a chain of two or more
others replaces, and gives their records. It leaves everything else as it was. -/
structure TakesOut (h h' : History) (gone : List Edge) (removed : List Relation) : Prop where
  ordered : gone.Sublist h.graph.edgeList
  mem_gone : ∀ e, e ∈ gone ↔ ∃ p c, h.StoredAt p c e ∧ Detour h.Parent p c
  stepwise : gone.foldl takeOut ([], h) = (removed, h')
  records : removed = gone.flatMap h.relationsOf
  expanded : ∀ p c e, h.StoredAt p c e →
    h.relationsOf e = (h.filesAt c).flatMap fun b => (h.filesAt p).map fun a => ⟨b, a⟩
  mem_removed : ∀ r, r ∈ removed ↔ r ∈ h.relations ∧ Detour h.Recorded r.object r.subject
  disjoint : removed.Disjoint h'.relations
  together : List.Perm (removed ++ h'.relations) h.relations
  config : h'.config = h.config
  vertexList : h'.graph.vertexList = h.graph.vertexList
  vertexPayload? : ∀ v, h'.graph.vertexPayload? v = h.graph.vertexPayload? v
  vertexFor? : ∀ id, h'.vertexFor? id = h.vertexFor? id
  edgeList : h'.graph.edgeList = h.graph.edgeList.filter (· ∉ gone)
  edges : ∀ e, h'.graph.edges.get? e = if e ∈ gone then none else h.graph.edges.get? e
  outbound : ∀ v, h'.graph.outbound v = (h.graph.outbound v).filter (· ∉ gone)
  inbound : ∀ v, h'.graph.inbound v = (h.graph.inbound v).filter (· ∉ gone)
  actions_gone : ∀ a b, Detour h.Recorded a b → h'.actions a b = .ok []
  actions_kept : ∀ a b, ¬ Detour h.Recorded a b → h'.actions a b = h.actions a b
  again : h'.reduceEdges = .ok ([], h')

theorem Valid.takesOut (valid : h.Valid) (reduced : h.reduceEdges = .ok (removed, h')) :
    ∃ gone, TakesOut h h' gone removed := by
  obtain ⟨gone, records, dropped⟩ := valid.exists_dropped reduced
  exact ⟨gone, {
    ordered := dropped.ordered
    mem_gone := dropped.mem_gone
    stepwise := by rw [valid.foldl_takeOut dropped.nodup, List.nil_append, records, dropped.eq]
    records := records
    expanded := fun p c e => valid.relationsOf_eq
    mem_removed := fun r => valid.mem_removed_iff reduced
    disjoint := records ▸ dropped.disjoint
    together := records ▸ dropped.perm_relations
    config := dropped.thins.config
    vertexList := dropped.thins.graph.vertexList
    vertexPayload? := dropped.thins.graph.vertexPayload?
    vertexFor? := dropped.thins.vertexFor?
    edgeList := dropped.edgeList
    edges := fun e => by rw [dropped.graph, Graph.get?_edges_dropEdges]
    outbound := fun v => by rw [dropped.graph, Graph.outbound_dropEdges valid.graph]
    inbound := fun v => by rw [dropped.graph, Graph.inbound_dropEdges valid.graph]
    actions_gone := fun a b => dropped.actions_gone
    actions_kept := fun a b => dropped.actions_kept
    again := valid.reduceEdges_again reduced }⟩

/-- However a history is opened and changed, a cycle among its derivations keeps it from being
reduced and leaves it as it is. Without one, what is implied is taken out and nothing else. -/
theorem taken_out_of_run {start : Start} {h₀ : History} (opened : start.initial = .ok h₀)
    (cs : List Change) :
    let h := h₀.after cs
    ((∃ v, TransGen h.Parent v v) →
      h.reduceEdges = .error (.graph (.notAcyclic .transitiveReduction)) ∧
        h.after [.reduceEdges] = h) ∧
    ((∀ v, ¬ TransGen h.Parent v v) →
      ∃ gone removed h', h.reduceEdges = .ok (removed, h') ∧ h.after [.reduceEdges] = h' ∧
        TakesOut h h' gone removed) := by
  intro h
  obtain ⟨config, opening⟩ := Start.grows opened
  have valid : h.Valid := (grows_after opening.valid cs).valid
  constructor
  · rintro ⟨v, cycle⟩
    have failed := valid.reduceEdges_of_cycle fun acyclic =>
      valid.acyclic_parents_iff.mpr acyclic v cycle
    exact ⟨failed, by simp [after, Change.apply, failed, Except.map]⟩
  · intro acyclic
    obtain ⟨⟨removed, h'⟩, reduced⟩ :=
      valid.reduceEdges_ok_iff.mpr (valid.acyclic_parents_iff.mp acyclic)
    obtain ⟨gone, takes_out⟩ := valid.takesOut reduced
    refine ⟨gone, removed, h', reduced, ?_, takes_out⟩
    simp [after, Change.apply, reduced, Except.map]

/-- The third image has two files, and is derived from the first one directly and by way of the
second. Where an image is derived from itself nothing is reduced. -/
theorem taken_out_of_run_shortcut :
    let cs : List Change := [.addDerivation ⟨1⟩ ⟨3⟩ [], .addRelations [⟨⟨2⟩, ⟨1⟩⟩, ⟨⟨3⟩, ⟨2⟩⟩],
      .addDuplicate ⟨3⟩ ⟨4⟩]
    let h := (empty {}).after cs
    let looped := (empty {}).after [.addDerivation ⟨1⟩ ⟨1⟩ []]
    (∃ gone h', h.reduceEdges = .ok ([⟨⟨3⟩, ⟨1⟩⟩, ⟨⟨4⟩, ⟨1⟩⟩], h') ∧
      TakesOut h h' gone [⟨⟨3⟩, ⟨1⟩⟩, ⟨⟨4⟩, ⟨1⟩⟩]) ∧
      looped.after [.reduceEdges] = looped := by
  intro cs h looped
  have opened : (Start.blank {}).initial = .ok (empty {}) := rfl
  constructor
  · have valid : h.Valid := (grows_after (valid_empty {}) _).valid
    have acyclic : ∀ v, ¬ TransGen h.Parent v v := by
      refine valid.acyclic_parents_iff.mpr (valid.cycles_eq_nil_iff.mp ?_)
      dsimp only [h, cs]
      cbv
    have listed : h.reduceEdges.map Prod.fst = .ok [⟨⟨3⟩, ⟨1⟩⟩, ⟨⟨4⟩, ⟨1⟩⟩] := by
      dsimp only [h, cs]
      cbv
    obtain ⟨gone, removed, h', reduced, -, takes_out⟩ := (taken_out_of_run opened cs).2 acyclic
    have same : h.reduceEdges = .ok (removed, h') := reduced
    rw [same] at listed
    obtain rfl : removed = [⟨⟨3⟩, ⟨1⟩⟩, ⟨⟨4⟩, ⟨1⟩⟩] := Except.ok.inj listed
    exact ⟨gone, h', reduced, takes_out⟩
  · have loop : looped.Parent ⟨0, 0⟩ ⟨0, 0⟩ := by
      dsimp only [looped]
      unfold Parent Graph.Joined
      cbv
    exact ((taken_out_of_run opened _).1 ⟨⟨0, 0⟩, .single loop⟩).2

end History

end Provenance
