import Provenance.Proofs.Graph.Placed

/-! # Reduced graphs

A reduction is told by the graph alone: which edges are taken out, what is left of the others, and
that none of those could be spared. What the flags do not ask for is left at its default.
-/

open Relation (TransGen)

namespace Provenance.Graph

variable {N E : Type} {flags : CopyFlags} {g r : Graph N E} {v w : Vertex}

theorem Valid.detour_place (valid : g.Valid) (live : g.containsVertex v = true)
    (live' : g.containsVertex w = true) :
    Detour g.Copied (g.place v) (g.place w) ↔ Detour g.Joined v w := by
  constructor
  · rintro ⟨x, first, rest⟩
    obtain ⟨-, i, -, -, rfl⟩ := transGen_copied.mp first
    rw [← place_label] at first rest
    exact ⟨_, (valid.transGen_place live (g.label_live i)).mp first,
      (valid.transGen_place (g.label_live i) live').mp rest⟩
  · rintro ⟨x, first, rest⟩
    have between := (valid.live_of_chain rest).1
    exact ⟨g.place x, (valid.transGen_place live between).mpr first,
      (valid.transGen_place between live').mpr rest⟩

/-! ## What a reduction is -/

/-- The second graph is the first one without the edges in `removed`, which are those that a path of
two or more edges replaces. It has the same paths, but would not without one more edge. -/
structure Reduces [Inhabited N] [Inhabited E] (flags : CopyFlags) (g r : Graph N E)
    (removed : List Edge) : Prop where
  ordered : removed.Sublist g.edgeList
  mem_removed : ∀ e, e ∈ removed ↔
    ∃ link, g.edges.get? e = some link ∧ Detour g.Joined link.source link.target
  direction : r.direction = g.direction
  vertexList : r.vertexList = g.vertexList.map g.place
  edgePairs : r.edgePairs = (g.edges.entries.filter (·.1 ∉ removed)).map
    fun entry => (g.place entry.2.source, g.place entry.2.target)
  chains : ∀ v w, g.containsVertex v = true → g.containsVertex w = true →
    (TransGen r.Joined (g.place v) (g.place w) ↔ TransGen g.Joined v w)
  minimal : ∀ e ∈ r.edgeList, ∃ s t,
    TransGen r.Joined s t ∧ ¬ TransGen (r.removeEdge e).2.Joined s t
  vertexPayload? : ∀ v, g.containsVertex v = true → r.vertexPayload? (g.place v) =
    if flags.vertexPayloads then g.vertexPayload? v else some default
  edgePayload? : ∀ e link, g.edges.get? e = some link → e ∉ removed →
    ∃ e', r.edge? (g.place link.source) (g.place link.target) = some e' ∧
      r.edgePayload? e' = some (if flags.edgePayloads then link.payload else default)

theorem Valid.joined_removeEdge (valid : r.Valid) {e : Edge} :
    (r.removeEdge e).2.Joined v w ↔ r.Joined v w ∧ r.edge? v w ≠ some e := by
  rw [removeEdge, Joined, hasEdge, edge?_dropEdge valid, Joined, hasEdge]
  cases r.edge? v w <;> simp

/-- Once an edge without a detour is taken out its ends are not connected any more. -/
theorem Valid.not_transGen_removeEdge (valid : r.Valid) {e : Edge} (between : r.edge? v w = some e)
    (direct : ¬ Detour r.Joined v w) : ¬ TransGen (r.removeEdge e).2.Joined v w := by
  intro chain
  cases chain with
  | single step => exact (valid.joined_removeEdge.mp step).2 between
  | tail before last =>
      have before := before.lift id fun _ _ step => (valid.joined_removeEdge.mp step).1
      exact direct ⟨_, before, .single (valid.joined_removeEdge.mp last).1⟩

section Reductions

variable [Inhabited N] [Inhabited E] {removed : List Edge}

theorem transitiveReduction_of_removed
    (reduced : g.transitiveReductionWithRemoved flags = .ok (r, removed)) :
    g.transitiveReduction flags = .ok r := by
  rw [transitiveReduction, reduced]
  rfl

theorem mem_removed_iff_roundabout (valid : g.Valid)
    (reduced : g.transitiveReductionWithRemoved flags = .ok (r, removed)) {e : Edge} :
    e ∈ removed ↔ g.Roundabout e := by
  classical
  rw [removed_eq valid reduced, List.mem_filter, decide_eq_true_iff, edgeList, Arena.mem_handles]
  refine and_iff_right_of_imp fun around => ?_
  obtain ⟨link, found, -⟩ := around
  exact containsEdge_iff.mpr ⟨link, found⟩

theorem exists_built_of_reduction (valid : g.Valid)
    (reduced : g.transitiveReductionWithRemoved flags = .ok (r, removed)) :
    ∃ pairs, Built flags g r pairs := by
  obtain ⟨reach, reduction, -, rfl, rfl, -⟩ := exists_reach_of_reduction reduced
  exact ⟨g.keptPairs reach, nodup_keptPairs valid reach, rfl⟩

/-- The edges that are not removed are there again, in their order. -/
theorem edgePairs_of_reduction (valid : g.Valid)
    (reduced : g.transitiveReductionWithRemoved flags = .ok (r, removed)) :
    r.edgePairs = (g.edges.entries.filter (·.1 ∉ removed)).map
      fun entry => (g.place entry.2.source, g.place entry.2.target) := by
  classical
  obtain ⟨-, -, listed, -⟩ := reduction_spec valid (transitiveReduction_of_removed reduced)
  rw [listed, copiedPairs_place valid, List.filter_map, edgePairs, List.filter_map, List.map_map]
  refine congrArg (List.map _) (List.filter_congr ?_)
  rintro ⟨e, link⟩ entry
  have found := Arena.mem_entries.mp entry
  obtain ⟨source, target⟩ := valid.ends_live e link found
  have detour := valid.detour_place source target
  simp only [Function.comp_apply, Prod.map_apply, Link.ends, detour]
  rw [decide_eq_decide, mem_removed_iff_roundabout valid reduced]
  refine not_congr ⟨fun detour => ⟨link, found, detour⟩, fun around => ?_⟩
  obtain ⟨link', found', detour⟩ := around
  rwa [Option.some.inj (found.symm.trans found')]

/-- An edge that is not removed has a copy, with the payload that was asked for. -/
theorem exists_copied_edge (valid : g.Valid)
    (reduced : g.transitiveReductionWithRemoved flags = .ok (r, removed)) {e : Edge} {link : Link E}
    (found : g.edges.get? e = some link) (kept : e ∉ removed) :
    ∃ e', r.edge? (g.place link.source) (g.place link.target) = some e' ∧
      r.edgePayload? e' = some (if flags.edgePayloads then link.payload else default) := by
  obtain ⟨pairs, copies, -⟩ := reduction_spec valid (transitiveReduction_of_removed reduced)
  have joined : r.Joined (g.place link.source) (g.place link.target) := by
    rw [← copies.valid.mem_edgePairs, edgePairs_of_reduction valid reduced]
    refine List.mem_map.mpr ⟨(e, link), List.mem_filter.mpr ⟨Arena.mem_entries.mpr found, ?_⟩, rfl⟩
    exact decide_eq_true kept
  obtain ⟨e', between⟩ := Option.isSome_iff_exists.mp joined
  obtain ⟨source, target⟩ := valid.ends_live e link found
  obtain ⟨_, built⟩ := exists_built_of_reduction valid reduced
  have payload : g.payloadBetween link.source link.target = link.payload := by
    rw [payloadBetween, valid.edge?_ends found, Option.bind_some, Graph.edgePayload?, found]
    rfl
  refine ⟨e', between, ?_⟩
  rw [built.edgePayload?_place valid source target between, payload]

/-- No edge of a reduction can be spared. -/
theorem minimal_of_reduction (valid : g.Valid)
    (reduced : g.transitiveReductionWithRemoved flags = .ok (r, removed)) {e : Edge}
    (listed : e ∈ r.edgeList) :
    ∃ s t, TransGen r.Joined s t ∧ ¬ TransGen (r.removeEdge e).2.Joined s t := by
  have reduced := transitiveReduction_of_removed reduced
  obtain ⟨pairs, copies, -, chains⟩ := reduction_spec valid reduced
  obtain ⟨link, found⟩ := containsEdge_iff.mp (Arena.mem_handles.mp listed)
  have between := copies.valid.edge?_ends found
  have joined : r.Joined link.source link.target := Option.isSome_of_eq_some between
  have direct : ¬ Detour r.Joined link.source link.target := by
    rw [Detour.congr chains]
    exact ((joined_of_reduction valid reduced).mp joined).2
  exact ⟨_, _, .single joined, copies.valid.not_transGen_removeEdge between direct⟩

theorem reduces_of_reduction (valid : g.Valid)
    (reduced : g.transitiveReductionWithRemoved flags = .ok (r, removed)) :
    Reduces flags g r removed := by
  obtain ⟨pairs, copies, -, chains⟩ :=
    reduction_spec valid (transitiveReduction_of_removed reduced)
  obtain ⟨_, built⟩ := exists_built_of_reduction valid reduced
  refine ⟨?_, fun e => mem_removed_iff_roundabout valid reduced, copies.direction,
    copies.vertexList_place, edgePairs_of_reduction valid reduced, fun v w live live' => ?_,
    fun e => minimal_of_reduction valid reduced,
    fun v => built.vertexPayload?_place valid,
    fun e link => exists_copied_edge valid reduced⟩
  · rw [removed_eq valid reduced]
    exact List.filter_sublist
  · rw [chains, valid.transGen_place live live']

/-- Whatever the graph and the flags, a cycle is the only thing that a reduction fails on. -/
theorem reductions_of_run (direction : Direction) (ms : List (Mutation N E)) (flags : CopyFlags) :
    let g := (empty direction : Graph N E).after ms
    let result := g.transitiveReductionWithRemoved flags
    (result = .error (.notAcyclic .transitiveReduction) ↔ ∃ v, TransGen g.Joined v v) ∧
      ((∀ v, ¬ TransGen g.Joined v v) →
        ∃ r removed, result = .ok (r, removed) ∧ Reduces flags g r removed) := by
  intro g result
  have valid : g.Valid := valid_after (valid_empty direction) ms
  have ok_iff := transitiveReduction_ok_iff valid flags
  refine ⟨⟨fun failed => ?_, fun cyclic => ?_⟩, fun acyclic => ?_⟩
  · by_contra acyclic
    obtain ⟨_, reduced⟩ := ok_iff.mpr (not_exists.mp acyclic)
    exact nomatch failed.symm.trans reduced
  · exact reduction_of_cycle valid flags fun acyclic => cyclic.elim acyclic
  · obtain ⟨⟨r, removed⟩, reduced⟩ := ok_iff.mpr acyclic
    exact ⟨r, removed, reduced, reduces_of_reduction valid reduced⟩

end Reductions

end Provenance.Graph
