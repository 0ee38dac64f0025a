import Provenance.Proofs.History.Ancestry

/-! # The cloud

The cloud of a history holds the pairs of images that a chain of records joins. It is there exactly
if no image descends from itself, and reduction does not change it.
-/

open Relation (TransGen)

namespace Provenance.History

/-! ## Closures of a history -/

/-- The records of an edge of a closure. -/
def recordsIn (h : History) (closure : Graph Version Derivation) (ends : Vertex × Vertex) :
    List Relation :=
  match closure.vertexPayload? (h.orient ends.1 ends.2).1,
      closure.vertexPayload? (h.orient ends.1 ends.2).2 with
  | some p, some c => relationsBetween p c
  | _, _ => []

theorem relationCloud_eq (h : History) :
    h.relationCloud =
      match h.graph.transitiveClosure .vertices with
      | .ok closure =>
          .ok (Std.ExtTreeSet.ofList (closure.edgePairs.flatMap (h.recordsIn closure))).toList
      | .error cause => .error (.graph cause) := by
  unfold relationCloud
  cases h.graph.transitiveClosure .vertices <;> rfl

/-- The closure, told in terms of parents and children. -/
theorem Valid.closure_spec {h : History} (valid : h.Valid) {closure : Graph Version Derivation}
    (closed : h.graph.transitiveClosure .vertices = .ok closure) :
    closure.Valid ∧ ∃ place : Fin h.graph.snapshot.size → Vertex,
      (∀ s t, closure.Joined s t → ∃ i j, (s, t) = h.orient (place i) (place j) ∧
        TransGen h.Parent (h.graph.snapshot.label i) (h.graph.snapshot.label j)) ∧
      (closure.edgeCount < Handle.nullIndex ∨ h.graph.ClosureFits → ∀ i j,
        TransGen h.Parent (h.graph.snapshot.label i) (h.graph.snapshot.label j) →
          closure.Joined (h.orient (place i) (place j)).1 (h.orient (place i) (place j)).2) ∧
      ∀ i j r, r ∈ h.recordsIn closure (h.orient (place i) (place j)) ↔
        h.Holds (h.graph.snapshot.label i) r.object ∧
          h.Holds (h.graph.snapshot.label j) r.subject := by
  obtain ⟨place, -, closure_valid, -, only, all, payloads⟩ :=
    Graph.transitiveClosure_spec valid.graph closed
  have payloads := payloads rfl
  refine ⟨closure_valid, place, fun s t joined => ?_, fun room i j chain => ?_, fun i j r => ?_⟩
  · obtain ⟨i, j, rfl, rfl, way⟩ := only s t joined
    cases direction : h.config.direction with
    | parentToChild =>
        refine ⟨i, j, by rw [orient, direction]; rfl, transGen_parent.mpr ?_⟩
        rwa [orient, direction]
    | childToParent =>
        refine ⟨j, i, by rw [orient, direction]; rfl, transGen_parent.mpr ?_⟩
        rwa [orient, direction]
  · have way := transGen_parent.mp chain
    unfold orient at way ⊢
    cases direction : h.config.direction with
    | parentToChild =>
        rw [direction] at way
        exact all room i j way
    | childToParent =>
        rw [direction] at way
        exact all room j i way
  · rw [recordsIn, orient_orient]
    simp only [payloads, holds_iff]
    cases h.graph.vertexPayload? (h.graph.snapshot.label i) <;>
      cases h.graph.vertexPayload? (h.graph.snapshot.label j) <;>
      simp [mem_relationsBetween]

/-! ## The cloud of a history -/

theorem Valid.relationCloud_ok_iff {h : History} (valid : h.Valid) :
    (∃ cloud, h.relationCloud = .ok cloud) ↔ ∀ a, ¬ TransGen h.Recorded a a := by
  rw [← valid.acyclic_iff, ← Graph.transitiveClosure_ok_iff valid.graph .vertices,
    relationCloud_eq]
  cases h.graph.transitiveClosure .vertices <;> simp

theorem Valid.relationCloud_of_cycle {h : History} (valid : h.Valid)
    (cyclic : ¬ ∀ a, ¬ TransGen h.Recorded a a) :
    h.relationCloud = .error (.graph (.notAcyclic .transitiveClosure)) := by
  rw [← valid.acyclic_iff, ← Graph.reach?_snapshot_isSome_iff valid.graph,
    Option.not_isSome_iff_eq_none] at cyclic
  rw [relationCloud_eq, Graph.transitiveClosure_eq, cyclic]

theorem mem_cloud_iff {h : History} {closure : Graph Version Derivation} (valid : closure.Valid)
    {r : Relation} :
    r ∈ (Std.ExtTreeSet.ofList (closure.edgePairs.flatMap (h.recordsIn closure))).toList ↔
      ∃ s t, closure.Joined s t ∧ r ∈ h.recordsIn closure (s, t) := by
  rw [Std.ExtTreeSet.mem_toList, Std.ExtTreeSet.mem_ofList, List.contains_iff_mem, List.mem_flatMap]
  simp only [Prod.exists, valid.mem_edgePairs]

/-- A cloud is in increasing order. Its records are implied by those of the history, and every
implied record is in it unless the handles have run out, which makes it as long as there are
handles. -/
theorem Valid.relationCloud_spec {h : History} (valid : h.Valid) {cloud : List Relation}
    (known : h.relationCloud = .ok cloud) :
    cloud.Pairwise (compare · · = .lt) ∧
      (∀ r ∈ cloud, TransGen h.Recorded r.object r.subject) ∧
      (cloud.length < Handle.nullIndex ∨ h.graph.ClosureFits →
        ∀ r : Relation, TransGen h.Recorded r.object r.subject → r ∈ cloud) := by
  rw [relationCloud_eq] at known
  cases closed : h.graph.transitiveClosure .vertices with
  | error cause => simp [closed] at known
  | ok closure =>
      simp only [closed, Except.ok.injEq] at known
      obtain ⟨closure_valid, place, only, all, records⟩ := valid.closure_spec closed
      have mem_cloud : ∀ r, r ∈ cloud ↔ ∃ s t, closure.Joined s t ∧
          r ∈ h.recordsIn closure (s, t) := fun r => known ▸ mem_cloud_iff closure_valid
      have all_edges : closure.edgeCount ≤ cloud.length := by
        rw [← closure_valid.length_edgePairs]
        refine length_le_of_rel closure_valid.nodup_edgePairs
          (fun ends r => ∃ i j, ends = h.orient (place i) (place j) ∧
            h.Holds (h.graph.snapshot.label i) r.object ∧
            h.Holds (h.graph.snapshot.label j) r.subject) ?_ ?_
        · rintro ⟨s, t⟩ listed
          have joined := closure_valid.mem_edgePairs.mp listed
          obtain ⟨i, j, ends, -⟩ := only s t joined
          obtain ⟨a, holds_a⟩ := valid.exists_holds (h.graph.label_live i)
          obtain ⟨b, holds_b⟩ := valid.exists_holds (h.graph.label_live j)
          refine ⟨⟨b, a⟩, (mem_cloud _).mpr ⟨s, t, joined, ?_⟩, i, j, ends, holds_a, holds_b⟩
          rw [ends]
          exact (records i j ⟨b, a⟩).mpr ⟨holds_a, holds_b⟩
        · rintro _ _ r ⟨i, j, rfl, object, subject⟩ ⟨i', j', rfl, object', subject'⟩
          obtain rfl := Graph.label_inj (valid.holder_unique _ _ _ object object')
          obtain rfl := Graph.label_inj (valid.holder_unique _ _ _ subject subject')
          rfl
      refine ⟨known ▸ Std.ExtTreeSet.ordered_toList, fun r listed => ?_, fun room r chain => ?_⟩
      · obtain ⟨s, t, joined, record⟩ := (mem_cloud r).mp listed
        obtain ⟨i, j, ends, chain⟩ := only s t joined
        rw [ends] at record
        obtain ⟨object, subject⟩ := (records i j r).mp record
        exact valid.transGen_recorded.mpr ⟨_, _, chain, object, subject⟩
      · obtain ⟨p, c, chain, object, subject⟩ := valid.transGen_recorded.mp chain
        obtain ⟨i, rfl⟩ := Graph.exists_label object.live
        obtain ⟨j, rfl⟩ := Graph.exists_label subject.live
        have joined := all (room.imp_left all_edges.trans_lt) i j chain
        exact (mem_cloud r).mpr ⟨_, _, joined, (records i j r).mpr ⟨object, subject⟩⟩

/-! ## The same chains -/

instance irrefl_order : Std.Irrefl fun a b : Relation => compare a b = .lt where
  irrefl a := by simp [Std.ReflOrd.compare_self]

instance antisymm_order : Std.Antisymm fun a b : Relation => compare a b = .lt where
  antisymm a b less less' := by
    rw [Std.OrientedCmp.gt_of_lt less] at less'
    cases less'

/-- The record pairs a file of the one version at a pair of vertices with a file of the other. -/
def Spans (h : History) (ends : Vertex × Vertex) (r : Relation) : Prop :=
  h.Holds (h.orient ends.1 ends.2).1 r.object ∧ h.Holds (h.orient ends.1 ends.2).2 r.subject

theorem Valid.ends_unique {h : History} (valid : h.Valid) {ends ends' : Vertex × Vertex}
    {r : Relation} (spans : h.Spans ends r) (spans' : h.Spans ends' r) : ends = ends' := by
  have same := Prod.ext (valid.holder_unique _ _ _ spans.1 spans'.1)
    (valid.holder_unique _ _ _ spans.2 spans'.2)
  obtain ⟨source, target⟩ := orient_inj same
  exact Prod.ext source target

theorem transGen_joined {h : History} {s t : Vertex} :
    TransGen h.graph.Joined s t ↔ TransGen h.Parent (h.orient s t).1 (h.orient s t).2 := by
  rw [transGen_parent, orient_orient]

theorem Valid.exists_spans {h : History} (valid : h.Valid) {ends : Vertex × Vertex}
    (chain : TransGen h.graph.Joined ends.1 ends.2) :
    ∃ r, h.Spans ends r ∧ TransGen h.Recorded r.object r.subject := by
  have parents := transGen_joined.mp chain
  obtain ⟨live, live'⟩ := valid.live_of_parents parents
  obtain ⟨a, holds_a⟩ := valid.exists_holds live
  obtain ⟨b, holds_b⟩ := valid.exists_holds live'
  exact ⟨⟨b, a⟩, ⟨holds_a, holds_b⟩,
    valid.transGen_recorded.mpr ⟨_, _, parents, holds_a, holds_b⟩⟩

theorem Valid.exists_ends {h : History} (valid : h.Valid) {r : Relation}
    (chain : TransGen h.Recorded r.object r.subject) :
    ∃ ends, h.Spans ends r ∧ TransGen h.graph.Joined ends.1 ends.2 := by
  obtain ⟨p, c, parents, object, subject⟩ := valid.transGen_recorded.mp chain
  refine ⟨h.orient p c, ?_, transGen_parent.mp parents⟩
  rw [Spans, orient_orient]
  exact ⟨object, subject⟩

/-- The chains of a history are no more than the records of its cloud, if that has them all. -/
theorem Valid.closureFits_of_cloud {h : History} (valid : h.Valid) {cloud : List Relation}
    (known : h.relationCloud = .ok cloud) (room : cloud.length < Handle.nullIndex) :
    h.graph.ClosureFits := by
  obtain ⟨-, -, all⟩ := valid.relationCloud_spec known
  intro pairs nodup chains
  refine Nat.le_trans (length_le_of_rel nodup h.Spans (fun ends listed => ?_) ?_)
    (Nat.le_of_lt room)
  · obtain ⟨r, spans, chain⟩ := valid.exists_spans (chains ends listed)
    exact ⟨r, all (.inl room) r chain, spans⟩
  · exact fun ends ends' r => valid.ends_unique

/-- Files that share a version in the first history share one in the second. -/
def Finer (h h' : History) : Prop :=
  ∀ v w a b, h.Holds v a → h.Holds v b → h'.Holds w a → h'.Holds w b

/-- Where the versions have fewer files there are more chains. -/
theorem Finer.closureFits {h h' : History} (finer : h.Finer h') (valid : h.Valid)
    (valid' : h'.Valid) (same : ∀ a b, TransGen h'.Recorded a b ↔ TransGen h.Recorded a b)
    (fits : h.graph.ClosureFits) : h'.graph.ClosureFits := by
  intro pairs nodup chains
  obtain ⟨all, all_nodup, mem_all⟩ := valid.graph.exists_chains
  refine Nat.le_trans (length_le_of_rel nodup (fun ends' ends => ∃ r, h'.Spans ends' r ∧
    h.Spans ends r) (fun ends' listed => ?_) ?_) (fits all all_nodup fun p => (mem_all p).mp)
  · obtain ⟨r, spans', chain⟩ := valid'.exists_spans (chains ends' listed)
    obtain ⟨ends, spans, way⟩ := valid.exists_ends ((same _ _).mp chain)
    exact ⟨ends, (mem_all ends).mpr way, r, spans', spans⟩
  · rintro ends₁ ends₂ ends ⟨r₁, spans₁', spans₁⟩ ⟨r₂, spans₂', spans₂⟩
    have object := finer _ _ _ _ spans₁.1 spans₂.1 spans₁'.1
    have subject := finer _ _ _ _ spans₁.2 spans₂.2 spans₁'.2
    exact valid'.ends_unique ⟨object, subject⟩ spans₂'

/-- Histories whose records imply the same chains have the same cloud, if both have handles for
it. -/
theorem relationCloud_eq_of_fits {h h' : History} (valid : h.Valid) (valid' : h'.Valid)
    (same : ∀ a b, TransGen h'.Recorded a b ↔ TransGen h.Recorded a b)
    (fits : h.graph.ClosureFits) (fits' : h'.graph.ClosureFits) {cloud cloud' : List Relation}
    (known : h.relationCloud = .ok cloud) (known' : h'.relationCloud = .ok cloud') :
    cloud' = cloud := by
  obtain ⟨sorted, only, all⟩ := valid.relationCloud_spec known
  obtain ⟨sorted', only', all'⟩ := valid'.relationCloud_spec known'
  refine List.Subset.antisymm_of_pairwise sorted' sorted (fun r listed => ?_) fun r listed => ?_
  · exact all (.inr fits) r ((same _ _).mp (only' r listed))
  · exact all' (.inr fits') r ((same _ _).mpr (only r listed))

/-- It is enough to know that one of them has handles for a cloud. -/
theorem relationCloud_eq_of_chains {h h' : History} (valid : h.Valid) (valid' : h'.Valid)
    (same : ∀ a b, TransGen h'.Recorded a b ↔ TransGen h.Recorded a b) {cloud : List Relation}
    (known : h.relationCloud = .ok cloud) (room : cloud.length < Handle.nullIndex) :
    h'.relationCloud = .ok cloud := by
  obtain ⟨-, -, all⟩ := valid.relationCloud_spec known
  have acyclic := valid.relationCloud_ok_iff.mp ⟨cloud, known⟩
  obtain ⟨cloud', known'⟩ := valid'.relationCloud_ok_iff.mpr fun a => (same a a).not.mpr (acyclic a)
  obtain ⟨sorted', only', -⟩ := valid'.relationCloud_spec known'
  have shorter : cloud'.length ≤ cloud.length := sorted'.nodup.length_le_of_subset
    fun r listed => all (.inl room) r ((same _ _).mp (only' r listed))
  have fits := valid.closureFits_of_cloud known room
  have fits' := valid'.closureFits_of_cloud known' (Nat.lt_of_le_of_lt shorter room)
  rw [known', relationCloud_eq_of_fits valid valid' same fits fits' known known']

/-! ## Reduction -/

theorem Valid.reduceEdges_ok_iff {h : History} (valid : h.Valid) :
    (∃ result, h.reduceEdges = .ok result) ↔ ∀ a, ¬ TransGen h.Recorded a a := by
  rw [← valid.acyclic_iff, ← Graph.transitiveReduction_ok_iff valid.graph .nothing,
    valid.reduceEdges_eq]
  cases h.graph.transitiveReductionWithRemoved .nothing <;> simp

theorem Valid.holds_reduceEdges {h h' : History} (valid : h.Valid) {removed : List Relation}
    (reduced : h.reduceEdges = .ok (removed, h')) {v : Vertex} {id : ImageId} :
    h'.Holds v id ↔ h.Holds v id := by
  obtain ⟨r, edges, _, rfl⟩ := valid.reduceEdges_eq_ok reduced
  simp only [holds_iff, Graph.vertexPayload?_dropEdges valid.graph]

/-- Reduction leaves all that the records imply as it was. -/
theorem Valid.transGen_reduceEdges {h h' : History} (valid : h.Valid) {removed : List Relation}
    (reduced : h.reduceEdges = .ok (removed, h')) {a b : ImageId} :
    TransGen h'.Recorded a b ↔ TransGen h.Recorded a b := by
  have valid' := (grows_reduceEdges valid reduced).valid
  rw [valid'.transGen_recorded, valid.transGen_recorded]
  simp only [valid.holds_reduceEdges reduced]
  refine exists_congr fun p => exists_congr fun c => and_congr_left' ?_
  obtain ⟨r, edges, result, rfl⟩ := valid.reduceEdges_eq_ok reduced
  rw [transGen_parent, transGen_parent]
  exact Graph.transGen_dropRemoved valid.graph result

/-! ## Placements -/

theorem Valid.mem_parents {h : History} (valid : h.Valid) {p v : Vertex} :
    p ∈ h.graph.adjacentVertices v .onlyToRoots ↔ h.Parent p v := by
  unfold Graph.adjacentVertices Parent orient
  rw [valid.direction]
  cases h.config.direction with
  | parentToChild =>
      simp [AdjacencyFlags.onlyToRoots, AdjacencyFlags.resolve, Direction.orient,
        valid.graph.mem_predecessors]
  | childToParent =>
      simp [AdjacencyFlags.onlyToRoots, AdjacencyFlags.resolve, Direction.orient,
        valid.graph.mem_successors]

theorem Valid.mem_children {h : History} (valid : h.Valid) {v c : Vertex} :
    c ∈ h.graph.adjacentVertices v .onlyToLeaves ↔ h.Parent v c := by
  unfold Graph.adjacentVertices Parent orient
  rw [valid.direction]
  cases h.config.direction with
  | parentToChild =>
      simp [AdjacencyFlags.onlyToLeaves, AdjacencyFlags.resolve, Direction.orient,
        valid.graph.mem_successors]
  | childToParent =>
      simp [AdjacencyFlags.onlyToLeaves, AdjacencyFlags.resolve, Direction.orient,
        valid.graph.mem_predecessors]

theorem Valid.no_parents_iff {h : History} (valid : h.Valid) {v : Vertex} {id : ImageId}
    (holds : h.Holds v id) :
    (h.graph.adjacentVertices v .onlyToRoots).isEmpty = true ↔ ∀ a, ¬ h.Recorded a id := by
  rw [List.isEmpty_iff, List.eq_nil_iff_forall_not_mem]
  simp only [valid.mem_parents, valid.recorded_iff]
  constructor
  · rintro none_in a ⟨p, c, parent, -, holds'⟩
    obtain rfl := valid.holder_unique v c id holds holds'
    exact none_in p parent
  · intro none_in p parent
    obtain ⟨a, holds_a⟩ := valid.exists_holds (valid.live_of_parent parent).1
    exact none_in a ⟨p, v, parent, holds_a, holds⟩

theorem Valid.no_children_iff {h : History} (valid : h.Valid) {v : Vertex} {id : ImageId}
    (holds : h.Holds v id) :
    (h.graph.adjacentVertices v .onlyToLeaves).isEmpty = true ↔ ∀ b, ¬ h.Recorded id b := by
  rw [List.isEmpty_iff, List.eq_nil_iff_forall_not_mem]
  simp only [valid.mem_children, valid.recorded_iff]
  constructor
  · rintro none_out b ⟨p, c, parent, holds', -⟩
    obtain rfl := valid.holder_unique v p id holds holds'
    exact none_out c parent
  · intro none_out c parent
    obtain ⟨b, holds_b⟩ := valid.exists_holds (valid.live_of_parent parent).2
    exact none_out b ⟨v, c, parent, holds, holds_b⟩

theorem categorize_of_found {h : History} {id : ImageId} {v : Vertex}
    (found : h.vertexFor? id = some v) :
    h.categorize id = .ok (match (h.graph.adjacentVertices v .onlyToRoots).isEmpty,
        (h.graph.adjacentVertices v .onlyToLeaves).isEmpty with
      | true, true => .single
      | true, false => .origin
      | false, false => .intermediate
      | false, true => .current) := by
  simp only [categorize, require, found]
  rfl

/-- The placement of an image only depends on the chains that it ends and starts. -/
theorem categorize_eq_of_chains {h h' : History} (valid : h.Valid) (valid' : h'.Valid)
    (same : ∀ a b, TransGen h'.Recorded a b ↔ TransGen h.Recorded a b) {id : ImageId}
    (known : h.contains id = true) (known' : h'.contains id = true) :
    h'.categorize id = h.categorize id := by
  have ends_in : ∀ (r : ImageId → ImageId → Prop), (∀ a, ¬ r a id) ↔ ∀ a, ¬ TransGen r a id :=
    fun r => ⟨fun none_in a chain => by
      obtain ⟨x, -, last⟩ := TransGen.tail'_iff.mp chain
      exact none_in x last, fun none_in a edge => none_in a (.single edge)⟩
  have starts_at : ∀ (r : ImageId → ImageId → Prop), (∀ b, ¬ r id b) ↔ ∀ b, ¬ TransGen r id b :=
    fun r => ⟨fun none_out b chain => by
      obtain ⟨x, first, -⟩ := TransGen.head'_iff.mp chain
      exact none_out x first, fun none_out b edge => none_out b (.single edge)⟩
  obtain ⟨v, holds⟩ := contains_iff.mp known
  obtain ⟨v', holds'⟩ := contains_iff.mp known'
  have parents : (h'.graph.adjacentVertices v' .onlyToRoots).isEmpty =
      (h.graph.adjacentVertices v .onlyToRoots).isEmpty := by
    rw [Bool.eq_iff_iff, valid'.no_parents_iff holds', valid.no_parents_iff holds,
      ends_in h'.Recorded, ends_in h.Recorded]
    simp only [same]
  have children : (h'.graph.adjacentVertices v' .onlyToLeaves).isEmpty =
      (h.graph.adjacentVertices v .onlyToLeaves).isEmpty := by
    rw [Bool.eq_iff_iff, valid'.no_children_iff holds', valid.no_children_iff holds,
      starts_at h'.Recorded, starts_at h.Recorded]
    simp only [same]
  rw [categorize_of_found (valid.vertexFor?_eq_some.mpr holds),
    categorize_of_found (valid'.vertexFor?_eq_some.mpr holds'), parents, children]

theorem categorize_of_unknown {h : History} {id : ImageId} (absent : h.vertexFor? id = none) :
    h.categorize id = .error (.unknownImage id) := by
  simp only [categorize, require, absent]
  rfl

theorem categorize_congr {h h' : History} (valid : h.Valid) (valid' : h'.Valid)
    (same : ∀ a b, TransGen h'.Recorded a b ↔ TransGen h.Recorded a b)
    (known : ∀ id, h'.contains id = h.contains id) (id : ImageId) :
    h'.categorize id = h.categorize id := by
  have absent : ∀ {h : History}, h.contains id = false → h.vertexFor? id = none := fun unknown =>
    Option.isNone_iff_eq_none.mp (Option.isSome_eq_false_iff.mp unknown)
  cases here : h.contains id with
  | true => exact categorize_eq_of_chains valid valid' same here ((known id).trans here)
  | false =>
      rw [categorize_of_unknown (absent here), categorize_of_unknown (absent ((known id).trans here))]

end Provenance.History
