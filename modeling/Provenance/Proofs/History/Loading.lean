import Mathlib.Data.List.Dedup
import Provenance.Proofs.History.Ancestry

/-! # Loading records

A history that is built from records alone has one file in every version, so its own records are
the ones that it was built from.
-/

namespace Provenance.History

/-- Every version has one file only. -/
def Single (h : History) : Prop := ∀ v a b, h.Holds v a → h.Holds v b → a = b

/-- What loading does: some images come in and some records, as long as there are handles. -/
structure Loads (h h' : History) (ids : List ImageId) (records : List Relation) : Prop where
  grows : Grows h h' ids
  single : h.Single → h'.Single
  keeps : ∀ a b, h.Recorded a b → h'.Recorded a b
  only : h.Single → ∀ a b, h'.Recorded a b → h.Recorded a b ∨ ⟨b, a⟩ ∈ records
  edgeCount_le : h.graph.edgeCount ≤ h'.graph.edgeCount
  all : h'.size < Handle.nullIndex → h'.graph.edgeCount < Handle.nullIndex →
    ∀ r ∈ records, h'.Recorded r.object r.subject

namespace Loads

variable {h h' h'' : History} {ids ids' : List ImageId} {records records' : List Relation}

theorem refl (valid : h.Valid) : Loads h h [] [] where
  grows := .refl valid
  single single := single
  keeps _ _ recorded := recorded
  only _ _ _ recorded := .inl recorded
  edgeCount_le := Nat.le_refl _
  all _ _ _ listed := absurd listed List.not_mem_nil

theorem trans (first : Loads h h' ids records) (second : Loads h' h'' ids' records') :
    Loads h h'' (ids ++ ids') (records ++ records') where
  grows := first.grows.trans second.grows
  single single := second.single (first.single single)
  keeps a b recorded := second.keeps a b (first.keeps a b recorded)
  only single a b recorded := by
    rcases second.only (first.single single) a b recorded with recorded | listed
    · rcases first.only single a b recorded with recorded | listed
      · exact .inl recorded
      · exact .inr (List.mem_append_left _ listed)
    · exact .inr (List.mem_append_right _ listed)
  edgeCount_le := Nat.le_trans first.edgeCount_le second.edgeCount_le
  all vertex_room edge_room r listed := by
    rcases List.mem_append.mp listed with listed | listed
    · have recorded := first.all (Nat.lt_of_le_of_lt second.grows.size_le vertex_room)
        (Nat.lt_of_le_of_lt second.edgeCount_le edge_room) r listed
      exact second.keeps _ _ recorded
    · exact second.all vertex_room edge_room r listed

/-- Where the edges stay the same, so do the records, unless a version gets another file. -/
theorem of_same_parents (valid : h.Valid) (grows : Grows h h' ids)
    (single : h.Single → h'.Single) (parents : ∀ p c, h'.Parent p c ↔ h.Parent p c)
    (edgeCount : h'.graph.edgeCount = h.graph.edgeCount) : Loads h h' ids [] where
  grows := grows
  single := single
  keeps a b recorded := by
    obtain ⟨p, c, parent, holds_a, holds_b⟩ := valid.recorded_iff.mp recorded
    exact grows.valid.recorded_iff.mpr
      ⟨p, c, (parents p c).mpr parent, grows.keeps p a holds_a, grows.keeps c b holds_b⟩
  only single_before a b recorded := by
    obtain ⟨p, c, parent, holds_a, holds_b⟩ := grows.valid.recorded_iff.mp recorded
    have before := (parents p c).mp parent
    obtain ⟨a', holds_a'⟩ := valid.exists_holds (valid.live_of_parent before).1
    obtain ⟨b', holds_b'⟩ := valid.exists_holds (valid.live_of_parent before).2
    obtain rfl := single single_before p a a' holds_a (grows.keeps p a' holds_a')
    obtain rfl := single single_before c b b' holds_b (grows.keeps c b' holds_b')
    exact .inl (valid.recorded_iff.mpr ⟨p, c, before, holds_a', holds_b'⟩)
  edgeCount_le := Nat.le_of_eq edgeCount.symm
  all _ _ _ listed := absurd listed List.not_mem_nil

end Loads

/-! ## Images -/

/-- The vertex that an image was given, which is the null handle where none was left. -/
def Placed (h : History) (v : Vertex) (id : ImageId) : Prop :=
  h.Holds v id ∨ v = .null ∧ Handle.nullIndex ≤ h.size

theorem Placed.grow {h h' : History} {ids : List ImageId} {v : Vertex} {id : ImageId}
    (placed : h.Placed v id) (grows : Grows h h' ids) : h'.Placed v id := by
  rcases placed with holds | ⟨null, full⟩
  · exact .inl (grows.keeps v id holds)
  · exact .inr ⟨null, Nat.le_trans full grows.size_le⟩

theorem placed_addImage {h : History} (valid : h.Valid) (id : ImageId) :
    (h.addImage id).2.Placed (h.addImage id).1 id := by
  cases found : h.vertexFor? id with
  | some v =>
      rw [addImage_of_known found]
      exact .inl (holds_of_vertexFor? found)
  | none =>
      rw [addImage_of_unknown found]
      cases room : h.graph.vertices.isFull with
      | true =>
          have full := valid.graph.vertices.isFull_iff.mp room
          rw [Graph.addVertexWith_of_full room]
          exact .inr ⟨rfl, Nat.le_of_eq full.symm⟩
      | false =>
          refine .inl (holds_iff.mpr ⟨.ofId id, ?_, List.mem_singleton_self id⟩)
          rw [Graph.vertexPayload?_addVertexWith valid.graph room, if_pos rfl]

theorem single_addImage {h : History} (valid : h.Valid) (id : ImageId) (single : h.Single) :
    (h.addImage id).2.Single := by
  cases found : h.vertexFor? id with
  | some v => rwa [addImage_of_known found]
  | none =>
      rw [addImage_of_unknown found]
      cases room : h.graph.vertices.isFull with
      | true => rwa [Graph.addVertexWith_of_full room]
      | false =>
          have versions := Graph.vertexPayload?_addVertexWith valid.graph room (.ofId id)
          intro v a b holds_a holds_b
          rw [holds_iff] at holds_a holds_b
          simp only [versions] at holds_a holds_b
          by_cases new : v = (h.graph.addVertexWith (.ofId id)).1
          · simp only [new, if_true, Option.some.injEq, exists_eq_left', Version.ofId,
              List.mem_singleton] at holds_a holds_b
            rw [holds_a, holds_b]
          · simp only [new, if_false] at holds_a holds_b
            exact single v a b (holds_iff.mpr holds_a) (holds_iff.mpr holds_b)

theorem loads_addImage {h : History} (valid : h.Valid) (id : ImageId) :
    Loads h (h.addImage id).2 [id] [] := by
  have edges : (h.addImage id).2.graph.edges = h.graph.edges ∧
      (h.addImage id).2.graph.between = h.graph.between := by
    cases found : h.vertexFor? id with
    | some v =>
        rw [addImage_of_known found]
        exact ⟨rfl, rfl⟩
    | none =>
        rw [addImage_of_unknown found]
        exact ⟨Graph.edges_addVertexWith _ _, Graph.between_addVertexWith _ _⟩
  have grows := grows_addImage valid id
  refine .of_same_parents valid grows (single_addImage valid id) (fun p c => ?_)
    (congrArg Arena.size edges.1)
  rw [Parent, Parent, orient, orient, grows.config, Graph.Joined, Graph.Joined, Graph.hasEdge,
    Graph.hasEdge, Graph.edge?, Graph.edge?, edges.2]

/-! ## Derivations -/

theorem recorded_of_dead {g : Graph Version Derivation} (valid : g.Valid) {s t : Vertex}
    (dead : (g.containsVertex s && g.containsVertex t) = false) (actions : List Action) :
    (recorded g s t actions).2 = g := by
  unfold recorded
  split
  next e found =>
    obtain ⟨source, target, -⟩ := valid.live_of_edge? found
    simp [source, target] at dead
  next => rw [Graph.addEdgeWith_of_dead dead]

theorem joins_recorded {g : Graph Version Derivation} (valid : g.Valid) {s t : Vertex}
    (source : g.containsVertex s = true) (target : g.containsVertex t = true)
    (actions : List Action) : Graph.Joins g (recorded g s t actions).2 [(s, t)] := by
  unfold recorded
  split
  next e found => exact Graph.joins_modifyEdge valid found _
  next => exact Graph.joins_addEdgeWith valid source target _

theorem Placed.holds_of_live {h : History} (valid : h.Valid) {v : Vertex} {id : ImageId}
    (placed : h.Placed v id) (live : h.graph.containsVertex v = true) : h.Holds v id := by
  rcases placed with holds | ⟨rfl, -⟩
  · exact holds
  · exact absurd live (Bool.eq_false_iff.mp valid.graph.null_dead)

theorem live_orient (h : History) (p c : Vertex) :
    (h.graph.containsVertex (h.orient p c).1 && h.graph.containsVertex (h.orient p c).2) =
      (h.graph.containsVertex p && h.graph.containsVertex c) := by
  unfold orient
  cases h.config.direction with
  | parentToChild => rfl
  | childToParent => exact Bool.and_comm _ _

/-- Recording a derivation between the vertices of two images. -/
theorem loads_recorded {h : History} (valid : h.Valid) {p c : Vertex} {a b : ImageId}
    (placed_p : h.Placed p a) (placed_c : h.Placed c b) (actions : List Action) :
    Loads h { h with graph := (recorded h.graph (h.orient p c).1 (h.orient p c).2 actions).2 } []
      [⟨b, a⟩] := by
  have grows := grows_recorded valid (h.orient p c).1 (h.orient p c).2 actions
  cases live : h.graph.containsVertex (h.orient p c).1 &&
      h.graph.containsVertex (h.orient p c).2 with
  | false =>
      rw [recorded_of_dead valid.graph live]
      refine { Loads.refl valid with only := fun _ _ _ recorded => .inl recorded, all := ?_ }
      intro room
      have not_null : ∀ {v id}, h.Placed v id → h.graph.containsVertex v = true := by
        rintro v id (holds | ⟨-, full⟩)
        · exact holds.live
        · exact absurd room (Nat.not_lt.mpr full)
      rw [live_orient, not_null placed_p, not_null placed_c] at live
      cases live
  | true =>
      obtain ⟨source, target⟩ := Bool.and_eq_true_iff.mp live
      have joins := joins_recorded valid.graph source target actions
      rw [live_orient, Bool.and_eq_true_iff] at live
      have holds_a := placed_p.holds_of_live valid live.1
      have holds_b := placed_c.holds_of_live valid live.2
      generalize (recorded h.graph (h.orient p c).1 (h.orient p c).2 actions).2 = g at *
      have same : ∀ v id, Holds { h with graph := g } v id ↔ h.Holds v id := fun v id => by
        simp only [holds_iff, joins.vertexPayload?]
      exact {
        grows := grows
        single := fun single v x y hx hy => single v x y ((same v x).mp hx) ((same v y).mp hy)
        keeps := fun x y recorded => by
          obtain ⟨p', c', parent, hx, hy⟩ := valid.recorded_iff.mp recorded
          exact grows.valid.recorded_iff.mpr
            ⟨p', c', joins.keeps _ _ parent, (same p' x).mpr hx, (same c' y).mpr hy⟩
        only := fun single x y recorded => by
          obtain ⟨p', c', parent, hx, hy⟩ := grows.valid.recorded_iff.mp recorded
          rw [same] at hx hy
          rcases joins.only _ _ parent with before | new
          · exact .inl (valid.recorded_iff.mpr ⟨p', c', before, hx, hy⟩)
          · obtain ⟨rfl, rfl⟩ : p' = p ∧ c' = c := orient_inj (List.mem_singleton.mp new)
            rw [single p' x a hx holds_a, single c' y b hy holds_b]
            exact .inr (List.mem_singleton_self _)
        edgeCount_le := joins.edgeCount_le
        all := fun _ room r listed => by
          rw [List.mem_singleton.mp listed]
          have parent := joins.all (.inr room) _ _ (List.mem_singleton_self _)
          exact grows.valid.recorded_iff.mpr
            ⟨p, c, parent, (same p a).mpr holds_a, (same c b).mpr holds_b⟩ }

theorem loads_addDerivation {h : History} (valid : h.Valid) (a b : ImageId)
    (actions : List Action) : Loads h (h.addDerivation a b actions).2 [a, b] [⟨b, a⟩] := by
  have first := loads_addImage valid a
  have second := loads_addImage first.grows.valid b
  have placed_a := (placed_addImage valid a).grow second.grows
  have placed_b := placed_addImage first.grows.valid b
  have third := loads_recorded second.grows.valid placed_a placed_b actions
  rw [addDerivation_eq]
  simpa using (first.trans second).trans third

theorem loads_addRelations {h : History} (valid : h.Valid) (records : List Relation) :
    Loads h (h.addRelations records) (records.flatMap fun r => [r.object, r.subject]) records := by
  induction records generalizing h with
  | nil => exact .refl valid
  | cons r records ih =>
      have first := loads_addDerivation valid r.object r.subject []
      exact first.trans (ih first.grows.valid)

/-! ## Whole lists of records -/

/-- The images that records mention, each once. -/
def imagesOf (records : List Relation) : List ImageId :=
  (records.flatMap fun r => [r.object, r.subject]).dedup

theorem not_contains_empty (config : Config) (id : ImageId) :
    (empty config).contains id = false := by
  refine Bool.eq_false_iff.mpr fun known => ?_
  obtain ⟨v, holds⟩ := contains_iff.mp known
  simp [holds_iff, empty, Graph.empty, Graph.vertexPayload?] at holds

theorem not_recorded_empty (config : Config) (a b : ImageId) :
    ¬ (empty config).Recorded a b := List.not_mem_nil

theorem single_empty (config : Config) : (empty config).Single := by
  intro v a b holds
  simp [holds_iff, empty, Graph.empty, Graph.vertexPayload?] at holds

/-- Every version has a file of its own. -/
theorem Valid.size_le {h : History} (valid : h.Valid) {ids : List ImageId}
    (known : ∀ id, h.contains id = true → id ∈ ids) : h.size ≤ ids.length := by
  have vertices : h.graph.vertexList.length = h.size := valid.graph.vertices.length_handles
  rw [← vertices]
  refine length_le_of_rel h.graph.vertices.handles_nodup h.Holds (fun v listed => ?_)
    valid.holder_unique
  obtain ⟨id, holds⟩ := valid.exists_holds (Arena.mem_handles.mp listed)
  exact ⟨id, known id (contains_iff.mpr ⟨v, holds⟩), holds⟩

/-- Every edge has a record of its own. -/
theorem Valid.edgeCount_le {h : History} (valid : h.Valid) {records : List Relation}
    (listed : ∀ a b, h.Recorded a b → ⟨b, a⟩ ∈ records) :
    h.graph.edgeCount ≤ records.length := by
  rw [← valid.graph.length_edgePairs]
  refine length_le_of_rel valid.graph.nodup_edgePairs
    (fun ends r => h.Holds (h.orient ends.1 ends.2).1 r.object ∧
      h.Holds (h.orient ends.1 ends.2).2 r.subject) ?_ ?_
  · rintro ⟨s, t⟩ joined
    have parent := joined_iff_parent.mp (valid.graph.mem_edgePairs.mp joined)
    obtain ⟨a, holds_a⟩ := valid.exists_holds (valid.live_of_parent parent).1
    obtain ⟨b, holds_b⟩ := valid.exists_holds (valid.live_of_parent parent).2
    have recorded := valid.recorded_iff.mpr ⟨_, _, parent, holds_a, holds_b⟩
    exact ⟨⟨b, a⟩, listed a b recorded, holds_a, holds_b⟩
  · rintro ⟨s, t⟩ ⟨s', t'⟩ r ⟨object, subject⟩ ⟨object', subject'⟩
    have same : h.orient s t = h.orient s' t' :=
      Prod.ext (valid.holder_unique _ _ _ object object')
        (valid.holder_unique _ _ _ subject subject')
    obtain ⟨rfl, rfl⟩ := orient_inj same
    rfl

theorem listed_of_contains (config : Config) {records : List Relation} {id : ImageId}
    (known : ((empty config).addRelations records).contains id = true) :
    id ∈ records.flatMap fun r => [r.object, r.subject] := by
  have grows := grows_addRelations (valid_empty config) records
  rcases grows.known id known with before | listed
  · rw [not_contains_empty] at before
    cases before
  · exact listed

theorem listed_of_recorded (config : Config) {records : List Relation} {a b : ImageId}
    (recorded : ((empty config).addRelations records).Recorded a b) : ⟨b, a⟩ ∈ records := by
  have loads := loads_addRelations (valid_empty config) records
  rcases loads.only (single_empty config) a b recorded with before | listed
  · exact absurd before (not_recorded_empty config a b)
  · exact listed

/-- There is a version for an image and an edge for a record. -/
theorem size_loaded_le (config : Config) (records : List Relation) :
    ((empty config).addRelations records).size ≤ (imagesOf records).length ∧
      ((empty config).addRelations records).graph.edgeCount ≤ records.dedup.length := by
  have valid := (grows_addRelations (valid_empty config) records).valid
  constructor
  · apply valid.size_le
    intro id known
    exact List.mem_dedup.mpr (listed_of_contains config known)
  · apply valid.edgeCount_le
    intro a b recorded
    exact List.mem_dedup.mpr (listed_of_recorded config recorded)

/-- As long as there are handles, the loaded records are the given ones. -/
theorem recorded_loaded_iff (config : Config) {records : List Relation}
    (vertex_room : (imagesOf records).length < Handle.nullIndex)
    (edge_room : records.dedup.length < Handle.nullIndex) {a b : ImageId} :
    ((empty config).addRelations records).Recorded a b ↔ ⟨b, a⟩ ∈ records := by
  have loads := loads_addRelations (valid_empty config) records
  obtain ⟨vertices, edges⟩ := size_loaded_le config records
  refine ⟨listed_of_recorded config, fun listed => ?_⟩
  exact loads.all (Nat.lt_of_le_of_lt vertices vertex_room)
    (Nat.lt_of_le_of_lt edges edge_room) ⟨b, a⟩ listed

end Provenance.History
