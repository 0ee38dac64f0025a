import Provenance.History.Basic
import Provenance.Proofs.Graph.Derived

/-! # Histories in good order

An image is looked for in the files of one version after the other. In a valid history no image is
a file of two versions, so the search finds the only one there is.
-/

namespace Provenance.History

/-- The files of the version at a vertex. -/
def filesAt (h : History) (v : Vertex) : List ImageId :=
  match h.graph.vertexPayload? v with
  | some version => version.ids
  | none => []

/-- The image is a file of the version at a vertex. -/
def Holds (h : History) (v : Vertex) (id : ImageId) : Prop := id ∈ h.filesAt v

structure Valid (h : History) : Prop where
  graph : h.graph.Valid
  direction : h.graph.direction = h.config.direction
  nonempty : ∀ v version, h.graph.vertexPayload? v = some version → version.ids ≠ []
  nodup : ∀ v version, h.graph.vertexPayload? v = some version → version.ids.Nodup
  holder_unique : ∀ v w id, h.Holds v id → h.Holds w id → v = w

theorem Valid.nodup_filesAt {h : History} (valid : h.Valid) (v : Vertex) :
    (h.filesAt v).Nodup := by
  unfold filesAt
  split
  next version found => exact valid.nodup v version found
  next => exact List.nodup_nil

/-! ## Looking up -/

theorem holds_iff {h : History} {v : Vertex} {id : ImageId} :
    h.Holds v id ↔ ∃ version, h.graph.vertexPayload? v = some version ∧ id ∈ version.ids := by
  unfold Holds filesAt
  cases h.graph.vertexPayload? v <;> simp

theorem holds_of_vertexFor? {h : History} {id : ImageId} {v : Vertex}
    (found : h.vertexFor? id = some v) : h.Holds v id := by
  unfold vertexFor? Graph.findVertex? at found
  obtain ⟨node, hv, holds⟩ := Arena.find?_eq_some found
  refine holds_iff.mpr ⟨node.payload, ?_, List.contains_iff_mem.mp holds⟩
  rw [Graph.vertexPayload?, hv]
  rfl

theorem vertexFor?_eq_none {h : History} {id : ImageId} :
    h.vertexFor? id = none ↔ ∀ v, ¬ h.Holds v id := by
  constructor
  · intro absent v holds
    unfold vertexFor? Graph.findVertex? at absent
    obtain ⟨version, hv, listed⟩ := holds_iff.mp holds
    obtain ⟨node, hn, rfl⟩ := Option.map_eq_some_iff.mp hv
    have missed := Arena.find?_eq_none.mp absent v node hn
    exact Bool.eq_false_iff.mp missed (List.contains_iff_mem.mpr listed)
  · intro absent
    cases found : h.vertexFor? id with
    | none => rfl
    | some v => exact absurd (holds_of_vertexFor? found) (absent v)

theorem Valid.vertexFor?_eq_some {h : History} (valid : h.Valid) {id : ImageId} {v : Vertex} :
    h.vertexFor? id = some v ↔ h.Holds v id := by
  constructor
  · exact holds_of_vertexFor?
  · intro holds
    cases found : h.vertexFor? id with
    | none => exact absurd holds (vertexFor?_eq_none.mp found v)
    | some w => rw [valid.holder_unique w v id (holds_of_vertexFor? found) holds]

theorem contains_iff {h : History} {id : ImageId} : h.contains id = true ↔ ∃ v, h.Holds v id := by
  rw [contains, Option.isSome_iff_ne_none, ne_eq, vertexFor?_eq_none]
  simp

theorem Holds.live {h : History} {v : Vertex} {id : ImageId} (holds : h.Holds v id) :
    h.graph.containsVertex v = true := by
  obtain ⟨version, hv, -⟩ := holds_iff.mp holds
  obtain ⟨node, hn, -⟩ := Option.map_eq_some_iff.mp hv
  exact Graph.containsVertex_iff.mpr ⟨node, hn⟩

/-! ## Growth -/

/-- What the operations on a history have in common: images keep their versions, and no image other
than those named comes in. The named ones are in as long as there are handles left. -/
structure Grows (h h' : History) (ids : List ImageId) : Prop where
  valid : h'.Valid
  config : h'.config = h.config
  keeps : ∀ v id, h.Holds v id → h'.Holds v id
  size_le : h.size ≤ h'.size
  known : ∀ id, h'.contains id = true → h.contains id = true ∨ id ∈ ids
  present : h'.size < Handle.nullIndex → ∀ id ∈ ids, h'.contains id = true

namespace Grows

variable {h h' h'' : History} {ids ids' : List ImageId}

theorem refl (valid : h.Valid) : Grows h h [] where
  valid := valid
  config := rfl
  keeps _ _ holds := holds
  size_le := Nat.le_refl _
  known _ known := .inl known
  present _ _ listed := absurd listed List.not_mem_nil

theorem trans (first : Grows h h' ids) (second : Grows h' h'' ids') :
    Grows h h'' (ids ++ ids') where
  valid := second.valid
  config := second.config.trans first.config
  keeps v id holds := second.keeps v id (first.keeps v id holds)
  size_le := Nat.le_trans first.size_le second.size_le
  known id known := by
    rcases second.known id known with known | listed
    · rcases first.known id known with known | listed
      · exact .inl known
      · exact .inr (List.mem_append_left _ listed)
    · exact .inr (List.mem_append_right _ listed)
  present room id listed := by
    rcases List.mem_append.mp listed with listed | listed
    · have earlier := first.present (Nat.lt_of_le_of_lt second.size_le room) id listed
      obtain ⟨v, holds⟩ := contains_iff.mp earlier
      exact contains_iff.mpr ⟨v, second.keeps v id holds⟩
    · exact second.present room id listed

theorem vertexFor? (grows : Grows h h' ids) (valid : h.Valid) {id : ImageId} {v : Vertex}
    (found : h.vertexFor? id = some v) : h'.vertexFor? id = some v :=
  grows.valid.vertexFor?_eq_some.mpr (grows.keeps v id (valid.vertexFor?_eq_some.mp found))

/-- Where no version changes, nothing does that a look-up could tell. -/
theorem of_same_versions (valid : h.Valid) {graph : Graph Version Derivation}
    (graph_valid : graph.Valid) (direction : graph.direction = h.graph.direction)
    (versions : ∀ v, graph.vertexPayload? v = h.graph.vertexPayload? v)
    (size : graph.vertexCount = h.graph.vertexCount) : Grows h { h with graph } [] := by
  have same : ∀ v id, Holds { h with graph } v id ↔ h.Holds v id := fun v id => by
    simp only [holds_iff, versions]
  exact {
    valid := {
      graph := graph_valid
      direction := direction.trans valid.direction
      nonempty v version hv := valid.nonempty v version ((versions v).symm.trans hv)
      nodup v version hv := valid.nodup v version ((versions v).symm.trans hv)
      holder_unique v w id hv hw :=
        valid.holder_unique v w id ((same v id).mp hv) ((same w id).mp hw) }
    config := rfl
    keeps v id holds := (same v id).mpr holds
    size_le := Nat.le_of_eq size.symm
    known id known := by
      obtain ⟨v, holds⟩ := contains_iff.mp known
      exact .inl (contains_iff.mpr ⟨v, (same v id).mp holds⟩)
    present _ _ listed := absurd listed List.not_mem_nil }

end Grows

theorem valid_empty (config : Config) : (empty config).Valid where
  graph := Graph.valid_empty config.direction
  direction := rfl
  nonempty v version hv := by simp [empty, Graph.empty, Graph.vertexPayload?] at hv
  nodup v version hv := by simp [empty, Graph.empty, Graph.vertexPayload?] at hv
  holder_unique v w id holds := by
    simp [holds_iff, empty, Graph.empty, Graph.vertexPayload?] at holds

/-- One more file for one version, which may be a new one. -/
theorem Grows.of_new_file {h : History} (valid : h.Valid) {id : ImageId}
    (absent : h.vertexFor? id = none) {v : Vertex} {graph : Graph Version Derivation}
    (graph_valid : graph.Valid) (direction : graph.direction = h.graph.direction)
    (versions : ∀ w, graph.vertexPayload? w =
      if w = v then some ⟨h.filesAt v ++ [id]⟩ else h.graph.vertexPayload? w)
    (size_le : h.graph.vertexCount ≤ graph.vertexCount) : Grows h { h with graph } [id] := by
  have missing := vertexFor?_eq_none.mp absent
  have files : ∀ w, filesAt { h with graph } w = h.filesAt w ++ if w = v then [id] else [] := by
    intro w
    simp only [filesAt, versions]
    by_cases same : w = v <;> simp [same]
  have holds_or : ∀ {w x}, Holds { h with graph } w x ↔ h.Holds w x ∨ w = v ∧ x = id := by
    intro w x
    by_cases same : w = v <;> simp [Holds, files, same]
  exact {
    valid := {
      graph := graph_valid
      direction := direction.trans valid.direction
      nonempty w version hw := by
        rw [versions] at hw
        split at hw
        · simp [← Option.some.inj hw]
        · exact valid.nonempty w version hw
      nodup w version hw := by
        rw [versions] at hw
        split at hw
        · have fresh : id ∉ h.filesAt v := missing v
          rw [← Option.some.inj hw, List.nodup_append]
          exact ⟨valid.nodup_filesAt v, by simp,
            fun x listed y last same => fresh (by simp_all)⟩
        · exact valid.nodup w version hw
      holder_unique w w' x holds holds' := by
        rcases holds_or.mp holds with holds | ⟨rfl, rfl⟩
        · rcases holds_or.mp holds' with holds' | ⟨rfl, rfl⟩
          · exact valid.holder_unique w w' x holds holds'
          · exact absurd holds (missing w)
        · rcases holds_or.mp holds' with holds' | ⟨rfl, -⟩
          · exact absurd holds' (missing w')
          · rfl }
    config := rfl
    keeps w x holds := holds_or.mpr (.inl holds)
    size_le := size_le
    known x known := by
      obtain ⟨w, holds⟩ := contains_iff.mp known
      rcases holds_or.mp holds with holds | ⟨-, rfl⟩
      · exact .inl (contains_iff.mpr ⟨w, holds⟩)
      · exact .inr (List.mem_singleton_self x)
    present _ x listed := by
      rw [List.mem_singleton.mp listed]
      exact contains_iff.mpr ⟨v, holds_or.mpr (.inr ⟨rfl, rfl⟩)⟩ }

/-! ## Adding images -/

theorem addImage_of_known {h : History} {id : ImageId} {v : Vertex}
    (found : h.vertexFor? id = some v) : h.addImage id = (v, h) := by simp [addImage, found]

theorem addImage_of_unknown {h : History} {id : ImageId} (absent : h.vertexFor? id = none) :
    h.addImage id = ((h.graph.addVertexWith (.ofId id)).1,
      { h with graph := (h.graph.addVertexWith (.ofId id)).2 }) := by
  simp [addImage, absent]

theorem grows_addImage {h : History} (valid : h.Valid) (id : ImageId) :
    Grows h (h.addImage id).2 [id] := by
  cases found : h.vertexFor? id with
  | some v =>
      rw [addImage_of_known found]
      have known : h.contains id = true := contains_iff.mpr ⟨v, holds_of_vertexFor? found⟩
      exact { Grows.refl valid with
        known := fun _ known => .inl known
        present := fun _ id' listed => by rwa [List.mem_singleton.mp listed] }
  | none =>
      rw [addImage_of_unknown found]
      cases room : h.graph.vertices.isFull with
      | true =>
          have full := valid.graph.vertices.isFull_iff.mp room
          rw [Graph.addVertexWith_of_full room]
          exact { Grows.refl valid with
            known := fun _ known => .inl known
            present := fun room => absurd full (Nat.ne_of_lt room) }
      | false =>
          have fresh := Graph.addVertexWith_fresh valid.graph room (.ofId id)
          have nothing : h.filesAt (h.graph.addVertexWith (.ofId id)).1 = [] := by
            simp [filesAt, Graph.vertexPayload?, fresh]
          have versions : ∀ w, (h.graph.addVertexWith (.ofId id)).2.vertexPayload? w =
              if w = (h.graph.addVertexWith (.ofId id)).1
              then some ⟨h.filesAt (h.graph.addVertexWith (.ofId id)).1 ++ [id]⟩
              else h.graph.vertexPayload? w := fun w => by
            rw [Graph.vertexPayload?_addVertexWith valid.graph room, nothing]
            rfl
          have more := Graph.vertexCount_addVertexWith room (.ofId id)
          exact Grows.of_new_file valid found (Graph.valid_addVertexWith valid.graph _)
            (Graph.direction_addVertexWith _ _) versions (by omega)

/-! ## Adding duplicates -/

theorem addDuplicate_of_unknown {h : History} {a : ImageId} (absent : h.vertexFor? a = none)
    (b : ImageId) : h.addDuplicate a b = .error (.unknownImage a) := by
  simp [addDuplicate, absent]

theorem addDuplicate_of_known {h : History} {a b : ImageId} {v w : Vertex}
    (found : h.vertexFor? a = some v) (found' : h.vertexFor? b = some w) :
    h.addDuplicate a b = if w = v then .ok h else .error (.conflictingDuplicate a b) := by
  simp [addDuplicate, found, found']

theorem addDuplicate_of_new {h : History} {a b : ImageId} {v : Vertex}
    (found : h.vertexFor? a = some v) (absent : h.vertexFor? b = none) :
    h.addDuplicate a b = .ok { h with graph := h.graph.modifyVertex v (·.addId b) } := by
  simp [addDuplicate, found, absent]

theorem addDuplicate_eq_ok_iff {h : History} {a b : ImageId} :
    (∃ h', h.addDuplicate a b = .ok h') ↔
      ∃ v, h.vertexFor? a = some v ∧ (h.vertexFor? b = none ∨ h.vertexFor? b = some v) := by
  cases found : h.vertexFor? a with
  | none => simp [addDuplicate_of_unknown found]
  | some v =>
      cases found' : h.vertexFor? b with
      | none => simp [addDuplicate_of_new found found']
      | some w =>
          rw [addDuplicate_of_known found found']
          by_cases same : v = w <;> simp [same, eq_comm (a := w)]

/-- Both images are files of one version afterwards. -/
theorem grows_addDuplicate {h h' : History} (valid : h.Valid) {a b : ImageId}
    (added : h.addDuplicate a b = .ok h') :
    Grows h h' [a, b] ∧ h'.vertexFor? b = h'.vertexFor? a := by
  obtain ⟨v, found, either⟩ := addDuplicate_eq_ok_iff.mp ⟨h', added⟩
  have holds := holds_of_vertexFor? found
  rcases either with absent | found'
  · rw [addDuplicate_of_new found absent] at added
    obtain rfl := Except.ok.inj added
    obtain ⟨version, hv, -⟩ := holds_iff.mp holds
    have files : h.filesAt v = version.ids := by simp [filesAt, hv]
    have versions : ∀ w, (h.graph.modifyVertex v (·.addId b)).vertexPayload? w =
        if w = v then some ⟨h.filesAt v ++ [b]⟩ else h.graph.vertexPayload? w := fun w => by
      rw [Graph.vertexPayload?_modifyVertex, hv, files]
      rfl
    have grows : Grows h { h with graph := h.graph.modifyVertex v (·.addId b) } [b] :=
      Grows.of_new_file valid absent (Graph.valid_modifyVertex valid.graph v _) rfl versions
        (Nat.le_of_eq (Graph.vertexCount_modifyVertex _ _ _).symm)
    have holds_a := grows.keeps v a holds
    have holds_b : Holds { h with graph := h.graph.modifyVertex v (·.addId b) } v b :=
      holds_iff.mpr ⟨_, (versions v).trans (if_pos rfl), by simp⟩
    refine ⟨?_, ?_⟩
    · exact { grows with
        known := fun x known => by
          rcases grows.known x known with known | listed
          · exact .inl known
          · exact .inr (List.mem_cons_of_mem a listed)
        present := fun _ x listed => by
          rcases List.mem_cons.mp listed with rfl | listed
          · exact contains_iff.mpr ⟨v, holds_a⟩
          · exact contains_iff.mpr ⟨v, List.mem_singleton.mp listed ▸ holds_b⟩ }
    · rw [grows.valid.vertexFor?_eq_some.mpr holds_a, grows.valid.vertexFor?_eq_some.mpr holds_b]
  · rw [addDuplicate_of_known found found', if_pos rfl] at added
    obtain rfl := Except.ok.inj added
    refine ⟨?_, found'.trans found.symm⟩
    exact { Grows.refl valid with
      known := fun _ known => .inl known
      present := fun _ x listed => by
        have holds' := holds_of_vertexFor? found'
        rcases List.mem_cons.mp listed with rfl | listed
        · exact contains_iff.mpr ⟨v, holds⟩
        · exact contains_iff.mpr ⟨v, List.mem_singleton.mp listed ▸ holds'⟩ }

/-! ## Adding derivations -/

/-- The edge that a derivation is recorded at: one there is gets more actions. -/
def recorded (g : Graph Version Derivation) (source target : Vertex) (actions : List Action) :
    Edge × Graph Version Derivation :=
  match g.edge? source target with
  | some e => (e, g.modifyEdge e (·.addActions actions))
  | none => g.addEdgeWith source target ⟨actions⟩

theorem addDerivation_eq (h : History) (parent child : ImageId) (actions : List Action) :
    h.addDerivation parent child actions =
      let first := h.addImage parent
      let second := first.2.addImage child
      let ends := second.2.orient first.1 second.1
      let edge := recorded second.2.graph ends.1 ends.2 actions
      (edge.1, { second.2 with graph := edge.2 }) := by
  unfold addDerivation recorded
  dsimp only
  generalize Graph.edge? _ _ _ = between
  cases between <;> rfl

theorem grows_recorded {h : History} (valid : h.Valid) (source target : Vertex)
    (actions : List Action) :
    Grows h { h with graph := (recorded h.graph source target actions).2 } [] := by
  unfold recorded
  split
  · exact Grows.of_same_versions valid (Graph.valid_modifyEdge valid.graph _ _) rfl
      (fun _ => rfl) rfl
  · obtain ⟨direction, count, versions⟩ :=
      Graph.addEdgeWith_vertices valid.graph source target ⟨actions⟩
    exact Grows.of_same_versions valid (Graph.valid_addEdgeWith valid.graph source target _)
      direction versions count

theorem grows_addDerivation {h : History} (valid : h.Valid) (parent child : ImageId)
    (actions : List Action) : Grows h (h.addDerivation parent child actions).2 [parent, child] := by
  have first := grows_addImage valid parent
  have second := grows_addImage first.valid child
  rw [addDerivation_eq]
  simpa using (first.trans second).trans (grows_recorded second.valid _ _ actions)

theorem grows_addRelations {h : History} (valid : h.Valid) (relations : List Relation) :
    Grows h (h.addRelations relations) (relations.flatMap fun r => [r.object, r.subject]) := by
  induction relations generalizing h with
  | nil => exact Grows.refl valid
  | cons r rs ih =>
      have first := grows_addDerivation valid r.object r.subject []
      exact first.trans (ih first.valid)

/-! ## Removing implied derivations -/

theorem grows_dropEdges {h : History} (valid : h.Valid) (es : List Edge) :
    Grows h { h with graph := es.foldl .dropEdge h.graph } [] :=
  Grows.of_same_versions valid (Graph.valid_dropEdges valid.graph es)
    (Graph.direction_dropEdges h.graph es) (Graph.vertexPayload?_dropEdges valid.graph es)
    (Graph.vertexCount_dropEdges h.graph es)

theorem Valid.relationsOf_dropEdges {h : History} (valid : h.Valid) {gone : List Edge} {e : Edge}
    (kept : e ∉ gone) :
    relationsOf { h with graph := gone.foldl .dropEdge h.graph } e = h.relationsOf e := by
  unfold relationsOf orient
  simp only [Graph.get?_edges_dropEdges, if_neg kept, Graph.vertexPayload?_dropEdges valid.graph]

/-- It does not matter that records are noted when some derivations are out already. -/
theorem Valid.foldl_takeOut {h : History} (valid : h.Valid) {gone : List Edge}
    (nodup : gone.Nodup) (removed : List Relation) :
    gone.foldl takeOut (removed, h) =
      (removed ++ gone.flatMap h.relationsOf, { h with graph := gone.foldl .dropEdge h.graph }) := by
  -- from the end: the last one is still there when the others are out
  induction gone using List.reverseRecOn with
  | nil => simp
  | append_singleton gone e ih =>
      obtain ⟨nodup, -, apart⟩ := List.nodup_append.mp nodup
      have kept : e ∉ gone := fun listed => apart e listed e (List.mem_singleton_self e) rfl
      rw [List.foldl_concat, ih nodup, takeOut, valid.relationsOf_dropEdges kept, List.foldl_concat,
        List.flatMap_append, List.flatMap_singleton, List.append_assoc]

/-- The records of all derivations that are removed can be read off the history as it was. -/
theorem Valid.reduceEdges_eq {h : History} (valid : h.Valid) :
    h.reduceEdges =
      match h.graph.transitiveReductionWithRemoved .nothing with
      | .ok (_, removed) =>
          .ok (removed.flatMap h.relationsOf, { h with graph := removed.foldl .dropEdge h.graph })
      | .error cause => .error (.graph cause) := by
  unfold reduceEdges
  cases result : h.graph.transitiveReductionWithRemoved .nothing with
  | error cause => rfl
  | ok pair =>
      have nodup := h.graph.edges.handles_nodup.sublist (Graph.sublist_removed result)
      dsimp only
      rw [valid.foldl_takeOut nodup, List.nil_append]

theorem Valid.reduceEdges_eq_ok {h h' : History} (valid : h.Valid) {removed : List Relation}
    (reduced : h.reduceEdges = .ok (removed, h')) :
    ∃ r edges, h.graph.transitiveReductionWithRemoved .nothing = .ok (r, edges) ∧
      h' = { h with graph := edges.foldl .dropEdge h.graph } := by
  rw [valid.reduceEdges_eq] at reduced
  cases result : h.graph.transitiveReductionWithRemoved .nothing with
  | error cause => simp [result] at reduced
  | ok pair =>
      simp only [result, Except.ok.injEq, Prod.mk.injEq] at reduced
      exact ⟨pair.1, pair.2, rfl, reduced.2.symm⟩

theorem grows_reduceEdges {h h' : History} (valid : h.Valid) {removed : List Relation}
    (reduced : h.reduceEdges = .ok (removed, h')) : Grows h h' [] := by
  obtain ⟨r, edges, -, rfl⟩ := valid.reduceEdges_eq_ok reduced
  exact grows_dropEdges valid edges

end Provenance.History
