import Provenance.Proofs.Graph.Mirror
import Provenance.Proofs.History.Cloud
import Provenance.Proofs.History.Runs

/-! # Either way round

Histories whose configurations differ in the direction alone, and which are changed in the same way,
have graphs that mirror each other. Whatever is told in terms of parents and children is the same
for both; what is only required of a chain, that it be a longest one, holds in both.
-/

open Relation (TransGen)

namespace Provenance.History

/-- The second history is the first one with its edges stored the other way round. -/
structure Mirrors (h h' : History) : Prop where
  config : h'.config = { h.config with direction := h.config.direction.opposite }
  graph : h.graph.Mirrors h'.graph

theorem mirrors_empty (config : Config) :
    Mirrors (empty config) (empty { config with direction := config.direction.opposite }) where
  config := rfl
  graph := Graph.mirrors_empty config.direction

/-- Records that imply the same chains lead to the same cloud, or to none at all. -/
theorem Finer.relationCloud {h h' : History} (finer : h.Finer h') (valid : h.Valid)
    (valid' : h'.Valid) (same : ∀ a b, TransGen h'.Recorded a b ↔ TransGen h.Recorded a b) :
    Alike (fun cloud cloud' => h.graph.ClosureFits → cloud' = cloud)
      h.relationCloud h'.relationCloud := by
  by_cases acyclic : ∀ a, ¬ TransGen h.Recorded a a
  · have acyclic' : ∀ a, ¬ TransGen h'.Recorded a a := fun a => (same a a).not.mpr (acyclic a)
    obtain ⟨cloud, known⟩ := valid.relationCloud_ok_iff.mpr acyclic
    obtain ⟨cloud', known'⟩ := valid'.relationCloud_ok_iff.mpr acyclic'
    rw [known, known']
    refine .ok fun fits => ?_
    have fits' := finer.closureFits valid valid' same fits
    exact relationCloud_eq_of_fits valid valid' same fits fits' known known'
  · have cyclic' : ¬ ∀ a, ¬ TransGen h'.Recorded a a := fun acyclic' =>
      acyclic fun a => (same a a).not.mp (acyclic' a)
    rw [valid.relationCloud_of_cycle acyclic, valid'.relationCloud_of_cycle cyclic']
    exact .error _

/-- What a change tells its caller. -/
inductive Reply where
  | vertex (v : Vertex)
  | edge (e : Edge)
  | removed (relations : List Relation)
  | done

def Change.reply (h : History) : Change → Except HistoryError Reply
  | .addImage id => .ok (.vertex (h.addImage id).1)
  | .addDuplicate existing duplicate => (h.addDuplicate existing duplicate).map fun _ => .done
  | .addRelations _ => .ok .done
  | .addDerivation parent child actions => .ok (.edge (h.addDerivation parent child actions).1)
  | .reduceEdges => h.reduceEdges.map fun result => .removed result.1

/-- What the changes of a run tell. -/
def replies (h : History) : List Change → List (Except HistoryError Reply)
  | [] => []
  | c :: cs =>
      c.reply h :: match c.apply h with
        | .ok h' => h'.replies cs
        | .error _ => h.replies cs

namespace Mirrors

variable {h h' : History}

theorem orient (mirrors : Mirrors h h') (p c : Vertex) : h'.orient p c = h.orient c p := by
  unfold History.orient
  rw [mirrors.config]
  cases h.config.direction <;> rfl

theorem orient_swap (mirrors : Mirrors h h') (p c : Vertex) :
    h'.orient p c = (h.orient p c).swap := by
  unfold History.orient
  rw [mirrors.config]
  exact Direction.orient_opposite _ p c

theorem vertexFor? (mirrors : Mirrors h h') (id : ImageId) : h'.vertexFor? id = h.vertexFor? id :=
  mirrors.graph.findVertex? _

theorem require (mirrors : Mirrors h h') (id : ImageId) : h'.require id = h.require id := by
  rw [History.require, mirrors.vertexFor?, History.require]

/-! ## Changes -/

theorem addImage (mirrors : Mirrors h h') (id : ImageId) :
    (h'.addImage id).1 = (h.addImage id).1 ∧ Mirrors (h.addImage id).2 (h'.addImage id).2 := by
  have found' := mirrors.vertexFor? id
  cases found : h.vertexFor? id with
  | some v =>
      rw [found] at found'
      rw [addImage_of_known found, addImage_of_known found']
      exact ⟨rfl, mirrors⟩
  | none =>
      rw [found] at found'
      rw [addImage_of_unknown found, addImage_of_unknown found']
      obtain ⟨issued, graph⟩ := mirrors.graph.addVertexWith (.ofId id)
      exact ⟨issued, mirrors.config, graph⟩

theorem addDuplicate (mirrors : Mirrors h h') (existing duplicate : ImageId) :
    Alike Mirrors (h.addDuplicate existing duplicate) (h'.addDuplicate existing duplicate) := by
  unfold History.addDuplicate
  rw [mirrors.vertexFor?, mirrors.vertexFor?]
  cases h.vertexFor? existing with
  | none => exact .error _
  | some v =>
      cases h.vertexFor? duplicate with
      | none => exact .ok ⟨mirrors.config, mirrors.graph.modifyVertex v _⟩
      | some w =>
          dsimp only
          split
          · exact .ok mirrors
          · exact .error _

theorem recorded {g g' : Graph Version Derivation} (mirrors : g.Mirrors g') (s t : Vertex)
    (actions : List Action) :
    (History.recorded g' t s actions).1 = (History.recorded g s t actions).1 ∧
      (History.recorded g s t actions).2.Mirrors (History.recorded g' t s actions).2 := by
  unfold History.recorded
  rw [mirrors.edge?_swap]
  cases g.edge? s t with
  | some e => exact ⟨rfl, mirrors.modifyEdge e _⟩
  | none => exact mirrors.addEdgeWith s t ⟨actions⟩

theorem addDerivation (mirrors : Mirrors h h') (parent child : ImageId) (actions : List Action) :
    (h'.addDerivation parent child actions).1 = (h.addDerivation parent child actions).1 ∧
      Mirrors (h.addDerivation parent child actions).2
        (h'.addDerivation parent child actions).2 := by
  obtain ⟨same_parent, first⟩ := mirrors.addImage parent
  obtain ⟨same_child, second⟩ := first.addImage child
  rw [addDerivation_eq, addDerivation_eq]
  dsimp only
  rw [same_parent, same_child, second.orient_swap]
  obtain ⟨issued, graph⟩ := recorded second.graph _ _ actions
  exact ⟨issued, second.config, graph⟩

theorem addRelations (mirrors : Mirrors h h') (relations : List Relation) :
    Mirrors (h.addRelations relations) (h'.addRelations relations) := by
  induction relations generalizing h h' with
  | nil => exact mirrors
  | cons r rs ih => exact ih (mirrors.addDerivation r.object r.subject []).2

theorem relationsOf (mirrors : Mirrors h h') : h'.relationsOf = h.relationsOf := by
  funext e
  unfold History.relationsOf
  rw [mirrors.graph.get?_edges, mirrors.graph.vertexPayload?]
  cases h.graph.edges.get? e with
  | none => rfl
  | some link =>
      dsimp only [Option.map_some, Link.reversed]
      rw [mirrors.orient]

theorem reduceEdges (mirrors : Mirrors h h') (valid : h.Valid) (valid' : h'.Valid) :
    Alike (fun result result' => result'.1 = result.1 ∧ Mirrors result.2 result'.2)
      h.reduceEdges h'.reduceEdges := by
  have same := mirrors.graph.reduction valid.graph valid'.graph .nothing
  rw [valid.reduceEdges_eq, valid'.reduceEdges_eq, mirrors.relationsOf]
  generalize h.graph.transitiveReductionWithRemoved .nothing = result at *
  generalize h'.graph.transitiveReductionWithRemoved .nothing = result' at *
  cases same with
  | error cause => exact .error _
  | @ok r r' removed =>
      dsimp only
      rw [removed]
      exact .ok ⟨rfl, mirrors.config, mirrors.graph.dropEdges valid.graph valid'.graph r.2⟩

/-- A change tells the same and leaves histories that mirror each other, or fails in both. -/
theorem change (mirrors : Mirrors h h') (valid : h.Valid) (valid' : h'.Valid) (c : Change) :
    c.reply h' = c.reply h ∧ Alike Mirrors (c.apply h) (c.apply h') := by
  unfold Change.reply Change.apply
  cases c with
  | addImage id =>
      obtain ⟨issued, after⟩ := mirrors.addImage id
      dsimp only
      rw [issued]
      exact ⟨rfl, .ok after⟩
  | addDuplicate existing duplicate =>
      have same := mirrors.addDuplicate existing duplicate
      dsimp only
      generalize h.addDuplicate existing duplicate = result at *
      generalize h'.addDuplicate existing duplicate = result' at *
      refine ⟨?_, same⟩
      cases same <;> rfl
  | addRelations relations => exact ⟨rfl, .ok (mirrors.addRelations relations)⟩
  | addDerivation parent child actions =>
      obtain ⟨issued, after⟩ := mirrors.addDerivation parent child actions
      dsimp only
      rw [issued]
      exact ⟨rfl, .ok after⟩
  | reduceEdges =>
      have same := mirrors.reduceEdges valid valid'
      dsimp only
      generalize h.reduceEdges = result at *
      generalize h'.reduceEdges = result' at *
      cases same with
      | error cause => exact ⟨rfl, .error cause⟩
      | ok both =>
          dsimp only [Except.map]
          rw [both.1]
          exact ⟨rfl, .ok both.2⟩

/-- Along a run the replies are the same and the histories go on mirroring each other. -/
theorem run (mirrors : Mirrors h h') (valid : h.Valid) (valid' : h'.Valid) (cs : List Change) :
    h'.replies cs = h.replies cs ∧ Mirrors (h.after cs) (h'.after cs) := by
  induction cs generalizing h h' with
  | nil => exact ⟨rfl, mirrors⟩
  | cons c cs ih =>
      obtain ⟨told, result⟩ := mirrors.change valid valid' c
      unfold replies after
      rw [told]
      cases done : c.apply h with
      | error cause =>
          rw [done] at result
          cases done' : c.apply h' with
          | ok k' => rw [done'] at result; cases result
          | error cause' =>
              obtain ⟨same, after⟩ := ih mirrors valid valid'
              exact ⟨congrArg _ same, after⟩
      | ok k =>
          rw [done] at result
          cases done' : c.apply h' with
          | error cause' => rw [done'] at result; cases result
          | ok k' =>
              rw [done'] at result
              cases result with
              | ok next =>
                  obtain ⟨same, after⟩ :=
                    ih next (Change.grows valid done).valid (Change.grows valid' done').valid
                  exact ⟨congrArg _ same, after⟩

/-! ## Questions -/

theorem idsOf (mirrors : Mirrors h h') : h'.idsOf = h.idsOf := by
  funext vs
  rw [History.idsOf, mirrors.graph.vertexPayload?, History.idsOf]

theorem primaryIdsOf (mirrors : Mirrors h h') : h'.primaryIdsOf = h.primaryIdsOf := by
  funext vs
  rw [History.primaryIdsOf, mirrors.graph.vertexPayload?, History.primaryIdsOf]

theorem relations (mirrors : Mirrors h h') : h'.relations = h.relations := by
  rw [History.relations, mirrors.graph.edgeList, mirrors.relationsOf, History.relations]

theorem actions (mirrors : Mirrors h h') (parent child : ImageId) :
    h'.actions parent child = h.actions parent child := by
  unfold History.actions
  rw [mirrors.require, mirrors.require]
  have between : ∀ p c, h'.graph.payloadBetween (h'.orient p c).1 (h'.orient p c).2 =
      h.graph.payloadBetween (h.orient p c).1 (h.orient p c).2 := by
    intro p c
    rw [mirrors.orient_swap, mirrors.graph.payloadBetween]
    rfl
  simp only [between]

theorem categorize (mirrors : Mirrors h h') (id : ImageId) : h'.categorize id = h.categorize id := by
  unfold History.categorize
  rw [mirrors.require]
  simp only [(mirrors.graph.adjacentVertices _).1, (mirrors.graph.adjacentVertices _).2]

theorem cycles (mirrors : Mirrors h h') (valid : h.Valid) (valid' : h'.Valid) :
    h'.cycles = h.cycles := by
  rw [History.cycles, mirrors.idsOf, mirrors.graph.cyclicGroups valid.graph valid'.graph,
    History.cycles]

theorem recorded_eq (mirrors : Mirrors h h') : h'.Recorded = h.Recorded := by
  funext a b
  rw [Recorded, mirrors.relations, Recorded]

theorem finer (mirrors : Mirrors h h') (valid : h.Valid) : h.Finer h' := by
  intro v w a b holds_a holds_b holds_a'
  rw [holds_iff, mirrors.graph.vertexPayload?, ← holds_iff] at holds_a' ⊢
  rwa [valid.holder_unique w v a holds_a' holds_a]

theorem relationCloud (mirrors : Mirrors h h') (valid : h.Valid) (valid' : h'.Valid) :
    Alike (fun cloud cloud' => h.graph.ClosureFits → cloud' = cloud)
      h.relationCloud h'.relationCloud := by
  refine (mirrors.finer valid).relationCloud valid valid' fun a b => ?_
  rw [mirrors.recorded_eq]

theorem sortedImages (mirrors : Mirrors h h') (valid : h.Valid) (valid' : h'.Valid) :
    Alike (fun _ _ => True) h.sortedImages h'.sortedImages := by
  have same := mirrors.graph.topologicalSort valid.graph valid'.graph
  unfold History.sortedImages
  generalize h.graph.topologicalSort = result at *
  generalize h'.graph.topologicalSort = result' at *
  cases same with
  | error cause => exact .error _
  | ok same => exact .ok trivial

end Mirrors

/-! ## Longest chains -/

/-- The first file of the version at a vertex. -/
def primaryAt? (h : History) (v : Vertex) : Option ImageId := (h.filesAt v).head?

theorem primaryIdsOf_eq_filterMap (h : History) (vs : List Vertex) :
    h.primaryIdsOf vs = vs.filterMap h.primaryAt? := by
  unfold primaryIdsOf primaryAt? filesAt
  rw [List.filterMap_filterMap]
  refine List.filterMap_congr fun v _ => ?_
  cases h.graph.vertexPayload? v <;> rfl

/-- Live vertices have a first file each. -/
theorem Valid.primaryIdsOf_eq {h : History} (valid : h.Valid) :
    ∃ first : Vertex → ImageId,
      (∀ v, h.graph.containsVertex v = true → h.primaryAt? v = some (first v)) ∧
      ∀ vs, (∀ v ∈ vs, h.graph.containsVertex v = true) → h.primaryIdsOf vs = vs.map first := by
  have first : ∀ v, ∃ id, h.graph.containsVertex v = true → h.primaryAt? v = some id := by
    intro v
    cases live : h.graph.containsVertex v with
    | false => exact ⟨⟨0⟩, fun bad => nomatch bad⟩
    | true =>
        obtain ⟨id, holds⟩ := valid.exists_holds live
        have some_first : h.primaryAt? v ≠ none := fun none_first =>
          List.ne_nil_of_mem holds (List.head?_eq_none_iff.mp none_first)
        obtain ⟨primary, is_primary⟩ := Option.ne_none_iff_exists'.mp some_first
        exact ⟨primary, fun _ => is_primary⟩
  choose first found using first
  refine ⟨first, found, fun vs live => ?_⟩
  rw [primaryIdsOf_eq_filterMap, ← List.filterMap_eq_map]
  exact List.filterMap_congr fun v listed => found v (live v listed)

theorem Mirrors.historyOf {h h' : History} (mirrors : Mirrors h h') (valid : h.Valid)
    (valid' : h'.Valid) (id : ImageId) :
    Alike (fun chain chain' => chain'.length = chain.length ∧ chain'.head? = chain.head? ∧
        chain'.getLast? = chain.getLast?) (h.historyOf id) (h'.historyOf id) := by
  unfold History.historyOf
  rw [mirrors.require, mirrors.primaryIdsOf, mirrors.config]
  cases h.require id with
  | error cause => exact .error cause
  | ok v =>
      have same := mirrors.graph.longestPath valid.graph valid'.graph v
      have live := fun path found u listed =>
        @Graph.live_of_longestPath _ _ h.graph v path found u listed
      have live' := fun path found u listed =>
        @Graph.live_of_longestPath _ _ h'.graph v path found u listed
      simp only [mirrors.graph.containsVertex] at live'
      obtain ⟨first, -, primaries⟩ := valid.primaryIdsOf_eq
      simp only [bind, Except.bind]
      generalize h.graph.longestPath v = result at *
      generalize h'.graph.longestPath v = result' at *
      cases same with
      | error cause => exact .error _
      | @ok path path' same =>
          obtain ⟨length, head, last⟩ := same
          have live := live path rfl
          have live' := live' path' rfl
          refine .ok ?_
          cases h.config.direction with
          | parentToChild =>
              dsimp only [Direction.opposite]
              rw [primaries path live, primaries path'.reverse (by simpa using live')]
              simp [length, head, last]
          | childToParent =>
              dsimp only [Direction.opposite]
              rw [primaries path.reverse (by simpa using live), primaries path' live']
              simp [length, head, last]

/-! ## The direction is not seen -/

/-- Two histories answer in the same way. Of the longest chains of an image one may be chosen here
and another there. A cloud takes handles for the chains that it is read off. -/
structure AnswersAlike (h h' : History) : Prop where
  vertexFor? : ∀ id, h'.vertexFor? id = h.vertexFor? id
  relations : h'.relations = h.relations
  actions : ∀ parent child, h'.actions parent child = h.actions parent child
  roots : h'.roots = h.roots
  leaves : h'.leaves = h.leaves
  categorize : ∀ id, h'.categorize id = h.categorize id
  cycles : h'.cycles = h.cycles
  relationCloud : Alike (fun cloud cloud' => h.graph.ClosureFits → cloud' = cloud)
    h.relationCloud h'.relationCloud
  sortedImages : Alike (fun _ _ => True) h.sortedImages h'.sortedImages
  historyOf : ∀ id, Alike (fun chain chain' => chain'.length = chain.length ∧
    chain'.head? = chain.head? ∧ chain'.getLast? = chain.getLast?) (h.historyOf id) (h'.historyOf id)

theorem AnswersAlike.refl (h : History) : AnswersAlike h h where
  vertexFor? _ := rfl
  relations := rfl
  actions _ _ := rfl
  roots := rfl
  leaves := rfl
  categorize _ := rfl
  cycles := rfl
  relationCloud := Alike.refl (fun _ _ => rfl) _
  sortedImages := Alike.refl (fun _ => trivial) _
  historyOf _ := Alike.refl (fun _ => ⟨rfl, rfl, rfl⟩) _

theorem Mirrors.answersAlike {h h' : History} (mirrors : Mirrors h h') (valid : h.Valid)
    (valid' : h'.Valid) : AnswersAlike h h' where
  vertexFor? := mirrors.vertexFor?
  relations := mirrors.relations
  actions := mirrors.actions
  roots := by rw [roots, mirrors.idsOf, Graph.roots, mirrors.graph.extremes]; rfl
  leaves := by rw [leaves, mirrors.idsOf, Graph.leaves, mirrors.graph.extremes]; rfl
  categorize := mirrors.categorize
  cycles := mirrors.cycles valid valid'
  relationCloud := mirrors.relationCloud valid valid'
  sortedImages := mirrors.sortedImages valid valid'
  historyOf := mirrors.historyOf valid valid'

/-- Another direction is the opposite one. -/
theorem eq_or_mirrors (config : Config) (direction : Direction) :
    { config with direction } = config ∨
      Mirrors (empty config) (empty { config with direction }) := by
  have opposite := mirrors_empty config
  obtain ⟨own, _, _⟩ := config
  cases own <;> cases direction
  · exact .inl rfl
  · exact .inr opposite
  · exact .inr opposite
  · exact .inl rfl

/-- In whichever direction the edges are stored, the same changes tell the same and are followed by
the same answers. -/
theorem direction_not_seen (config : Config) (direction : Direction) (cs : List Change) :
    (empty { config with direction }).replies cs = (empty config).replies cs ∧
      AnswersAlike ((empty config).after cs) ((empty { config with direction }).after cs) := by
  rcases eq_or_mirrors config direction with same | mirrors
  · rw [same]
    exact ⟨rfl, .refl _⟩
  · have valid := valid_empty config
    have valid' := valid_empty { config with direction }
    obtain ⟨told, after⟩ := mirrors.run valid valid' cs
    exact ⟨told, after.answersAlike (grows_after valid cs).valid (grows_after valid' cs).valid⟩

end Provenance.History
