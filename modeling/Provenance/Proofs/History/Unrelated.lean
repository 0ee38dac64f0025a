import Mathlib.Logic.Relation
import Provenance.Proofs.Graph.Crowned
import Provenance.Proofs.History.Cycles
import Provenance.Proofs.History.Listings
import Provenance.Proofs.History.Loading
import Provenance.Proofs.History.Paths
import Provenance.Proofs.History.Runs

/-! # Unrelated images

Records that name no image of a weakly connected component change nothing in it, whatever they join
and whatever cycles they make elsewhere. So every question about an image of the component is
answered as before, in the same order and with the same errors.
-/

open Relation (EqvGen)

namespace Provenance

variable {inside : Vertex → Prop}

/-- A weakly connected component. -/
theorem Graph.Valid.isolated_component {N E : Type} {g : Graph N E} (valid : g.Valid) {v : Vertex}
    (live : g.containsVertex v = true) : g.Isolated (EqvGen g.Joined v) where
  live w linked := by
    have same : ∀ {s t}, EqvGen g.Joined s t →
        (g.containsVertex s = true ↔ g.containsVertex t = true) := by
      intro s t linked
      induction linked with
      | rel s t joined =>
          obtain ⟨source, target⟩ := valid.live_of_joined joined
          exact iff_of_true source target
      | refl => exact .rfl
      | symm s t _ ih => exact ih.symm
      | trans s t u _ _ first second => exact first.trans second
    exact (same linked).mp live
  joined s t joined :=
    ⟨fun linked => linked.trans _ _ _ (.rel s t joined),
      fun linked => linked.trans _ _ _ (.symm s t (.rel s t joined))⟩

namespace History

variable {h h' : History}

/-! ## Changes elsewhere -/

theorem undisturbed_addImage (valid : h.Valid) (isolated : h.graph.Isolated inside) (id : ImageId) :
    Graph.Undisturbed inside h.graph (h.addImage id).2.graph := by
  cases found : h.vertexFor? id with
  | some v =>
      rw [addImage_of_known found]
      exact .refl valid.graph
  | none =>
      rw [addImage_of_unknown found]
      exact Graph.undisturbed_addVertexWith valid.graph isolated (.ofId id)

/-- The vertex of an image that no version of the part holds is outside, or the null handle. -/
theorem outside_addImage (valid : h.Valid) (isolated : h.graph.Isolated inside) {id : ImageId}
    (apart : ∀ u, inside u → ¬ h.Holds u id) : ¬ inside (h.addImage id).1 := by
  intro here
  have live := isolated.live _ here
  cases found : h.vertexFor? id with
  | some v =>
      rw [addImage_of_known found] at here
      exact apart v here (holds_of_vertexFor? found)
  | none =>
      rw [addImage_of_unknown found, Graph.addVertexWith_dead valid.graph] at live
      cases live

theorem undisturbed_recorded {g : Graph Version Derivation} (valid : g.Valid) {s t : Vertex}
    (source_out : ¬ inside s) (target_out : ¬ inside t) (actions : List Action) :
    Graph.Undisturbed inside g (recorded g s t actions).2 := by
  unfold recorded
  split
  next e found => exact Graph.undisturbed_modifyEdge valid e _
  next => exact Graph.undisturbed_addEdgeWith valid source_out target_out _

/-- The files of the part stay the same. -/
theorem holds_of_undisturbed (undisturbed : Graph.Undisturbed inside h.graph h'.graph) {u : Vertex}
    (here : inside u) (id : ImageId) : h'.Holds u id ↔ h.Holds u id := by
  rw [holds_iff, holds_iff, undisturbed.vertexPayload? u here]

theorem undisturbed_addDerivation (valid : h.Valid) (isolated : h.graph.Isolated inside)
    {parent child : ImageId} (parent_apart : ∀ u, inside u → ¬ h.Holds u parent)
    (child_apart : ∀ u, inside u → ¬ h.Holds u child) (actions : List Action) :
    Graph.Undisturbed inside h.graph (h.addDerivation parent child actions).2.graph := by
  have first := undisturbed_addImage valid isolated parent
  have first_valid := (grows_addImage valid parent).valid
  have first_isolated := first.isolated valid.graph isolated
  have second := undisturbed_addImage first_valid first_isolated child
  have parent_out := outside_addImage valid isolated parent_apart
  have child_out := outside_addImage first_valid first_isolated fun u here holds =>
    child_apart u here ((holds_of_undisturbed first here child).mp holds)
  rw [addDerivation_eq]
  refine (first.trans second).trans (undisturbed_recorded second.valid ?_ ?_ actions)
  · unfold orient
    cases ((h.addImage parent).2.addImage child).2.config.direction with
    | parentToChild => exact parent_out
    | childToParent => exact child_out
  · unfold orient
    cases ((h.addImage parent).2.addImage child).2.config.direction with
    | parentToChild => exact child_out
    | childToParent => exact parent_out

theorem undisturbed_addRelations (valid : h.Valid) (isolated : h.graph.Isolated inside)
    {records : List Relation}
    (apart : ∀ r ∈ records, ∀ u, inside u → ¬ h.Holds u r.object ∧ ¬ h.Holds u r.subject) :
    Graph.Undisturbed inside h.graph (h.addRelations records).graph := by
  induction records generalizing h with
  | nil => exact .refl valid.graph
  | cons r records ih =>
      obtain ⟨first, later⟩ := List.forall_mem_cons.mp apart
      have step := undisturbed_addDerivation valid isolated (fun u here => (first u here).1)
        (fun u here => (first u here).2) []
      refine step.trans (ih (grows_addDerivation valid r.object r.subject []).valid
        (step.isolated valid.graph isolated) fun r' listed u here => ?_)
      rw [holds_of_undisturbed step here, holds_of_undisturbed step here]
      exact later r' listed u here

/-! ## Answers -/

/-- The second history comes from the first, and is like it in a part without edges to the rest. -/
structure Spares (inside : Vertex → Prop) (h h' : History) : Prop where
  valid : h.Valid
  valid' : h'.Valid
  config : h'.config = h.config
  vertexFor? : ∀ id v, h.vertexFor? id = some v → h'.vertexFor? id = some v
  isolated : h.graph.Isolated inside
  graph : Graph.Undisturbed inside h.graph h'.graph

namespace Spares

variable {id b : ImageId} {v w : Vertex} {vs : List Vertex}

theorem require (spares : Spares inside h h') (found : h.vertexFor? id = some v) :
    h.require id = .ok v ∧ h'.require id = .ok v := by
  rw [History.require, History.require, spares.vertexFor? id v found, found]
  exact ⟨rfl, rfl⟩

theorem idsOf (spares : Spares inside h h') (within : ∀ u ∈ vs, inside u) :
    h'.idsOf vs = h.idsOf vs := by
  rw [History.idsOf, History.idsOf, List.filterMap_congr fun u listed =>
    spares.graph.vertexPayload? u (within u listed)]

theorem primaryIdsOf (spares : Spares inside h h') (within : ∀ u ∈ vs, inside u) :
    h'.primaryIdsOf vs = h.primaryIdsOf vs := by
  rw [History.primaryIdsOf, History.primaryIdsOf, List.filterMap_congr fun u listed =>
    spares.graph.vertexPayload? u (within u listed)]

theorem categorize (spares : Spares inside h h') (found : h.vertexFor? id = some v)
    (here : inside v) : h'.categorize id = h.categorize id := by
  obtain ⟨before, after⟩ := spares.require found
  rw [History.categorize, History.categorize, before, after]
  simp only [bind, Except.bind, spares.graph.adjacentVertices here]

theorem endsToward (spares : Spares inside h h') (here : inside v) (toward : Toward) :
    h'.endsToward v toward = h.endsToward v toward ∧ ∀ u ∈ h.endsToward v toward, inside u := by
  obtain ⟨found, within⟩ :=
    spares.graph.discovered spares.valid.graph spares.isolated .breadthFirst here toward
  have searched : h'.graph.breadthFirst v toward = h.graph.breadthFirst v toward := found
  constructor
  · unfold History.endsToward
    rw [searched]
    refine List.filter_congr fun u listed => ?_
    rw [spares.graph.adjacentVertices (within u listed)]
  · exact fun u listed => within u (List.mem_of_mem_filter listed)

theorem endsFor (spares : Spares inside h h') (found : h.vertexFor? id = some v)
    (here : inside v) (toward : Toward) : h'.endsFor id toward = h.endsFor id toward := by
  obtain ⟨before, after⟩ := spares.require found
  obtain ⟨same, within⟩ := spares.endsToward here toward
  simp only [History.endsFor, before, after, bind, Except.bind, same, spares.idsOf within]

theorem historyOf (spares : Spares inside h h') (found : h.vertexFor? id = some v)
    (here : inside v) : h'.historyOf id = h.historyOf id := by
  obtain ⟨before, after⟩ := spares.require found
  obtain ⟨same, within⟩ := spares.graph.longestPath spares.valid.graph spares.isolated here
  simp only [History.historyOf, before, after, bind, Except.bind, same, spares.config]
  cases searched : h.graph.longestPath v with
  | error cause => rfl
  | ok path =>
      have listed := within path searched
      simp only [asked, pure, Except.pure]
      refine congrArg Except.ok (spares.primaryIdsOf fun u member => ?_)
      cases side : h.config.direction with
      | parentToChild => exact listed u (by rwa [side] at member)
      | childToParent => exact listed u (List.mem_reverse.mp (by rwa [side] at member))

theorem pathBetween (spares : Spares inside h h') (found : h.vertexFor? id = some v)
    (here : inside v) (found' : h.vertexFor? b = some w) (there : inside w) :
    h'.pathBetween id b = h.pathBetween id b := by
  obtain ⟨same, within⟩ := spares.graph.shortestPath spares.valid.graph spares.isolated here there
  rw [pathBetween_of_found found found', pathBetween_of_found (spares.vertexFor? id v found)
    (spares.vertexFor? b w found'), same]
  cases searched : h.graph.shortestPath v w with
  | error cause => rfl
  | ok path => exact congrArg Except.ok (spares.primaryIdsOf (within path searched))

end Spares

theorem Valid.rooted_eq (valid : h.Valid) : h.rooted = h.graph.crown := by
  unfold History.rooted Graph.crown orient
  rw [valid.direction]

/-- There are handles for a vertex above all origins and for the edges to them. -/
structure Roomy (h : History) : Prop where
  vertices : h.size < Handle.nullIndex
  edges : h.graph.edgeCount + h.graph.roots.length ≤ Handle.nullIndex

/-- Where there is none for the vertex, no version is listed, whatever was derived. -/
theorem derivedFrom_of_full (valid : h.Valid) (full : h.graph.vertices.isFull = true) {id : ImageId}
    {v : Vertex} (found : h.vertexFor? id = some v) (order : SearchOrder) :
    h.derivedFrom id order = .ok [] := by
  have top : h.rooted.1 = .null := by
    unfold History.rooted
    exact congrArg Prod.fst (Graph.addVertexWith_of_full full _)
  have missing : h.rooted.2.snapshot.number? .null = none :=
    Graph.number?_eq_none.mpr valid.rooted.null_dead
  have nothing : h.rooted.2.dominatedBy v h.rooted.1 order = [] := by
    unfold Graph.dominatedBy
    dsimp only
    rw [top, missing]
    cases h.rooted.2.snapshot.number? v <;> rfl
  simp only [History.derivedFrom, History.require, found, bind, Except.bind, nothing]
  rfl

theorem Roomy.crowns (roomy : h.Roomy) (valid : h.Valid) :
    Graph.Crowns h.rooted.1 h.graph h.rooted.2 := by
  rw [valid.rooted_eq]
  exact Graph.crowns_crown valid.graph roomy.vertices roomy.edges

theorem Spares.derivedFrom (spares : Spares inside h h') (roomy : h.Roomy) (roomy' : h'.Roomy)
    {id : ImageId} {v : Vertex} (found : h.vertexFor? id = some v) (here : inside v)
    (order : SearchOrder) : h'.derivedFrom id order = h.derivedFrom id order := by
  obtain ⟨before, after⟩ := spares.require found
  obtain ⟨same, within⟩ := (roomy.crowns spares.valid).dominatedBy (roomy'.crowns spares.valid')
    spares.graph spares.valid.graph spares.isolated here order
  simp only [History.derivedFrom, before, after, bind, Except.bind, same]
  refine congrArg Except.ok (spares.idsOf fun u listed => within u ?_)
  exact List.mem_of_mem_filter listed

/-- Records that name no image of a component do not change what is answered about one of it. What
only it leads to is told by a vertex above all origins, for which there has to be room. -/
theorem unrelated_stay_away {start : Start} {h₀ : History} (opened : start.initial = .ok h₀)
    (cs : List Change) (records : List Relation) {id : ImageId} {v : Vertex} :
    let h := h₀.after cs
    let h' := h.addRelations records
    (found : h.vertexFor? id = some v) →
    (apart : ∀ r ∈ records, ∀ u, EqvGen h.graph.Joined v u →
      ¬ h.Holds u r.object ∧ ¬ h.Holds u r.subject) →
    h'.categorize id = h.categorize id ∧
      h'.rootsFor id = h.rootsFor id ∧
      h'.leavesFor id = h.leavesFor id ∧
      h'.historyOf id = h.historyOf id ∧
      (∀ b w, h.vertexFor? b = some w → EqvGen h.graph.Joined v w →
        h'.pathBetween id b = h.pathBetween id b) ∧
      (h.Roomy → h'.Roomy → ∀ order, h'.derivedFrom id order = h.derivedFrom id order) := by
  intro h h' found apart
  obtain ⟨config, opening⟩ := Start.grows opened
  have valid : h.Valid := (grows_after opening.valid cs).valid
  have isolated := valid.graph.isolated_component (holds_of_vertexFor? found).live
  have loads := loads_addRelations valid records
  have spares : Spares (EqvGen h.graph.Joined v) h h' := {
    valid
    valid' := loads.grows.valid
    config := loads.grows.config
    vertexFor? := fun id v found => loads.grows.vertexFor? valid found
    isolated
    graph := undisturbed_addRelations valid isolated apart }
  have here : EqvGen h.graph.Joined v v := .refl v
  refine ⟨spares.categorize found here, spares.endsFor found here .roots,
    spares.endsFor found here .leaves, spares.historyOf found here,
    fun b w found' there => ?_, fun roomy roomy' order => ?_⟩
  · exact spares.pathBetween found here found' there
  · exact spares.derivedFrom roomy roomy' found here order

/-- A cycle is closed in one of two families, and the other answers as before. -/
theorem unrelated_cycle_stays_away :
    let h := (empty {}).after [.addRelations [⟨⟨2⟩, ⟨1⟩⟩, ⟨⟨4⟩, ⟨3⟩⟩]]
    let h' := h.addRelations [⟨⟨3⟩, ⟨4⟩⟩]
    h'.cycles ≠ [] ∧
      h'.categorize ⟨2⟩ = h.categorize ⟨2⟩ ∧
      h'.rootsFor ⟨2⟩ = h.rootsFor ⟨2⟩ ∧
      h'.leavesFor ⟨2⟩ = h.leavesFor ⟨2⟩ ∧
      h'.historyOf ⟨2⟩ = h.historyOf ⟨2⟩ ∧
      h'.pathBetween ⟨2⟩ ⟨1⟩ = h.pathBetween ⟨2⟩ ⟨1⟩ ∧
      ∀ order, h'.derivedFrom ⟨2⟩ order = h.derivedFrom ⟨2⟩ order := by
  intro h h'
  have opened : (Start.blank {}).initial = .ok (empty {}) := rfl
  have valid : h.Valid := (grows_after (valid_empty {}) _).valid
  have pairs : h.graph.edgePairs = [(⟨0, 0⟩, ⟨1, 0⟩), (⟨2, 0⟩, ⟨3, 0⟩)] := by decide
  have family : ∀ {u w : Vertex}, EqvGen h.graph.Joined u w → (u.index < 2 ↔ w.index < 2) := by
    intro u w linked
    induction linked with
    | rel s t joined =>
        rw [← valid.graph.mem_edgePairs, pairs] at joined
        simp only [List.mem_cons, Prod.mk.injEq, List.not_mem_nil, or_false] at joined
        rcases joined with ⟨rfl, rfl⟩ | ⟨rfl, rfl⟩ <;> decide
    | refl => exact .rfl
    | symm _ _ _ ih => exact ih.symm
    | trans _ _ _ _ _ first second => exact first.trans second
  have first : h.vertexFor? ⟨1⟩ = some ⟨0, 0⟩ := by decide
  have second : h.vertexFor? ⟨2⟩ = some ⟨1, 0⟩ := by decide
  have third : h.vertexFor? ⟨3⟩ = some ⟨2, 0⟩ := by decide
  have fourth : h.vertexFor? ⟨4⟩ = some ⟨3, 0⟩ := by decide
  have away : ∀ {id : ImageId} {w : Vertex}, h.vertexFor? id = some w → 2 ≤ w.index →
      ∀ u, EqvGen h.graph.Joined ⟨1, 0⟩ u → ¬ h.Holds u id := by
    intro id w found outside u linked holds
    obtain rfl := valid.holder_unique u w id holds (holds_of_vertexFor? found)
    exact Nat.not_lt.mpr outside ((family linked).mp (by decide))
  obtain ⟨categorize, rootsFor, leavesFor, historyOf, pathBetween, derivedFrom⟩ :=
    unrelated_stay_away opened [.addRelations [⟨⟨2⟩, ⟨1⟩⟩, ⟨⟨4⟩, ⟨3⟩⟩]] [⟨⟨3⟩, ⟨4⟩⟩] second
      fun r listed u linked => by
        obtain rfl := List.mem_singleton.mp listed
        exact ⟨away fourth (by decide) u linked, away third (by decide) u linked⟩
  have linked : EqvGen h.graph.Joined ⟨1, 0⟩ ⟨0, 0⟩ := by
    refine .symm _ _ (.rel _ _ ?_)
    rw [← valid.graph.mem_edgePairs, pairs]
    exact List.mem_cons_self
  have cyclic : h'.cycles ≠ [] := by
    have valid' : h'.Valid := (grows_addRelations valid _).valid
    intro none_found
    refine valid'.cycles_eq_nil_iff.mp none_found ⟨3⟩ (.tail (.single (b := ⟨4⟩) ?_) ?_)
    · unfold Recorded
      decide
    · unfold Recorded
      decide
  exact ⟨cyclic, categorize, rootsFor, leavesFor, historyOf, pathBetween _ _ first linked,
    derivedFrom ⟨by decide, by decide⟩ ⟨by decide, by decide⟩⟩

end History

end Provenance
