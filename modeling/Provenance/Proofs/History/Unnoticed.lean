import Mathlib
import Provenance.Proofs.Graph.Thinned
import Provenance.Proofs.History.Found
import Provenance.Proofs.History.Reduction

/-! # What reduction does not change

A derivation that is reduced away is bypassed by a chain of others that stay. So no question about
ancestors and descendants is answered otherwise than before, and what only one version leads to can
only become more.
-/

open Relation (TransGen ReflTransGen)

namespace Provenance.History

/-- Both questions are answered, and the answers are related. -/
def BothAnswer {ε α : Type} (related : α → α → Prop) (first second : Except ε α) : Prop :=
  ∃ a b, first = .ok a ∧ second = .ok b ∧ related a b

/-- The second history is the first one without some derivations, and with all of their chains. -/
structure Thins (h h' : History) : Prop where
  valid : h.Valid
  valid' : h'.Valid
  config : h'.config = h.config
  graph : h.graph.Thins h'.graph

theorem thins_reduceEdges {h h' : History} (valid : h.Valid) {removed : List Relation}
    (reduced : h.reduceEdges = .ok (removed, h')) : Thins h h' := by
  have valid' := (grows_reduceEdges valid reduced).valid
  obtain ⟨r, edges, result, rfl⟩ := valid.reduceEdges_eq_ok reduced
  exact ⟨valid, valid', rfl, Graph.thins_dropRemoved valid.graph result⟩

namespace Thins

variable {h h' : History} {toward : Toward} {u v w : Vertex} {id : ImageId}

/-! ## Versions -/

theorem holds (thins : Thins h h') : h'.Holds v id ↔ h.Holds v id := by
  rw [holds_iff, holds_iff, thins.graph.vertexPayload?]

theorem vertexFor? (thins : Thins h h') (id : ImageId) : h'.vertexFor? id = h.vertexFor? id := by
  apply Option.ext
  intro v
  rw [thins.valid'.vertexFor?_eq_some, thins.valid.vertexFor?_eq_some, thins.holds]

theorem idsOf (thins : Thins h h') (vs : List Vertex) : h'.idsOf vs = h.idsOf vs := by
  unfold History.idsOf
  rw [funext thins.graph.vertexPayload?]

theorem primaryIdsOf (thins : Thins h h') (vs : List Vertex) :
    h'.primaryIdsOf vs = h.primaryIdsOf vs := by
  unfold History.primaryIdsOf
  rw [funext thins.graph.vertexPayload?]

theorem size (thins : Thins h h') : h'.size = h.size := by
  have vertices : h.graph.vertexList.length = h.size := thins.valid.graph.vertices.length_handles
  have vertices' : h'.graph.vertexList.length = h'.size :=
    thins.valid'.graph.vertices.length_handles
  rw [← vertices, ← vertices', thins.graph.vertexList]

/-! ## Derivations -/

theorem next_fewer (thins : Thins h h') (toward : Toward) (next : h'.Next toward v w) :
    h.Next toward v w := by
  rw [← thins.valid'.passes_eq, thins.graph.direction] at next
  rw [← thins.valid.passes_eq]
  exact thins.graph.passes_fewer _ v w next

theorem next_chains (thins : Thins h h') (toward : Toward) :
    TransGen (h'.Next toward) v w ↔ TransGen (h.Next toward) v w := by
  rw [← thins.valid'.passes_eq, ← thins.valid.passes_eq, thins.graph.direction]
  exact thins.graph.passes_chains _

theorem next_ways (thins : Thins h h') (toward : Toward) :
    ReflTransGen (h'.Next toward) v w ↔ ReflTransGen (h.Next toward) v w := by
  rw [Relation.reflTransGen_iff_eq_or_transGen, Relation.reflTransGen_iff_eq_or_transGen,
    thins.next_chains]

theorem last (thins : Thins h h') : h'.Last toward v ↔ h.Last toward v := by
  rw [← thins.valid'.mem_extremes, thins.graph.extremes, thins.valid.mem_extremes]

/-- The chains of records stay the same. -/
theorem recorded_chains (thins : Thins h h') {a b : ImageId} :
    TransGen h'.Recorded a b ↔ TransGen h.Recorded a b := by
  have chains : ∀ {p c}, TransGen h'.Parent p c ↔ TransGen h.Parent p c :=
    fun {_ _} => thins.next_chains .leaves
  rw [thins.valid'.transGen_recorded, thins.valid.transGen_recorded]
  simp only [thins.holds, chains]

/-! ## Answers -/

theorem extremes (thins : Thins h h') (toward : Toward) :
    h'.idsOf (h'.graph.extremes toward) = h.idsOf (h.graph.extremes toward) := by
  rw [thins.graph.extremes, thins.idsOf]

theorem endsToward (thins : Thins h h') (live : h.graph.containsVertex v = true) :
    List.Perm (h.endsToward v toward) (h'.endsToward v toward) := by
  refine (List.perm_ext_iff_of_nodup nodup_endsToward nodup_endsToward).mpr fun u => ?_
  rw [thins.valid.mem_endsToward live,
    thins.valid'.mem_endsToward ((thins.graph.containsVertex v).trans live), thins.next_ways,
    thins.last]

theorem relationCloud (thins : Thins h h') (acyclic : ∀ v, ¬ TransGen h.graph.Joined v v) :
    h'.relationCloud = h.relationCloud := by
  obtain ⟨c, closed⟩ :=
    (Graph.transitiveClosure_ok_iff thins.valid.graph .vertices).mpr acyclic
  obtain ⟨c', closed'⟩ := (Graph.transitiveClosure_ok_iff thins.valid'.graph .vertices).mpr
    (thins.graph.acyclic acyclic)
  obtain ⟨pairs, payloads⟩ := thins.graph.closure closed closed'
  have records : h'.recordsIn c' = h.recordsIn c := by
    funext ends
    unfold recordsIn orient
    rw [thins.config, funext (payloads rfl)]
  rw [relationCloud_eq, relationCloud_eq, closed, closed']
  dsimp only
  rw [pairs, records]

theorem historyOf (thins : Thins h h') (acyclic : ∀ v, ¬ TransGen h.graph.Joined v v)
    (found : h.vertexFor? id = some v) :
    BothAnswer (fun chain chain' => chain'.length = chain.length ∧ chain'.head? = chain.head? ∧
      chain'.getLast? = chain.getLast?) (h.historyOf id) (h'.historyOf id) := by
  obtain ⟨path, path', searched, searched', length, first, last⟩ :=
    thins.graph.longestPath acyclic (holds_of_vertexFor? found).live
  have live : ∀ u ∈ path, h.graph.containsVertex u = true :=
    fun u => Graph.live_of_longestPath searched
  have live' : ∀ u ∈ path', h.graph.containsVertex u = true := by
    intro u listed
    rw [← thins.graph.containsVertex]
    exact Graph.live_of_longestPath searched' listed
  obtain ⟨primary, -, primaries⟩ := thins.valid.primaryIdsOf_eq
  unfold History.historyOf require
  rw [found, thins.vertexFor?, found, thins.config]
  simp only [bind, Except.bind, searched, searched', asked, thins.primaryIdsOf]
  refine ⟨_, _, rfl, rfl, ?_⟩
  cases h.config.direction with
  | parentToChild =>
      dsimp only
      rw [primaries path live, primaries path' live']
      simp [length, first, last]
  | childToParent =>
      dsimp only
      rw [primaries path.reverse (by simpa using live),
        primaries path'.reverse (by simpa using live')]
      simp [length, first, last]

theorem pathBetween (thins : Thins h h') (acyclic : ∀ v, ¬ TransGen h.graph.Joined v v)
    {a b : ImageId} (found : h.vertexFor? a = some v) (found' : h.vertexFor? b = some w) :
    BothAnswer (fun chain chain' => chain' = [] ↔ chain = []) (h.pathBetween a b)
      (h'.pathBetween a b) := by
  obtain ⟨path, path', searched, searched', same⟩ := thins.graph.shortestPath acyclic
    (holds_of_vertexFor? found).live (holds_of_vertexFor? found').live
  have live : ∀ u ∈ path, h.graph.containsVertex u = true :=
    fun u => Graph.live_of_shortestPath searched
  have live' : ∀ u ∈ path', h.graph.containsVertex u = true := by
    intro u listed
    rw [← thins.graph.containsVertex]
    exact Graph.live_of_shortestPath searched' listed
  obtain ⟨primary, -, primaries⟩ := thins.valid.primaryIdsOf_eq
  rw [pathBetween_of_found found found', pathBetween_of_found ((thins.vertexFor? a).trans found)
    ((thins.vertexFor? b).trans found'), searched, searched']
  dsimp only
  rw [thins.primaryIdsOf, primaries path live, primaries path' live']
  exact ⟨_, _, rfl, rfl, by simpa using same⟩

theorem below (thins : Thins h h') (below : h.Below v u) : h'.Below v u where
  reached := by
    obtain ⟨o, last, way⟩ := below.reached
    exact ⟨o, thins.last.mpr last, (thins.next_ways .leaves).mpr way⟩
  only := by
    rintro ⟨o, last, other, way⟩
    refine below.only ⟨o, thins.last.mp last, other, ReflTransGen.mono ?_ o u way⟩
    exact fun s t step => ⟨thins.next_fewer .leaves step.1, step.2⟩

/-- What only one version leads to is still led to by that one only. -/
theorem derivedFrom (thins : Thins h h')
    (room : h.graph.edgeCount + h.graph.roots.length ≤ Handle.nullIndex)
    (found : h.vertexFor? id = some v) (order : SearchOrder) :
    BothAnswer (· ⊆ ·) (h.derivedFrom id order) (h'.derivedFrom id order) := by
  have found' := (thins.vertexFor? id).trans found
  have live := (holds_of_vertexFor? found).live
  rcases Nat.lt_or_eq_of_le thins.valid.graph.vertexCount_le with space | full
  · have roots : h'.graph.roots = h.graph.roots := thins.graph.extremes .roots
    have roomy : h.Roomy := ⟨space, room⟩
    have roomy' : h'.Roomy := by
      refine ⟨thins.size.trans_lt space, Nat.le_trans ?_ room⟩
      rw [roots]
      exact Nat.add_le_add_right thins.graph.edgeCount_le _
    refine ⟨_, _, derivedFrom_of_found found order, derivedFrom_of_found found' order, ?_⟩
    intro x listed
    obtain ⟨u, member, holds⟩ := mem_idsOf.mp listed
    obtain ⟨other, below⟩ := (thins.valid.mem_descendants roomy live).mp member
    refine mem_idsOf.mpr ⟨u, ?_, thins.holds.mpr holds⟩
    exact (thins.valid'.mem_descendants roomy' ((thins.graph.containsVertex v).trans live)).mpr
      ⟨other, thins.below below⟩
  · -- without a handle for the vertex above the origins nothing is listed
    have full' : h'.graph.vertexCount = Handle.nullIndex := thins.size.trans full
    refine ⟨_, _, derivedFrom_of_full thins.valid (thins.valid.graph.vertices.isFull_iff.mpr full)
      found order, derivedFrom_of_full thins.valid'
      (thins.valid'.graph.vertices.isFull_iff.mpr full') found' order, List.Subset.refl _⟩

theorem categorize (thins : Thins h h') (id : ImageId) : h'.categorize id = h.categorize id := by
  have chains := fun a b => thins.recorded_chains (a := a) (b := b)
  refine categorize_congr thins.valid thins.valid' chains (fun id => ?_) id
  rw [contains, thins.vertexFor?, ← contains]

end Thins

/-! ## Reduction -/

/-- Nothing that is asked about ancestors and descendants is answered otherwise by the second
history. Of the longest and the shortest chains it may choose others. It lists no fewer files as
reached through an image only; this takes handles for the edges from a vertex above the origins. -/
structure AnswersKept (h h' : History) : Prop where
  relationCloud : h'.relationCloud = h.relationCloud
  roots : h'.roots = h.roots
  leaves : h'.leaves = h.leaves
  size : h'.size = h.size
  vertexFor? : ∀ id, h'.vertexFor? id = h.vertexFor? id
  categorize : ∀ id, h'.categorize id = h.categorize id
  rootsFor : ∀ id, h.contains id = true → BothAnswer List.Perm (h.rootsFor id) (h'.rootsFor id)
  leavesFor : ∀ id, h.contains id = true → BothAnswer List.Perm (h.leavesFor id) (h'.leavesFor id)
  historyOf : ∀ id, h.contains id = true → BothAnswer (fun chain chain' =>
    chain'.length = chain.length ∧ chain'.head? = chain.head? ∧ chain'.getLast? = chain.getLast?)
      (h.historyOf id) (h'.historyOf id)
  pathBetween : ∀ a b, h.contains a = true → h.contains b = true →
    BothAnswer (fun chain chain' => chain' = [] ↔ chain = []) (h.pathBetween a b)
      (h'.pathBetween a b)
  derivedFrom : h.graph.edgeCount + h.graph.roots.length ≤ Handle.nullIndex →
    ∀ id order, h.contains id = true →
      BothAnswer (· ⊆ ·) (h.derivedFrom id order) (h'.derivedFrom id order)

theorem Thins.answersKept {h h' : History} (thins : Thins h h')
    (acyclic : ∀ v, ¬ TransGen h.graph.Joined v v) : AnswersKept h h' := by
  have vertex : ∀ {id}, h.contains id = true → ∃ v, h.vertexFor? id = some v :=
    Option.isSome_iff_exists.mp
  have ends : ∀ {id}, h.contains id = true → ∀ toward,
      BothAnswer List.Perm (h.endsFor id toward) (h'.endsFor id toward) := by
    intro id known toward
    obtain ⟨v, found⟩ := vertex known
    have found' := (thins.vertexFor? id).trans found
    have same : List.Perm (h.endsToward v toward) (h'.endsToward v toward) :=
      thins.endsToward (holds_of_vertexFor? found).live
    simp only [endsFor, require, found, found', bind, Except.bind]
    refine ⟨_, _, rfl, rfl, ?_⟩
    rw [thins.idsOf]
    exact (same.filterMap _).flatMap_right _
  exact {
    relationCloud := thins.relationCloud acyclic
    roots := thins.extremes .roots
    leaves := thins.extremes .leaves
    size := thins.size
    vertexFor? := thins.vertexFor?
    categorize := thins.categorize
    rootsFor := fun id known => ends known .roots
    leavesFor := fun id known => ends known .leaves
    historyOf := fun id known => by
      obtain ⟨v, found⟩ := vertex known
      exact thins.historyOf acyclic found
    pathBetween := fun a b known known' => by
      obtain ⟨v, found⟩ := vertex known
      obtain ⟨w, found'⟩ := vertex known'
      exact thins.pathBetween acyclic found found'
    derivedFrom := fun room id order known => by
      obtain ⟨v, found⟩ := vertex known
      exact thins.derivedFrom room found order }

/-- A history in which no image descends from itself can be reduced, and nothing that is asked about
ancestors and descendants tells whether it was. -/
theorem reduction_unnoticed {start : Start} {h₀ : History} (opened : start.initial = .ok h₀)
    (cs : List Change) :
    let h := h₀.after cs
    (acyclic : ∀ a, ¬ TransGen h.Recorded a a) →
    ∃ removed h', h.reduceEdges = .ok (removed, h') ∧ AnswersKept h h' := by
  intro h acyclic
  obtain ⟨config, opening⟩ := Start.grows opened
  have valid : h.Valid := (grows_after opening.valid cs).valid
  obtain ⟨⟨removed, h'⟩, reduced⟩ := valid.reduceEdges_ok_iff.mpr acyclic
  exact ⟨removed, h', reduced, (thins_reduceEdges valid reduced).answersKept
    (valid.acyclic_iff.mpr acyclic)⟩

/-- The first image is a parent of the third and of its parent. Without the shorter way the third is
reached through the second only. -/
theorem reduction_unnoticed_shortcut :
    let h := (empty {}).after [.addRelations [⟨⟨3⟩, ⟨1⟩⟩, ⟨⟨2⟩, ⟨1⟩⟩, ⟨⟨3⟩, ⟨2⟩⟩]]
    ∃ h', h.reduceEdges = .ok ([⟨⟨3⟩, ⟨1⟩⟩], h') ∧ AnswersKept h h' ∧
      h.derivedFrom ⟨2⟩ .breadthFirst = .ok [] ∧ h'.derivedFrom ⟨2⟩ .breadthFirst = .ok [⟨3⟩] := by
  intro h
  have opened : (Start.blank {}).initial = .ok (empty {}) := rfl
  have valid : h.Valid := (grows_after (valid_empty {}) _).valid
  have acyclic : ∀ a, ¬ TransGen h.Recorded a a := by
    refine valid.cycles_eq_nil_iff.mp ?_
    dsimp only [h]
    cbv
  obtain ⟨removed, h', reduced, kept⟩ := reduction_unnoticed opened
    [.addRelations [⟨⟨3⟩, ⟨1⟩⟩, ⟨⟨2⟩, ⟨1⟩⟩, ⟨⟨3⟩, ⟨2⟩⟩]] acyclic
  have removes : h.reduceEdges.map Prod.fst = .ok [⟨⟨3⟩, ⟨1⟩⟩] := by
    dsimp only [h]
    cbv
  have before : h.derivedFrom ⟨2⟩ .breadthFirst = .ok [] := by
    dsimp only [h]
    cbv
  have after : (h.reduceEdges.map Prod.snd).bind (·.derivedFrom ⟨2⟩ .breadthFirst) =
      .ok [⟨3⟩] := by
    dsimp only [h]
    cbv
  have same : h.reduceEdges = .ok (removed, h') := reduced
  rw [same] at removes after
  obtain rfl : removed = [⟨⟨3⟩, ⟨1⟩⟩] := Except.ok.inj removes
  exact ⟨h', reduced, kept, before, after⟩

end Provenance.History
