import Mathlib
import Provenance.Proofs.Graph.Discovered
import Provenance.Proofs.Graph.LongestPaths
import Provenance.Proofs.History.Cycles
import Provenance.Proofs.History.Found

/-! # Origins and last versions of an image

The ends listed for an image are the versions without a further step that can be reached from its
own. They come nearest first, and without cycles there is always one.
-/

open Relation (TransGen ReflTransGen)

namespace Provenance.History

variable {h : History} {toward : Toward} {u v : Vertex} {id : ImageId}

/-- The list is made of the versions at one end that are `v` itself or some steps away from it, and
none comes after one that is farther away. -/
structure EndsFrom (h : History) (toward : Toward) (v : Vertex) (versions : List Vertex) :
    Prop where
  member : ∀ u, u ∈ versions ↔ (u = v ∨ TransGen (h.Next toward) v u) ∧ h.Last toward u
  once : versions.Nodup
  files_once : (versions.flatMap h.filesAt).Nodup
  nearer : versions.Pairwise fun u w => ∀ j k, Distance (h.Next toward) v u j →
    Distance (h.Next toward) v w k → j ≤ k

/-- Vertices listed with distances that never decrease come nearest first. -/
theorem nearer_of_distances {α : Type} {r : α → α → Prop} {a : α} {bs : List α} {ks : List Nat}
    (distances : List.Forall₂ (Distance r a) bs ks) (sorted : ks.Pairwise (· ≤ ·)) :
    bs.Pairwise fun b c => ∀ j k, Distance r a b j → Distance r a c k → j ≤ k := by
  have length := distances.length_eq
  rw [List.pairwise_iff_getElem] at sorted ⊢
  intro i j inside inside' lt k l first second
  rw [first.unique (distances.get inside (length ▸ inside)),
    second.unique (distances.get inside' (length ▸ inside'))]
  exact sorted i j (length ▸ inside) (length ▸ inside') lt

theorem Valid.nearer_endsToward (valid : h.Valid) (live : h.graph.containsVertex v = true) :
    (h.endsToward v toward).Pairwise fun u w => ∀ j k, Distance (h.Next toward) v u j →
      Distance (h.Next toward) v w k → j ≤ k := by
  obtain ⟨ks, distances, sorted⟩ : ∃ ks, List.Forall₂
      (Distance (h.graph.Passes (h.graph.direction.way toward)) v)
      (h.graph.breadthFirst v toward) ks ∧ ks.Pairwise (· ≤ ·) :=
    valid.graph.distances_discovered live
  rw [valid.passes_eq] at distances
  exact (nearer_of_distances distances sorted).filter _

theorem Valid.endsFrom (valid : h.Valid) (live : h.graph.containsVertex v = true) :
    h.EndsFrom toward v (h.endsToward v toward) where
  member u := by
    rw [valid.mem_endsToward live, Relation.reflTransGen_iff_eq_or_transGen]
  once := nodup_endsToward
  files_once := idsOf_eq_flatMap h _ ▸ valid.nodup_idsOf nodup_endsToward
  nearer := valid.nearer_endsToward live

/-! ## There is an end -/

/-- Where no cycle can be reached, a version farthest away has no further step. -/
theorem Valid.exists_last (valid : h.Valid) (acyclic : ∀ w, ¬ TransGen h.Parent w w)
    (live : h.graph.containsVertex v = true) (toward : Toward) :
    ∃ u, ReflTransGen (h.Next toward) v u ∧ h.Last toward u := by
  obtain ⟨a, rfl⟩ := Graph.exists_label live
  let way := h.graph.direction.way toward
  have clear : ¬ h.graph.Snarled way (h.graph.snapshot.label a) := by
    rintro ⟨w, -, cycle⟩
    have around := valid.acyclic_iff.mpr (valid.acyclic_parents_iff.mp acyclic)
    exact around w cycle
  have answered : (h.graph.snapshot.digraph.routes? way .longest a).isSome :=
    valid.graph.routes?_isSome_iff.mpr clear
  obtain ⟨routes, found⟩ := Option.isSome_iff_exists.mp answered
  have farthest := valid.graph.farthest found
  refine ⟨_, ?_, valid.mem_extremes.mp (valid.graph.mem_extremes_of_farthest live farthest)⟩
  rw [← valid.passes_eq]
  exact farthest.steps.way

theorem EndsFrom.files_ne_nil {versions : List Vertex} (ends : h.EndsFrom toward v versions)
    (valid : h.Valid) (acyclic : ∀ w, ¬ TransGen h.Parent w w)
    (live : h.graph.containsVertex v = true) : versions.flatMap h.filesAt ≠ [] := by
  obtain ⟨u, way, last⟩ := valid.exists_last acyclic live toward
  obtain ⟨id, holds⟩ := valid.exists_holds last.live
  have listed := (ends.member u).mpr ⟨Relation.reflTransGen_iff_eq_or_transGen.mp way, last⟩
  exact List.ne_nil_of_mem (List.mem_flatMap.mpr ⟨u, listed, holds⟩)

/-! ## The image itself -/

theorem EndsFrom.mem_files_iff {versions : List Vertex} (ends : h.EndsFrom toward v versions)
    (valid : h.Valid) (holds : h.Holds v id) :
    id ∈ versions.flatMap h.filesAt ↔ ∀ w, ¬ h.Next toward v w := by
  rw [List.mem_flatMap]
  constructor
  · rintro ⟨u, listed, holds'⟩
    obtain rfl := valid.holder_unique v u id holds holds'
    exact ((ends.member v).mp listed).2.stays
  · exact fun stays => ⟨v, (ends.member v).mpr ⟨.inl rfl, holds.live, stays⟩, holds⟩

/-- Which steps there are from a version decides how its images are placed. -/
theorem Valid.categorize_iff (valid : h.Valid) (found : h.vertexFor? id = some v) :
    ((∀ w, ¬ h.Next .roots v w) ↔
      h.categorize id = .ok .origin ∨ h.categorize id = .ok .single) ∧
    ((∀ w, ¬ h.Next .leaves v w) ↔
      h.categorize id = .ok .current ∨ h.categorize id = .ok .single) := by
  have no_parents : (∀ w, ¬ h.Next .roots v w) ↔
      (h.graph.adjacentVertices v .onlyToRoots).isEmpty = true := by
    rw [List.isEmpty_iff, List.eq_nil_iff_forall_not_mem]
    exact forall_congr' fun w => not_congr valid.mem_parents.symm
  have no_children : (∀ w, ¬ h.Next .leaves v w) ↔
      (h.graph.adjacentVertices v .onlyToLeaves).isEmpty = true := by
    rw [List.isEmpty_iff, List.eq_nil_iff_forall_not_mem]
    exact forall_congr' fun w => not_congr valid.mem_children.symm
  rw [no_parents, no_children, categorize_of_found found]
  cases (h.graph.adjacentVertices v .onlyToRoots).isEmpty <;>
    cases (h.graph.adjacentVertices v .onlyToLeaves).isEmpty <;> simp

theorem endsFor_of_found (found : h.vertexFor? id = some v) (toward : Toward) :
    h.endsFor id toward = .ok ((h.endsToward v toward).flatMap h.filesAt) := by
  rw [← idsOf_eq_flatMap]
  simp only [endsFor, require, found]
  rfl

/-- However a history came about, the origins of an image are the versions without a parent among
its own and the ancestors of that, and its last versions are those without a child among its own and
the descendants. Without cycles there are some of both. -/
theorem ends_of_run {start : Start} {h₀ : History} (opened : start.initial = .ok h₀)
    (cs : List Change) {id : ImageId} {v : Vertex} :
    let h := h₀.after cs
    (found : h.vertexFor? id = some v) → ∃ origins latest : List Vertex,
      h.rootsFor id = .ok (origins.flatMap h.filesAt) ∧
      h.leavesFor id = .ok (latest.flatMap h.filesAt) ∧
      h.EndsFrom .roots v origins ∧ h.EndsFrom .leaves v latest ∧
      (id ∈ origins.flatMap h.filesAt ↔
        h.categorize id = .ok .origin ∨ h.categorize id = .ok .single) ∧
      (id ∈ latest.flatMap h.filesAt ↔
        h.categorize id = .ok .current ∨ h.categorize id = .ok .single) ∧
      ((∀ w, ¬ TransGen h.Parent w w) →
        origins.flatMap h.filesAt ≠ [] ∧ latest.flatMap h.filesAt ≠ []) := by
  intro h found
  obtain ⟨config, opening⟩ := Start.grows opened
  have valid : h.Valid := (grows_after opening.valid cs).valid
  have holds := holds_of_vertexFor? found
  have above : h.EndsFrom .roots v (h.endsToward v .roots) := valid.endsFrom holds.live
  have below : h.EndsFrom .leaves v (h.endsToward v .leaves) := valid.endsFrom holds.live
  obtain ⟨first_iff, last_iff⟩ := valid.categorize_iff found
  exact ⟨_, _, endsFor_of_found found .roots, endsFor_of_found found .leaves, above, below,
    (above.mem_files_iff valid holds).trans first_iff,
    (below.mem_files_iff valid holds).trans last_iff,
    fun acyclic => ⟨above.files_ne_nil valid acyclic holds.live,
      below.files_ne_nil valid acyclic holds.live⟩⟩

/-- The third image has a second file. Of the two origins that it goes back to, the one that it was
derived from at once is listed first, though it was recorded last. -/
theorem ends_of_run_two_origins :
    let h := (empty { direction := .childToParent }).after
      [.addRelations [⟨⟨2⟩, ⟨1⟩⟩, ⟨⟨3⟩, ⟨2⟩⟩, ⟨⟨5⟩, ⟨3⟩⟩, ⟨⟨3⟩, ⟨4⟩⟩], .addDuplicate ⟨3⟩ ⟨30⟩]
    ∃ origins latest : List Vertex, h.rootsFor ⟨30⟩ = .ok [⟨4⟩, ⟨1⟩] ∧
      origins.flatMap h.filesAt = [⟨4⟩, ⟨1⟩] ∧ h.EndsFrom .roots ⟨2, 0⟩ origins ∧
      h.EndsFrom .leaves ⟨2, 0⟩ latest ∧ latest.flatMap h.filesAt ≠ [] := by
  intro h
  have opened : (Start.blank { direction := .childToParent }).initial =
      .ok (empty { direction := .childToParent }) := rfl
  have found : h.vertexFor? ⟨30⟩ = some ⟨2, 0⟩ := by decide
  have valid : h.Valid := (grows_after (valid_empty { direction := .childToParent }) _).valid
  have acyclic : ∀ w, ¬ TransGen h.Parent w w := by
    refine valid.acyclic_parents_iff.mpr (valid.cycles_eq_nil_iff.mp ?_)
    dsimp only [h]
    cbv
  have told : h.rootsFor ⟨30⟩ = .ok [⟨4⟩, ⟨1⟩] := by
    dsimp only [h]
    cbv
  obtain ⟨origins, latest, listed, -, above, below, -, -, some_ends⟩ := ends_of_run opened
    [.addRelations [⟨⟨2⟩, ⟨1⟩⟩, ⟨⟨3⟩, ⟨2⟩⟩, ⟨⟨5⟩, ⟨3⟩⟩, ⟨⟨3⟩, ⟨4⟩⟩], .addDuplicate ⟨3⟩ ⟨30⟩] found
  exact ⟨origins, latest, told, Except.ok.inj (listed.symm.trans told), above, below,
    (some_ends acyclic).2⟩

end Provenance.History
