import Mathlib
import Provenance.Proofs.Digraph.Paths
import Provenance.Proofs.History.Views

/-! # What could not exist without an image

The files listed as derived from one are those of the versions that hang on its version: origins
lead to them, and every path on which one does passes through it.
-/

open Relation (TransGen ReflTransGen)

namespace Provenance.History

variable {h : History} {u v : Vertex} {id : ImageId} {order : SearchOrder}

/-- Some origin leads to another version than `v`, and none does on a path around `v`. -/
structure HangsOn (h : History) (v u : Vertex) : Prop where
  other : u ≠ v
  reached : ∃ o, h.Last .roots o ∧ ReflTransGen h.Parent o u
  through : ∀ o, h.Last .roots o → OnAllPaths h.Parent o u v

theorem hangsOn_iff : h.HangsOn v u ↔ u ≠ v ∧ h.Below v u := by
  have around : (∀ o, h.Last .roots o → OnAllPaths h.Parent o u v) ↔
      ¬ ∃ o, h.Last .roots o ∧ o ≠ v ∧ ReflTransGen (fun s t => h.Parent s t ∧ t ≠ v) o u := by
    simp only [onAllPaths_iff, not_exists, not_and, ne_comm (a := v)]
  constructor
  · rintro ⟨other, reached, through⟩
    exact ⟨other, reached, around.mp through⟩
  · rintro ⟨other, reached, only⟩
    exact ⟨other, reached, around.mpr only⟩

/-- The list is made of versions of the history that descend from `v`. With handles for the vertex
above all origins and for its edges, they are exactly those that hang on `v`. -/
structure Derives (h : History) (v : Vertex) (versions : List Vertex) : Prop where
  once : versions.Nodup
  files_once : (versions.flatMap h.filesAt).Nodup
  live : ∀ u ∈ versions, h.graph.containsVertex u = true
  top_hidden : h.rooted.1 ∉ versions
  descend : ∀ u ∈ versions, TransGen h.Parent v u
  hanging : h.Roomy → ∀ u, u ∈ versions ↔ h.HangsOn v u

/-- The vertex above all origins is none of the history. -/
theorem Valid.top_dead (valid : h.Valid) : h.graph.containsVertex h.rooted.1 = false :=
  Graph.addVertexWith_dead valid.graph default

theorem Valid.derives_nil (valid : h.Valid) (full : h.graph.vertices.isFull = true) (v : Vertex) :
    h.Derives v [] where
  once := List.nodup_nil
  files_once := List.nodup_nil
  live _ listed := nomatch listed
  top_hidden listed := nomatch listed
  descend _ listed := nomatch listed
  hanging roomy := absurd (valid.graph.vertices.isFull_iff.mp full) roomy.vertices.ne

theorem Valid.derives_descendants (valid : h.Valid) (room : h.graph.vertices.isFull = false)
    (live : h.graph.containsVertex v = true) : h.Derives v (h.descendants v order) := by
  have descend : ∀ u ∈ h.descendants v order, TransGen h.Parent v u := fun u listed =>
    valid.chain_of_mem_descendants room live listed
  have within : ∀ u ∈ h.descendants v order, h.graph.containsVertex u = true := fun u listed =>
    (valid.live_of_parents (descend u listed)).2
  exact {
    once := nodup_descendants
    files_once := idsOf_eq_flatMap h _ ▸ valid.nodup_idsOf nodup_descendants
    live := within
    top_hidden := fun listed => by
      have live := within _ listed
      rw [valid.top_dead] at live
      cases live
    descend
    hanging := fun roomy u => (valid.mem_descendants roomy live).trans hangsOn_iff.symm }

/-- However a history came about, what is derived from an image is told by the paths from all
origins, and the files of each version come together and as they are stored. -/
theorem derivedFrom_of_run {start : Start} {h₀ : History} (opened : start.initial = .ok h₀)
    (cs : List Change) {id : ImageId} {v : Vertex} :
    let h := h₀.after cs
    (found : h.vertexFor? id = some v) → ∀ order, ∃ versions : List Vertex,
      h.derivedFrom id order = .ok (versions.flatMap h.filesAt) ∧ h.Derives v versions := by
  intro h found order
  obtain ⟨config, opening⟩ := Start.grows opened
  have valid : h.Valid := (grows_after opening.valid cs).valid
  have live := (holds_of_vertexFor? found).live
  cases room : h.graph.vertices.isFull with
  | true => exact ⟨[], derivedFrom_of_full valid room found order, valid.derives_nil room v⟩
  | false =>
      refine ⟨h.descendants v order, ?_, valid.derives_descendants room live⟩
      rw [derivedFrom_of_found found, idsOf_eq_flatMap]

/-- The third image comes from the second and from a cycle without an origin, and the fourth from
the third and from another origin. -/
theorem derivedFrom_of_run_two_origins :
    let h := (empty { direction := .childToParent }).after
      [.addRelations [⟨⟨2⟩, ⟨1⟩⟩, ⟨⟨3⟩, ⟨2⟩⟩, ⟨⟨4⟩, ⟨3⟩⟩, ⟨⟨4⟩, ⟨5⟩⟩, ⟨⟨6⟩, ⟨7⟩⟩, ⟨⟨7⟩, ⟨6⟩⟩,
        ⟨⟨3⟩, ⟨6⟩⟩], .addDuplicate ⟨3⟩ ⟨30⟩]
    ∃ versions : List Vertex, h.derivedFrom ⟨2⟩ .breadthFirst = .ok [⟨3⟩, ⟨30⟩] ∧
      versions.flatMap h.filesAt = [⟨3⟩, ⟨30⟩] ∧ ∀ u, u ∈ versions ↔ h.HangsOn ⟨1, 0⟩ u := by
  intro h
  have opened : (Start.blank { direction := .childToParent }).initial =
      .ok (empty { direction := .childToParent }) := rfl
  have found : h.vertexFor? ⟨2⟩ = some ⟨1, 0⟩ := by decide
  have roomy : h.Roomy := ⟨by decide, by decide⟩
  have told : h.derivedFrom ⟨2⟩ .breadthFirst = .ok [⟨3⟩, ⟨30⟩] := by
    dsimp only [h]
    cbv
  obtain ⟨versions, listed, derives⟩ := derivedFrom_of_run opened
    [.addRelations [⟨⟨2⟩, ⟨1⟩⟩, ⟨⟨3⟩, ⟨2⟩⟩, ⟨⟨4⟩, ⟨3⟩⟩, ⟨⟨4⟩, ⟨5⟩⟩, ⟨⟨6⟩, ⟨7⟩⟩, ⟨⟨7⟩, ⟨6⟩⟩,
      ⟨⟨3⟩, ⟨6⟩⟩], .addDuplicate ⟨3⟩ ⟨30⟩] found .breadthFirst
  exact ⟨versions, told, Except.ok.inj (listed.symm.trans told), derives.hanging roomy⟩

end Provenance.History
