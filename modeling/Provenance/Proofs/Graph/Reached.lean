import Provenance.Proofs.Graph.Derived
import Provenance.Proofs.Graph.Runs

/-! # Reached graphs

A graph is reached if a run from an empty one ends with it. Closures and reductions are made anew by
such a run of their own, so what holds of every reached graph holds of them as well.
-/

namespace Provenance.Graph

variable {N E : Type} [Inhabited N] [Inhabited E]

/-- A run leads from the first graph to the second. -/
def Continues (g g' : Graph N E) : Prop := ∃ ms, g.after ms = g'

theorem after_append (g : Graph N E) (ms ms' : List (Mutation N E)) :
    g.after (ms ++ ms') = (g.after ms).after ms' := List.foldl_append

namespace Continues

variable {g g' g'' : Graph N E}

theorem refl (g : Graph N E) : Continues g g := ⟨[], rfl⟩

theorem trans (first : Continues g g') (second : Continues g' g'') : Continues g g'' := by
  obtain ⟨ms, rfl⟩ := first
  obtain ⟨ms', rfl⟩ := second
  exact ⟨ms ++ ms', after_append g ms ms'⟩

theorem step (g : Graph N E) (m : Mutation N E) : Continues g (m.apply g).2 := ⟨[m], rfl⟩

theorem foldl {β : Type} {f : Graph N E → β → Graph N E} (each : ∀ g b, Continues g (f g b))
    (bs : List β) (g : Graph N E) : Continues g (bs.foldl f g) := by
  induction bs generalizing g with
  | nil => exact .refl g
  | cons b bs ih => exact (each g b).trans (ih _)

end Continues

/-- The graphs that there can be. -/
def Reached (g : Graph N E) : Prop := ∃ direction, Continues (empty direction) g

theorem Reached.valid {g : Graph N E} (reached : g.Reached) : g.Valid := by
  obtain ⟨direction, ms, rfl⟩ := reached
  exact valid_after (valid_empty direction) ms

/-! ## Derived graphs -/

theorem continues_skeleton (direction : Direction) (n : Nat) :
    Continues (empty direction) (skeleton direction n : Copy N E n).graph := by
  induction n with
  | zero => exact .refl _
  | succ n ih => exact ih.trans (.step _ .addVertex)

theorem valid_skeleton (direction : Direction) (n : Nat) :
    (skeleton direction n : Copy N E n).graph.Valid :=
  Reached.valid ⟨direction, continues_skeleton direction n⟩

theorem continues_addEdges {n : Nat} (copy : Copy N E n) (pairs : List (Fin n × Fin n)) :
    Continues copy.graph (copy.addEdges pairs).graph := by
  refine .foldl (fun g pair => ?_) pairs copy.graph
  exact .step g (.addEdge (copy.vertices.get pair.1) (copy.vertices.get pair.2))

theorem continues_copyPayloads (g : Graph N E) (t : Snapshot) (flags : CopyFlags)
    (copy : Copy N E t.size) : Continues copy.graph (g.copyPayloads t flags copy).graph := by
  have vertices : ∀ copy : Copy N E t.size,
      Continues copy.graph (g.copyVertexPayloads t copy).graph := by
    intro copy
    refine .foldl (fun h i => ?_) _ _
    split
    next payload _ => exact .step h (.setVertex (copy.vertices.get i) payload)
    next => exact .refl h
  have edges : ∀ copy : Copy N E t.size, Continues copy.graph (g.copyEdgePayloads t copy).graph := by
    intro copy
    refine .foldl (fun h e => ?_) _ _
    split
    next copied payload _ _ => exact .step h (.setEdge copied payload)
    next => exact .refl h
  unfold copyPayloads
  cases flags.vertexPayloads <;> cases flags.edgePayloads
  · exact .refl _
  · exact edges copy
  · exact vertices copy
  · exact (vertices copy).trans (edges _)

theorem continues_transitiveClosure {g c : Graph N E} {flags : CopyFlags}
    (closed : g.transitiveClosure flags = .ok c) : Continues (empty g.direction) c := by
  obtain ⟨reach, -, rfl⟩ := exists_reach_of_closure closed
  exact ((continues_skeleton _ _).trans (continues_addEdges _ _)).trans
    (continues_copyPayloads _ _ _ _)

theorem continues_transitiveReduction {g r : Graph N E} {flags : CopyFlags} {removed : List Edge}
    (reduced : g.transitiveReductionWithRemoved flags = .ok (r, removed)) :
    Continues (empty g.direction) r := by
  obtain ⟨reach, reduction, -, rfl, rfl, -⟩ := exists_reach_of_reduction reduced
  exact ((continues_skeleton _ _).trans (continues_addEdges _ _)).trans
    (continues_copyPayloads _ _ _ _)

end Provenance.Graph
