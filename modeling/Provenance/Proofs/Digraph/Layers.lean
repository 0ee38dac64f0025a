import Provenance.Digraph.BreadthFirst
import Provenance.Proofs.Digraph.Ways

/-! # Breadth-first search

The queue is taken layer by layer: a layer is made of the new neighbours of the layer before it, in
the order in which that layer meets them. The layers from a given one on hold what can be reached
from it without a vertex that has been seen, each vertex once.
-/

open Relation (TransGen ReflTransGen)

namespace Provenance

variable {n : Nat}

namespace VertexSet

theorem mem_mark {s : VertexSet n} {vs : List (Fin n)} {v : Fin n} :
    v ∈ (s.mark vs).1 ↔ v ∈ vs ∧ v ∉ s := by
  induction vs generalizing s with
  | nil => simp [mark]
  | cons w vs ih =>
      simp only [mark]
      split
      · rw [ih, List.mem_cons]
        grind
      · rw [List.mem_cons, ih, mem_insert, List.mem_cons]
        grind

theorem mem_marked {s : VertexSet n} {vs : List (Fin n)} {v : Fin n} :
    v ∈ (s.mark vs).2 ↔ v ∈ (s.mark vs).1 ∨ v ∈ s := by
  induction vs generalizing s with
  | nil => simp [mark]
  | cons w vs ih =>
      simp only [mark]
      split
      · exact ih
      · rw [ih, mem_insert, List.mem_cons]
        grind

theorem nodup_mark (s : VertexSet n) (vs : List (Fin n)) : (s.mark vs).1.Nodup := by
  induction vs generalizing s with
  | nil => exact List.nodup_nil
  | cons w vs ih =>
      simp only [mark]
      split
      · exact ih s
      · refine List.nodup_cons.mpr ⟨?_, ih (s.insert w)⟩
        intro again
        exact (mem_mark.mp again).2 (mem_insert.mpr (.inl rfl))

/-- Marking one list after another is marking both in one go. -/
theorem mark_append (s : VertexSet n) (vs ws : List (Fin n)) :
    s.mark (vs ++ ws) =
      ((s.mark vs).1 ++ ((s.mark vs).2.mark ws).1, ((s.mark vs).2.mark ws).2) := by
  induction vs generalizing s with
  | nil => rfl
  | cons v vs ih =>
      rw [List.cons_append, mark, mark]
      split
      · exact ih s
      · rw [ih (s.insert v)]
        rfl

theorem missing_mark_lt {s : VertexSet n} {vs : List (Fin n)} (h : (s.mark vs).1 ≠ []) :
    (s.mark vs).2.missing (fun _ => 1) < s.missing fun _ => 1 := by
  have le := s.missing_mark_le vs
  have some_new := List.length_pos_of_ne_nil h
  omega

end VertexSet

/-! ## Layer by layer -/

/-- The given layer and the layers after it; `seen` marks what no later layer holds. -/
def layers (next : Fin n → List (Fin n)) (seen : VertexSet n) (layer : List (Fin n)) :
    List (List (Fin n)) :=
  if (seen.mark (layer.flatMap next)).1 = [] then [layer]
  else
    layer :: layers next (seen.mark (layer.flatMap next)).2 (seen.mark (layer.flatMap next)).1
termination_by seen.missing fun _ => 1
decreasing_by exact VertexSet.missing_mark_lt ‹_›

variable {next : Fin n → List (Fin n)}

/-- When the front of the queue has been listed, its new neighbours stand at the end. -/
theorem flood_append (next : Fin n → List (Fin n)) (seen : VertexSet n)
    (front back : List (Fin n)) :
    (flood next seen (front ++ back)).1 = front ++ (flood next (seen.mark (front.flatMap next)).2
      (back ++ (seen.mark (front.flatMap next)).1)).1 := by
  induction front generalizing seen back with
  | nil => simp [VertexSet.mark]
  | cons u front ih =>
      rw [List.cons_append, flood_cons, List.append_assoc, ih, List.flatMap_cons,
        VertexSet.mark_append, List.append_assoc, List.cons_append]

/-- From a layer on, the queue lists the layers one after another. -/
theorem flood_eq_layers (next : Fin n → List (Fin n)) (seen : VertexSet n)
    (layer : List (Fin n)) :
    (flood next seen layer).1 = (layers next seen layer).flatten := by
  have listed := flood_append next seen layer []
  rw [List.append_nil, List.nil_append] at listed
  rw [listed, layers]
  split
  next last => rw [last, flood_nil, List.append_nil, List.flatten_singleton]
  next more => rw [flood_eq_layers, List.flatten_cons]
termination_by seen.missing fun _ => 1
decreasing_by exact VertexSet.missing_mark_lt ‹_›

theorem subset_flood (seen : VertexSet n) (queue : List (Fin n)) :
    queue ⊆ (flood next seen queue).1 := by
  have listed := flood_append next seen queue []
  rw [List.append_nil] at listed
  rw [listed]
  exact List.subset_append_left _ _

/-- What is marked in the end has been marked before or is listed. -/
theorem mem_marks_flood {seen : VertexSet n} {queue : List (Fin n)}
    (marked : ∀ v ∈ queue, v ∈ seen) {v : Fin n} :
    v ∈ (flood next seen queue).2 ↔ v ∈ (flood next seen queue).1 ∨ v ∈ seen := by
  induction seen, queue using flood.induct next with
  | case1 seen => simp [flood_nil]
  | case2 seen u queue ih =>
      obtain ⟨-, behind⟩ := List.forall_mem_cons.mp marked
      have marked' : ∀ w ∈ queue ++ (seen.mark (next u)).1, w ∈ (seen.mark (next u)).2 := by
        intro w listed
        rw [VertexSet.mem_marked]
        exact (List.mem_append.mp listed).symm.imp_right (behind w)
      have new : ∀ {w}, w ∈ (seen.mark (next u)).1 →
          w ∈ (flood next (seen.mark (next u)).2 (queue ++ (seen.mark (next u)).1)).1 :=
        fun fresh => subset_flood _ _ (List.mem_append_right _ fresh)
      have known : u ∈ seen := marked u List.mem_cons_self
      rw [flood_cons, ih marked', VertexSet.mem_marked, List.mem_cons]
      constructor
      · rintro (listed | fresh | before)
        · exact .inl (.inr listed)
        · exact .inl (.inr (new fresh))
        · exact .inr before
      · rintro ((rfl | listed) | before)
        · exact .inr (.inr known)
        · exact .inl listed
        · exact .inr (.inr before)

/-- A search that enters no vertex of a set can go from one vertex to another. -/
def LeadsOutside (next : Fin n → List (Fin n)) (seen : VertexSet n) (u w : Fin n) : Prop :=
  Leads next u w ∧ w ∉ seen

/-- Beyond a layer there is the next layer and what can be reached from that. -/
theorem beyond_layer {seen : VertexSet n} {layer : List (Fin n)} {v : Fin n} :
    (∃ u ∈ layer, TransGen (LeadsOutside next seen) u v) ↔
      v ∈ (seen.mark (layer.flatMap next)).1 ∨
        ∃ u ∈ (seen.mark (layer.flatMap next)).1,
          TransGen (LeadsOutside next (seen.mark (layer.flatMap next)).2) u v := by
  have fresh : ∀ {w}, w ∈ (seen.mark (layer.flatMap next)).1 ↔
      ∃ u ∈ layer, LeadsOutside next seen u w := by
    intro w
    rw [VertexSet.mem_mark, List.mem_flatMap]
    constructor
    · intro ⟨⟨u, listed, leads⟩, outside⟩
      exact ⟨u, listed, leads, outside⟩
    · intro ⟨u, listed, leads, outside⟩
      exact ⟨⟨u, listed, leads⟩, outside⟩
  constructor
  · intro ⟨u, listed, way⟩
    induction way with
    | single leads => exact .inl (fresh.mpr ⟨u, listed, leads⟩)
    | @tail x w _ leads ih =>
        by_cases here : w ∈ (seen.mark (layer.flatMap next)).1
        · exact .inl here
        · have outside : w ∉ (seen.mark (layer.flatMap next)).2 := by
            intro marked
            rcases VertexSet.mem_marked.mp marked with now | before
            · exact here now
            · exact leads.2 before
          rcases ih with now | ⟨y, started, rest⟩
          · exact .inr ⟨x, now, .single ⟨leads.1, outside⟩⟩
          · exact .inr ⟨y, started, rest.tail ⟨leads.1, outside⟩⟩
  · intro reached
    rcases reached with now | ⟨y, started, rest⟩
    · obtain ⟨u, listed, leads⟩ := fresh.mp now
      exact ⟨u, listed, .single leads⟩
    · obtain ⟨u, listed, leads⟩ := fresh.mp started
      refine ⟨u, listed, .head leads (TransGen.mono ?_ _ _ rest)⟩
      intro a b ⟨leads, outside⟩
      exact ⟨leads, fun before => outside (VertexSet.mem_marked.mpr (.inr before))⟩

theorem layers_of_last {seen : VertexSet n} {layer : List (Fin n)}
    (last : (seen.mark (layer.flatMap next)).1 = []) : layers next seen layer = [layer] := by
  rw [layers]
  exact if_pos last

theorem layers_of_more {seen : VertexSet n} {layer : List (Fin n)}
    (more : (seen.mark (layer.flatMap next)).1 ≠ []) :
    layers next seen layer = layer ::
      layers next (seen.mark (layer.flatMap next)).2 (seen.mark (layer.flatMap next)).1 := by
  rw [layers]
  exact if_neg more

theorem mem_layers {seen : VertexSet n} {layer : List (Fin n)} {v : Fin n} :
    v ∈ (layers next seen layer).flatten ↔
      v ∈ layer ∨ ∃ u ∈ layer, TransGen (LeadsOutside next seen) u v := by
  by_cases last : (seen.mark (layer.flatMap next)).1 = []
  · rw [layers_of_last last, List.flatten_singleton, beyond_layer, last]
    simp
  · have later : v ∈ (layers next (seen.mark (layer.flatMap next)).2
        (seen.mark (layer.flatMap next)).1).flatten ↔ _ := mem_layers
    rw [layers_of_more last, List.flatten_cons, List.mem_append, later, ← beyond_layer]
termination_by seen.missing fun _ => 1
decreasing_by exact VertexSet.missing_mark_lt last

theorem nodup_layers {seen : VertexSet n} {layer : List (Fin n)} (nodup : layer.Nodup)
    (marked : ∀ v ∈ layer, v ∈ seen) : (layers next seen layer).flatten.Nodup := by
  by_cases last : (seen.mark (layer.flatMap next)).1 = []
  · rw [layers_of_last last, List.flatten_singleton]
    exact nodup
  · have later := nodup_layers (VertexSet.nodup_mark seen (layer.flatMap next))
      fun v new => VertexSet.mem_marked.mpr (.inl new)
    rw [layers_of_more last, List.flatten_cons]
    refine List.nodup_append.mpr ⟨nodup, later, ?_⟩
    intro v here w beyond same
    subst same
    rcases mem_layers.mp beyond with now | ⟨u, -, way⟩
    · exact (VertexSet.mem_mark.mp now).2 (marked v here)
    · obtain ⟨x, -, -, outside⟩ := TransGen.tail'_iff.mp way
      exact outside (VertexSet.mem_marked.mpr (.inr (marked v here)))
termination_by seen.missing fun _ => 1
decreasing_by exact VertexSet.missing_mark_lt last

/-! ## Searches -/

theorem mem_flood {seen : VertexSet n} {queue : List (Fin n)} {v : Fin n} :
    v ∈ (flood next seen queue).1 ↔
      v ∈ queue ∨ ∃ u ∈ queue, TransGen (LeadsOutside next seen) u v := by
  rw [flood_eq_layers, mem_layers]

theorem nodup_flood {seen : VertexSet n} {queue : List (Fin n)} (nodup : queue.Nodup)
    (marked : ∀ v ∈ queue, v ∈ seen) : (flood next seen queue).1.Nodup :=
  flood_eq_layers next seen queue ▸ nodup_layers nodup marked

/-- The search finds what can be reached. -/
theorem mem_discover {start v : Fin n} :
    v ∈ discover next start ↔ ReflTransGen (Leads next) start v := by
  rw [discover, mem_flood]
  simp only [List.mem_singleton, exists_eq_left]
  constructor
  · intro reached
    rcases reached with rfl | way
    · exact .refl
    · exact (TransGen.mono (fun _ _ leads => leads.1) _ _ way).to_reflTransGen
  · intro way
    induction way with
    | refl => exact .inl rfl
    | @tail x w _ leads ih =>
        by_cases back : w = start
        · exact .inl back
        · have step : LeadsOutside next (VertexSet.ofList [start]) x w :=
            ⟨leads, by simpa using back⟩
          rcases ih with rfl | way
          · exact .inr (.single step)
          · exact .inr (way.tail step)

theorem nodup_discover (start : Fin n) : (discover next start).Nodup :=
  nodup_flood (List.nodup_singleton start) (by simp)

/-- Searches that lead the same way find the same vertices. -/
theorem discover_perm {next' : Fin n → List (Fin n)} (same : Leads next' = Leads next)
    (start : Fin n) : List.Perm (discover next' start) (discover next start) := by
  refine (List.perm_ext_iff_of_nodup (nodup_discover start) (nodup_discover start)).mpr ?_
  intro v
  rw [mem_discover, mem_discover, same]

end Provenance
