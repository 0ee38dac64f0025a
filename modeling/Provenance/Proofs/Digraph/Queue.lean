import Mathlib.Data.List.Forall2
import Mathlib.Order.Bounds.Basic
import Provenance.Proofs.Digraph.Layers
import Provenance.Proofs.Digraph.Routes

/-! # The search with a queue

What the search lists is told by a relation on the queue that speaks of no numbers of the vertices.
Layer `k` holds the vertices that are `k` steps away from the start and no fewer.
-/

namespace Provenance

section Queues

variable {α β : Type} [DecidableEq α] [DecidableEq β]

/-- The vertices of a list that have not been seen, each where it first stands. -/
def fresh (seen : List α) : List α → List α
  | [] => []
  | v :: vs => if v ∈ seen then fresh seen vs else v :: fresh (v :: seen) vs

theorem fresh_map {f : α → β} (injective : Function.Injective f) (seen vs : List α) :
    fresh (seen.map f) (vs.map f) = (fresh seen vs).map f := by
  induction vs generalizing seen with
  | nil => rfl
  | cons v vs ih =>
      have marked_iff : f v ∈ seen.map f ↔ v ∈ seen := List.mem_map_of_injective injective
      rw [List.map_cons, fresh, fresh]
      by_cases marked : v ∈ seen
      · rw [if_pos marked, if_pos (marked_iff.mpr marked), ih]
      · rw [if_neg marked, if_neg (marked_iff.not.mpr marked), List.map_cons, ← ih (v :: seen)]
        rfl

/-- What a search lists that takes vertices from the front of a queue and puts those to its end that
they lead to and that have not been seen. -/
inductive Drains (next : α → List α) : List α → List α → List α → Prop where
  | done (seen : List α) : Drains next seen [] []
  | take {seen queue order : List α} {u : α}
      (later : Drains next (fresh seen (next u) ++ seen) (queue ++ fresh seen (next u)) order) :
      Drains next seen (u :: queue) (u :: order)

namespace Drains

variable {next : α → List α} {seen queue order : List α}

theorem unique {order' : List α} (drains : Drains next seen queue order)
    (drains' : Drains next seen queue order') : order' = order := by
  induction drains generalizing order' with
  | done => cases drains' with
    | done => rfl
  | take _ ih => cases drains' with
    | take later => rw [ih later]

/-- Under other names for the vertices the search is the same. -/
theorem map {next' : β → List β} {f : α → β} (injective : Function.Injective f)
    (renamed : ∀ v, next' (f v) = (next v).map f) (drains : Drains next seen queue order) :
    Drains next' (seen.map f) (queue.map f) (order.map f) := by
  induction drains with
  | done seen => exact .done _
  | @take seen queue order u _ ih =>
      rw [List.map_append, List.map_append, ← fresh_map injective, ← renamed] at ih
      exact .take ih

end Drains

end Queues

variable {n : Nat} {next : Fin n → List (Fin n)}

/-! ## Marks -/

namespace VertexSet

theorem mark_eq_fresh {s : VertexSet n} {seen : List (Fin n)} (same : ∀ v, v ∈ s ↔ v ∈ seen)
    (vs : List (Fin n)) : (s.mark vs).1 = fresh seen vs := by
  induction vs generalizing s seen with
  | nil => rfl
  | cons v vs ih =>
      rw [mark, fresh]
      by_cases marked : v ∈ s
      · rw [if_pos marked, if_pos ((same v).mp marked), ih same]
      · rw [if_neg marked, if_neg ((same v).not.mp marked)]
        refine congrArg (v :: ·) (ih fun w => ?_)
        rw [mem_insert, List.mem_cons, same]

theorem mem_marked_iff {s : VertexSet n} {seen : List (Fin n)} (same : ∀ v, v ∈ s ↔ v ∈ seen)
    (vs : List (Fin n)) (v : Fin n) : v ∈ (s.mark vs).2 ↔ v ∈ fresh seen vs ++ seen := by
  rw [mem_marked, mark_eq_fresh same, List.mem_append, same]

end VertexSet

theorem drains_flood {s : VertexSet n} {seen : List (Fin n)} (same : ∀ v, v ∈ s ↔ v ∈ seen)
    (queue : List (Fin n)) : Drains next seen queue (flood next s queue).1 := by
  induction s, queue using flood.induct next generalizing seen with
  | case1 s =>
      rw [flood_nil]
      exact .done seen
  | case2 s u queue ih =>
      have later := ih (VertexSet.mem_marked_iff same (next u))
      rw [VertexSet.mark_eq_fresh same] at later
      rw [flood_cons, VertexSet.mark_eq_fresh same]
      exact .take later

theorem Digraph.drains_breadthFirst (d : Digraph n) (way : Way) (start : Fin n) :
    Drains (d.neighbors way) [start] [start] (d.breadthFirst way start) :=
  drains_flood (fun _ => VertexSet.mem_ofList) [start]

/-! ## Distances -/

/-- The fewest steps that lead from `a` to `b`. -/
def Distance {α : Type} (r : α → α → Prop) (a b : α) (k : Nat) : Prop :=
  IsLeast {j | Steps r a j b} k

/-- What has been seen is `k` steps away at most, and what the layer holds is no nearer. -/
structure LayerAt (next : Fin n → List (Fin n)) (start : Fin n) (k : Nat) (s : VertexSet n)
    (layer : List (Fin n)) : Prop where
  seen_iff : ∀ v, v ∈ s ↔ ∃ j ≤ k, Steps (Leads next) start j v
  layer_iff : ∀ v, v ∈ layer ↔ Distance (Leads next) start v k

namespace LayerAt

variable {start : Fin n} {k : Nat} {s : VertexSet n} {layer : List (Fin n)}

theorem initial (next : Fin n → List (Fin n)) (start : Fin n) :
    LayerAt next start 0 (VertexSet.ofList [start]) [start] where
  seen_iff v := by
    rw [VertexSet.mem_ofList, List.mem_singleton]
    constructor
    · rintro rfl
      exact ⟨0, Nat.le_refl 0, .refl⟩
    · intro ⟨j, none_left, steps⟩
      obtain rfl := Nat.le_zero.mp none_left
      cases steps
      rfl
  layer_iff v := by
    rw [List.mem_singleton]
    constructor
    · rintro rfl
      exact ⟨.refl, fun j _ => Nat.zero_le j⟩
    · intro distance
      cases distance.1
      rfl

/-- The vertices that are seen for the first time are one step farther away. -/
theorem mem_mark_iff (here : LayerAt next start k s layer) (v : Fin n) :
    v ∈ (s.mark (layer.flatMap next)).1 ↔ Distance (Leads next) start v (k + 1) := by
  rw [VertexSet.mem_mark, List.mem_flatMap, here.seen_iff]
  constructor
  · intro ⟨⟨u, listed, leads⟩, unseen⟩
    have before := ((here.layer_iff u).mp listed).1
    refine ⟨before.tail leads, fun j steps => ?_⟩
    by_contra nearer
    exact unseen ⟨j, by omega, steps⟩
  · intro ⟨steps, least⟩
    obtain _ | @⟨_, u, _, before, leads⟩ := steps
    refine ⟨⟨u, (here.layer_iff u).mpr ⟨before, fun j steps => ?_⟩, leads⟩, ?_⟩
    · have longer : k + 1 ≤ j + 1 := least (steps.tail leads)
      omega
    · intro ⟨j, near, steps⟩
      have farther : k + 1 ≤ j := least steps
      omega

theorem step (here : LayerAt next start k s layer) :
    LayerAt next start (k + 1) (s.mark (layer.flatMap next)).2 (s.mark (layer.flatMap next)).1 where
  seen_iff v := by
    rw [VertexSet.mem_marked, here.mem_mark_iff, here.seen_iff]
    constructor
    · rintro (distance | ⟨j, near, steps⟩)
      · exact ⟨k + 1, Nat.le_refl _, distance.1⟩
      · exact ⟨j, Nat.le_succ_of_le near, steps⟩
    · intro ⟨j, near, steps⟩
      by_cases seen : ∃ i ≤ k, Steps (Leads next) start i v
      · exact .inr seen
      · have least : ∀ i, Steps (Leads next) start i v → k + 1 ≤ i := by
          intro i steps
          by_contra nearer
          exact seen ⟨i, by omega, steps⟩
        obtain rfl : j = k + 1 := Nat.le_antisymm near (least j steps)
        exact .inl ⟨steps, least⟩
  layer_iff := here.mem_mark_iff

/-- The distances of what is listed from a layer on. -/
theorem exists_distances {k : Nat} {s : VertexSet n} {layer : List (Fin n)}
    (here : LayerAt next start k s layer) :
    ∃ ks, List.Forall₂ (Distance (Leads next) start) (layers next s layer).flatten ks ∧
      ks.Pairwise (· ≤ ·) ∧ ∀ j ∈ ks, k ≤ j := by
  have alike : List.Forall₂ (Distance (Leads next) start) layer (layer.map fun _ => k) := by
    rw [List.forall₂_map_right_iff, List.forall₂_same]
    exact fun v listed => (here.layer_iff v).mp listed
  have level : (layer.map fun _ => k).Pairwise (· ≤ ·) :=
    List.pairwise_map.mpr (List.pairwise_of_forall fun _ _ => Nat.le_refl k)
  by_cases last : (s.mark (layer.flatMap next)).1 = []
  · rw [layers_of_last last, List.flatten_singleton]
    exact ⟨_, alike, level, by simp⟩
  · obtain ⟨ks, distances, sorted, farther⟩ := here.step.exists_distances
    rw [layers_of_more last, List.flatten_cons]
    refine ⟨_, List.rel_append alike distances, List.pairwise_append.mpr ⟨level, sorted, ?_⟩, ?_⟩
    · intro i listed j later
      obtain ⟨-, -, rfl⟩ := List.mem_map.mp listed
      exact Nat.le_of_succ_le (farther j later)
    · intro j listed
      rcases List.mem_append.mp listed with here | later
      · obtain ⟨-, -, rfl⟩ := List.mem_map.mp here
        exact Nat.le_refl k
      · exact Nat.le_of_succ_le (farther j later)
termination_by s.missing fun _ => 1
decreasing_by exact VertexSet.missing_mark_lt last

end LayerAt

/-- The vertices are listed by their distance from the start. -/
theorem Digraph.distances_breadthFirst (d : Digraph n) (way : Way) (start : Fin n) :
    ∃ ks, List.Forall₂ (Distance (Leads (d.neighbors way)) start) (d.breadthFirst way start) ks ∧
      ks.Pairwise (· ≤ ·) := by
  obtain ⟨ks, distances, sorted, -⟩ := (LayerAt.initial (d.neighbors way) start).exists_distances
  rw [← flood_eq_layers] at distances
  exact ⟨ks, distances, sorted⟩

end Provenance
