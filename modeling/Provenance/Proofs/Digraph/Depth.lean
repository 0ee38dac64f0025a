import Mathlib.Order.Bounds.Basic
import Provenance.Proofs.Digraph.Routes

/-! # Depth

The depth of a vertex is the length of the longest walks that end at it. The queue holds vertices of
one depth and behind them those of the next that are free already. So it is taken layer by layer:
after `k` layers those vertices are listed that no walk of `k` steps ends at.
-/

namespace Provenance

section Depths

variable {α : Type} {r : α → α → Prop} {v : α} {j k : Nat}

/-- A walk of `k` steps ends at `v`. -/
def EndsWalk (r : α → α → Prop) (k : Nat) (v : α) : Prop := ∃ a, Steps r a k v

theorem endsWalk_zero (r : α → α → Prop) (v : α) : EndsWalk r 0 v := ⟨v, .refl⟩

theorem endsWalk_succ_iff : EndsWalk r (k + 1) v ↔ ∃ w, r w v ∧ EndsWalk r k w := by
  constructor
  · rintro ⟨a, before | ⟨before, step⟩⟩
    exact ⟨_, step, a, before⟩
  · rintro ⟨w, step, a, before⟩
    exact ⟨a, before.tail step⟩

/-- The last steps of a walk are a walk. -/
theorem EndsWalk.shorter (ends : EndsWalk r k v) (le : j ≤ k) : EndsWalk r j v := by
  induction j generalizing k v with
  | zero => exact endsWalk_zero r v
  | succ j ih =>
      obtain ⟨k, rfl⟩ := Nat.exists_eq_add_of_le' (Nat.lt_of_lt_of_le (Nat.succ_pos j) le)
      obtain ⟨w, step, before⟩ := endsWalk_succ_iff.mp ends
      exact endsWalk_succ_iff.mpr ⟨w, step, ih before (Nat.le_of_succ_le_succ le)⟩

/-- The longest walks that end at `v` have `k` steps. -/
def Depth (r : α → α → Prop) (v : α) (k : Nat) : Prop := IsGreatest {j | EndsWalk r j v} k

theorem depth_iff : Depth r v k ↔ EndsWalk r k v ∧ ¬ EndsWalk r (k + 1) v := by
  refine and_congr_right fun _ => ⟨fun most longer => ?_, fun last j ends => ?_⟩
  · exact Nat.not_succ_le_self k (most longer)
  · exact Nat.le_of_not_lt fun longer => last (ends.shorter longer)

/-! ## Layers -/

/-- Each layer holds vertices of one depth, which is one more than that of the layer before. -/
def Layered (r : α → α → Prop) (k : Nat) : List (List α) → Prop
  | [] => True
  | layer :: layers => (∀ v ∈ layer, Depth r v k) ∧ Layered r (k + 1) layers

namespace Layered

variable {layer : List α} {layers : List (List α)} {depth : α → Nat}

theorem exists_depth (layered : Layered r k layers) (listed : v ∈ layers.flatten) :
    ∃ d, k ≤ d ∧ Depth r v d := by
  induction layers generalizing k with
  | nil => cases listed
  | cons layer layers ih =>
      rcases List.mem_append.mp listed with here | later
      · exact ⟨k, Nat.le_refl k, layered.1 v here⟩
      · obtain ⟨d, deeper, deep⟩ := ih layered.2 later
        exact ⟨d, Nat.le_of_succ_le deeper, deep⟩

theorem le_depth (layered : Layered r k layers)
    (deep : ∀ v ∈ layers.flatten, Depth r v (depth v)) (listed : v ∈ layers.flatten) :
    k ≤ depth v := by
  obtain ⟨d, deeper, here⟩ := layered.exists_depth listed
  rwa [← here.unique (deep v listed)]

theorem pairwise (layered : Layered r k layers)
    (deep : ∀ v ∈ layers.flatten, Depth r v (depth v)) :
    layers.flatten.Pairwise (depth · ≤ depth ·) := by
  induction layers generalizing k with
  | nil => exact .nil
  | cons layer layers ih =>
      have here : ∀ v ∈ layer, depth v = k := fun v listed =>
        (deep v (List.mem_append_left _ listed)).unique (layered.1 v listed)
      have deep' : ∀ v ∈ layers.flatten, Depth r v (depth v) := fun v listed =>
        deep v (List.mem_append_right _ listed)
      refine List.pairwise_append.mpr ⟨?_, ih layered.2 deep', fun v listed w later => ?_⟩
      · refine List.pairwise_of_forall_mem_list fun v listed w listed' => ?_
        rw [here v listed, here w listed']
      · rw [here v listed]
        exact Nat.le_of_succ_le (layered.2.le_depth deep' later)

/-- Nothing behind the first layer has its depth. -/
theorem filter_eq (layered : Layered r k (layer :: layers))
    (deep : ∀ v ∈ (layer :: layers).flatten, Depth r v (depth v)) :
    (layer :: layers).flatten.filter (depth · == k) = layer := by
  rw [List.flatten_cons, List.filter_append]
  have here : layer.filter (depth · == k) = layer := by
    refine List.filter_eq_self.mpr fun v listed => beq_iff_eq.mpr ?_
    exact (deep v (List.mem_append_left _ listed)).unique (layered.1 v listed)
  have later : layers.flatten.filter (depth · == k) = [] := by
    refine List.filter_eq_nil_iff.mpr fun v listed same => ?_
    have deeper := layered.2.le_depth (fun v later => deep v (List.mem_append_right _ later)) listed
    exact Nat.not_succ_le_self k (beq_iff_eq.mp same ▸ deeper)
  rw [here, later, List.append_nil]

end Layered

end Depths

/-! ## The queue -/

variable {n : Nat} {next : Fin n → List (Fin n)}

namespace Waiting

/-- When the front of the queue has been listed, what it has released stands at the end. -/
theorem drain_append (next : Fin n → List (Fin n)) (waiting : Waiting n)
    (front back : List (Fin n)) :
    waiting.drain next (front ++ back) = front ++ drain next
      (waiting.release (front.flatMap next)).2
      (back ++ (waiting.release (front.flatMap next)).1) := by
  induction front generalizing waiting back with
  | nil => simp [release]
  | cons u front ih =>
      rw [List.cons_append, drain_cons, List.append_assoc, ih, List.flatMap_cons, release_append,
        List.append_assoc, List.cons_append]

end Waiting

namespace Peeling

/-- Once those vertices are gone that no walk of `k` steps ends at, the queue holds what a walk of
`k` steps ends at, but no longer one. -/
theorem mem_append_layer {waiting : Waiting n} {gone layer : List (Fin n)} {k : Nat}
    (peeling : Peeling next waiting gone layer)
    (gone_iff : ∀ v, v ∈ gone ↔ ¬ EndsWalk (Leads next) k v) (v : Fin n) :
    v ∈ gone ++ layer ↔ ¬ EndsWalk (Leads next) (k + 1) v := by
  have nodup := (List.nodup_append.mp peeling.nodup).1
  rw [← peeling.free, free_iff nodup (peeling.waits v), endsWalk_succ_iff, not_exists]
  refine forall_congr' fun u => ?_
  rw [gone_iff u, not_and]
  rfl

/-- From a stage at which the queue is a layer on, the layers are listed one after another. -/
theorem exists_layers {waiting : Waiting n} {gone layer : List (Fin n)} {k : Nat}
    (peeling : Peeling next waiting gone layer)
    (gone_iff : ∀ v, v ∈ gone ↔ ¬ EndsWalk (Leads next) k v) :
    ∃ layers, waiting.drain next layer = (layer :: layers).flatten ∧
      Layered (Leads next) k (layer :: layers) := by
  have later_iff := peeling.mem_append_layer gone_iff
  have here : ∀ v ∈ layer, Depth (Leads next) v k := by
    intro v listed
    have new : v ∉ gone := fun before =>
      (List.nodup_append.mp peeling.nodup).2.2 v before v listed rfl
    exact depth_iff.mpr ⟨Classical.not_not.mp ((gone_iff v).not.mp new),
      (later_iff v).mp (List.mem_append_right _ listed)⟩
  have listed := waiting.drain_append next layer []
  rw [List.append_nil, List.nil_append] at listed
  by_cases last : (waiting.release (layer.flatMap next)).1 = []
  · rw [last, Waiting.drain_nil] at listed
    exact ⟨[], listed, here, trivial⟩
  · have fewer := waiting.blocked_release_le (layer.flatMap next)
    have some_freed := List.length_pos_of_ne_nil last
    have peeling' : Peeling next waiting gone (layer ++ []) := by rwa [List.append_nil]
    obtain ⟨layers, rest, layered⟩ := exists_layers peeling'.take later_iff
    exact ⟨_ :: layers, by rw [listed, List.flatten_cons, ← rest, List.nil_append], here, layered⟩
termination_by waiting.blocked

end Peeling

namespace Digraph

/-- A topological order comes in layers, of which the first is in order of the vertices. -/
theorem layered_of_topologicalOrder? {d : Digraph n} {order : List (Fin n)}
    (found : d.topologicalOrder? = some order) :
    ∃ layer layers, order = (layer :: layers).flatten ∧ Layered d.Edge 0 (layer :: layers) ∧
      layer.Sublist (List.finRange n) := by
  unfold topologicalOrder? at found
  dsimp only at found
  split at found
  next =>
    obtain rfl := Option.some.inj found
    obtain ⟨layers, split, layered⟩ := d.peeling_start.exists_layers (k := 0) fun v =>
      iff_of_false List.not_mem_nil (not_not_intro (endsWalk_zero _ v))
    exact ⟨_, layers, split, layered, List.filter_sublist⟩
  next => cases found

end Digraph

end Provenance
