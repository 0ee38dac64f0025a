import Provenance.Proofs.Digraph.Parts
import Provenance.Proofs.Graph.Crowned
import Provenance.Proofs.Graph.Cycles

/-! # What is found

The vertices that a query lists, told by the ways through the graph alone: its extremes, what a
search discovers, what hangs on a vertex, and the groups that lie on cycles.
-/

open Relation (TransGen ReflTransGen)

namespace Provenance

/-- What each entry is made from comes in the order of the entries. -/
theorem map_filterMap_sublist {α β γ : Type} {f : α → Option β} {part : β → γ} {key : α → γ}
    (same : ∀ a b, f a = some b → part b = key a) (entries : List α) :
    ((entries.filterMap f).map part).Sublist (entries.map key) := by
  induction entries with
  | nil => exact .slnil
  | cons a entries ih =>
      rw [List.map_cons]
      cases made : f a with
      | none =>
          rw [List.filterMap_cons_none made]
          exact ih.cons _
      | some b =>
          rw [List.filterMap_cons_some made, List.map_cons, same a b made]
          exact ih.cons_cons _

namespace Graph

variable {N E : Type} {g r : Graph N E} {toward : Toward} {order : SearchOrder} {v w : Vertex}

/-! ## Ways -/

/-- Ways through the numbers of a snapshot are ways through the vertices, also if some of the steps
are left out. -/
theorem way_label {R : Fin g.snapshot.size → Fin g.snapshot.size → Prop}
    {S : Vertex → Vertex → Prop} (same : ∀ i j, R i j ↔ S (g.snapshot.label i) (g.snapshot.label j))
    (live : ∀ s t, S s t → g.containsVertex t = true) {i j : Fin g.snapshot.size} :
    ReflTransGen R i j ↔ ReflTransGen S (g.snapshot.label i) (g.snapshot.label j) := by
  constructor
  · exact fun way => way.lift g.snapshot.label fun i j => (same i j).mp
  · intro way
    have numbered : ∀ w, ReflTransGen S (g.snapshot.label i) w →
        ∃ k, g.snapshot.label k = w ∧ ReflTransGen R i k := by
      intro w way
      induction way with
      | refl => exact ⟨i, rfl, .refl⟩
      | @tail u w _ step ih =>
          obtain ⟨k, rfl, way⟩ := ih
          obtain ⟨l, rfl⟩ := exists_label (live _ _ step)
          exact ⟨l, rfl, way.tail ((same k l).mpr step)⟩
    obtain ⟨k, label, way⟩ := numbered _ way
    rwa [label_inj label] at way

theorem chain_label {R : Fin g.snapshot.size → Fin g.snapshot.size → Prop}
    {S : Vertex → Vertex → Prop} (same : ∀ i j, R i j ↔ S (g.snapshot.label i) (g.snapshot.label j))
    (live : ∀ s t, S s t → g.containsVertex t = true) {i j : Fin g.snapshot.size} :
    TransGen R i j ↔ TransGen S (g.snapshot.label i) (g.snapshot.label j) := by
  constructor
  · exact fun chain => chain.lift g.snapshot.label fun i j => (same i j).mp
  · intro chain
    obtain ⟨w, first, rest⟩ := TransGen.head'_iff.mp chain
    obtain ⟨k, rfl⟩ := exists_label (live _ _ first)
    exact .head' ((same i k).mpr first) ((way_label same live).mpr rest)

theorem steps_label {R : Fin g.snapshot.size → Fin g.snapshot.size → Prop}
    {S : Vertex → Vertex → Prop} (same : ∀ i j, R i j ↔ S (g.snapshot.label i) (g.snapshot.label j))
    (live : ∀ s t, S s t → g.containsVertex t = true) {k : Nat} {i j : Fin g.snapshot.size} :
    Steps R i k j ↔ Steps S (g.snapshot.label i) k (g.snapshot.label j) := by
  constructor
  · intro steps
    induction steps with
    | refl => exact .refl
    | tail _ step ih => exact ih.tail ((same _ _).mp step)
  · intro steps
    have numbered : ∀ k w, Steps S (g.snapshot.label i) k w →
        ∃ j, g.snapshot.label j = w ∧ Steps R i k j := by
      intro k w steps
      induction steps with
      | refl => exact ⟨i, rfl, .refl⟩
      | tail _ step ih =>
          obtain ⟨j, rfl, steps⟩ := ih
          obtain ⟨l, rfl⟩ := exists_label (live _ _ step)
          exact ⟨l, rfl, steps.tail ((same j l).mpr step)⟩
    obtain ⟨l, label, steps⟩ := numbered k _ steps
    rwa [label_inj label] at steps

theorem Valid.way_leads (valid : g.Valid) {way : Way} {i j : Fin g.snapshot.size} :
    ReflTransGen (Leads (g.snapshot.digraph.neighbors way)) i j ↔
      ReflTransGen (g.Passes way) (g.snapshot.label i) (g.snapshot.label j) :=
  way_label (fun _ _ => valid.leads_iff) fun _ _ passes => (valid.live_of_passes passes).2

theorem Valid.live_of_way (valid : g.Valid) {way : Way} (live : g.containsVertex v = true)
    (reached : ReflTransGen (g.Passes way) v w) : g.containsVertex w = true := by
  cases reached with
  | refl => exact live
  | tail _ passes => exact (valid.live_of_passes passes).2

/-! ## Extremes -/

theorem Valid.mem_extremes (valid : g.Valid) :
    v ∈ g.extremes toward ↔
      g.containsVertex v = true ∧ ∀ w, ¬ g.Passes (g.direction.way toward) v w := by
  rw [extremes, List.mem_filter, vertexList, Arena.mem_handles]
  refine and_congr_right fun _ => ?_
  cases g.direction.way toward with
  | along =>
      dsimp only
      rw [beq_iff_eq, ← valid.length_successors, List.length_eq_zero_iff,
        List.eq_nil_iff_forall_not_mem]
      exact forall_congr' fun w => valid.mem_successors.not
  | against =>
      dsimp only
      rw [beq_iff_eq, ← valid.length_predecessors, List.length_eq_zero_iff,
        List.eq_nil_iff_forall_not_mem]
      exact forall_congr' fun w => valid.mem_predecessors.not

theorem nodup_extremes : (g.extremes toward).Nodup := g.vertices.handles_nodup.filter _

/-! ## Searches -/

theorem Valid.mem_discovered (valid : g.Valid) :
    w ∈ g.discovered order v toward ↔
      g.containsVertex v = true ∧ ReflTransGen (g.Passes (g.direction.way toward)) v w := by
  unfold discovered
  dsimp only
  cases found : g.snapshot.number? v with
  | none =>
      have dead : g.containsVertex v = false := number?_eq_none.mp found
      simp [dead]
  | some i =>
      obtain rfl := number?_eq_some.mp found
      simp only [List.mem_map, Digraph.mem_search, g.label_live i, true_and]
      constructor
      · rintro ⟨j, way, rfl⟩
        exact valid.way_leads.mp way
      · intro way
        obtain ⟨j, rfl⟩ := exists_label (valid.live_of_way (g.label_live i) way)
        exact ⟨j, valid.way_leads.mpr way, rfl⟩

theorem nodup_search {n : Nat} (order : SearchOrder) (d : Digraph n) (way : Way) (start : Fin n) :
    (order.search d way start).Nodup := by
  cases order with
  | breadthFirst => exact nodup_discover start
  | depthFirst => exact Digraph.nodup_depthFirst

theorem nodup_discovered : (g.discovered order v toward).Nodup := by
  unfold discovered
  dsimp only
  split
  · exact (nodup_search order _ _ _).map fun _ _ => label_inj
  · exact List.nodup_nil

/-! ## What hangs on a vertex -/

/-- Without a step to `x` there is no way from `root` to `u`. -/
def Hangs (r : Vertex → Vertex → Prop) (root x u : Vertex) : Prop :=
  x ≠ root → ¬ ReflTransGen (fun s t => r s t ∧ t ≠ x) root u

theorem Valid.dominates_label (valid : g.Valid) {way : Way} {i a j : Fin g.snapshot.size} :
    Dominates (g.snapshot.digraph.neighbors way) i a j ↔
      Hangs (g.Passes way) (g.snapshot.label i) (g.snapshot.label a) (g.snapshot.label j) := by
  have apart : ∀ j, j ≠ a ↔ g.snapshot.label j ≠ g.snapshot.label a := fun j =>
    not_congr ⟨fun same => by rw [same], fun same => label_inj same⟩
  rw [Dominates, Hangs, ne_comm, apart, ne_comm]
  refine imp_congr_right fun _ => not_congr (way_label (fun s t => ?_) fun _ _ step => ?_)
  · rw [valid.leads_iff, apart]
  · exact (valid.live_of_passes step.1).2

theorem Valid.mem_dominatedBy (valid : g.Valid) {root : Vertex} (live : g.containsVertex v = true)
    (root_live : g.containsVertex root = true) :
    w ∈ g.dominatedBy v root order ↔
      ReflTransGen (g.Passes (g.direction.way .leaves)) root w ∧
        Hangs (g.Passes (g.direction.way .leaves)) root v w := by
  obtain ⟨a, rfl⟩ := exists_label live
  obtain ⟨i, rfl⟩ := exists_label root_live
  unfold dominatedBy
  dsimp only
  rw [number?_eq_some.mpr rfl, number?_eq_some.mpr rfl]
  simp only [List.mem_map, List.mem_filter, decide_eq_true_eq, Digraph.mem_search]
  constructor
  · rintro ⟨j, ⟨way, below⟩, rfl⟩
    have dominates := (Digraph.mem_below_of_reached way).mp below
    exact ⟨valid.way_leads.mp way, valid.dominates_label.mp dominates⟩
  · rintro ⟨way, hanging⟩
    obtain ⟨j, rfl⟩ := exists_label (valid.live_of_way (g.label_live i) way)
    have way := valid.way_leads.mpr way
    have below := (Digraph.mem_below_of_reached way).mpr (valid.dominates_label.mpr hanging)
    exact ⟨j, ⟨way, below⟩, rfl⟩

theorem nodup_dominatedBy {root : Vertex} : (g.dominatedBy v root order).Nodup := by
  unfold dominatedBy
  dsimp only
  split
  · exact ((nodup_search order _ _ _).filter _).map fun _ _ => label_inj
  · exact List.nodup_nil

/-- A way from a vertex above all starts goes on from one of them. -/
theorem way_from_top {α : Type} {r r' : α → α → Prop} {starts : α → Prop} {top u : α}
    (crown : ∀ s t, r' s t ↔ s = top ∧ starts t ∨ r s t) (apart : ∀ t, ¬ r top t)
    (other : u ≠ top) : ReflTransGen r' top u ↔ ∃ o, starts o ∧ ReflTransGen r o u := by
  constructor
  · intro way
    have onward : ∀ u, ReflTransGen r' top u → u = top ∨ ∃ o, starts o ∧ ReflTransGen r o u := by
      intro u way
      induction way with
      | refl => exact .inl rfl
      | @tail s t _ step ih =>
          rcases (crown s t).mp step with ⟨-, start⟩ | step
          · exact .inr ⟨t, start, .refl⟩
          · rcases ih with rfl | ⟨o, start, way⟩
            · exact absurd step (apart t)
            · exact .inr ⟨o, start, way.tail step⟩
    exact (onward u way).resolve_left other
  · rintro ⟨o, start, way⟩
    have later : ReflTransGen r' o u := 
      ReflTransGen.mono (fun s t step => (crown s t).mpr (.inr step)) o u way
    exact .head ((crown top o).mpr (.inl ⟨rfl, start⟩)) later

/-- Below a vertex above all roots there hang on another vertex those that a root reaches, but none
without a step to that vertex. -/
theorem Crowns.mem_dominatedBy {top : Vertex} (crowns : Crowns top g r) (valid : g.Valid)
    (live : g.containsVertex v = true) :
    w ∈ r.dominatedBy v top order ↔
      (∃ o ∈ g.roots, ReflTransGen (g.Passes (g.direction.way .leaves)) o w) ∧
        ¬ ∃ o ∈ g.roots, o ≠ v ∧
          ReflTransGen (fun s t => g.Passes (g.direction.way .leaves) s t ∧ t ≠ v) o w := by
  have passes : ∀ s t, r.Passes (g.direction.way .leaves) s t ↔
      s = top ∧ t ∈ g.roots ∨ g.Passes (g.direction.way .leaves) s t := by
    intro s t
    rw [← crowns.valid.mem_around]
    by_cases here : s = top
    · subst here
      have none_before : ¬ g.Passes (g.direction.way .leaves) s t := fun passes =>
        crowns.ne_top (valid.live_of_passes passes).1 rfl
      simp [crowns.around_top, none_before]
    · simp [crowns.around_other s here, valid.mem_around, here]
  have apart : ∀ t, ¬ g.Passes (g.direction.way .leaves) top t := fun t passes =>
    crowns.ne_top (valid.live_of_passes passes).1 rfl
  have below_top : v ≠ top := crowns.ne_top live
  rw [crowns.valid.mem_dominatedBy ((crowns.live_iff v).mpr (.inr live))
    ((crowns.live_iff top).mpr (.inl rfl)), crowns.direction]
  by_cases here : w = top
  · -- the new vertex hangs on no other, and no root reaches it
    subst here
    refine iff_of_false (fun both => both.2 below_top .refl) fun both => ?_
    obtain ⟨o, listed, way⟩ := both.1
    cases way with
    | refl => exact crowns.ne_top (live_of_root listed) rfl
    | tail _ passes => exact crowns.ne_top (valid.live_of_passes passes).2 rfl
  · have avoids : ∀ s t, r.Passes (g.direction.way .leaves) s t ∧ t ≠ v ↔
        s = top ∧ t ∈ g.roots ∧ t ≠ v ∨ g.Passes (g.direction.way .leaves) s t ∧ t ≠ v := by
      intro s t
      rw [passes, or_and_right, and_assoc]
    rw [way_from_top passes apart here, Hangs, imp_iff_right below_top,
      way_from_top avoids (fun t step => apart t step.1) here]
    simp only [and_assoc]

section

variable [Inhabited N] [Inhabited E]

theorem passes_crown (valid : g.Valid) (room : g.vertices.isFull = false)
    (passes : g.crown.2.Passes (g.direction.way .leaves) v w) :
    v = g.crown.1 ∨ g.Passes (g.direction.way .leaves) v w := by
  have only := (joins_crown (E := E) valid room).only
  rw [addVertex, joined_addVertexWith] at only
  cases side : g.direction with
  | parentToChild =>
      rw [side] at passes
      rcases only v w passes with before | new
      · exact .inr before
      · obtain ⟨root, -, same⟩ := List.mem_map.mp new
        rw [side] at same
        exact .inl (Prod.mk.inj same).1.symm
  | childToParent =>
      rw [side] at passes
      rcases only w v passes with before | new
      · exact .inr before
      · obtain ⟨root, -, same⟩ := List.mem_map.mp new
        rw [side] at same
        exact .inl (Prod.mk.inj same).2.symm

/-- What hangs on a vertex of a graph with a vertex above its roots can be reached from it in the
graph, also if the handles ran out before that one was joined to all roots. -/
theorem way_of_mem_dominatedBy (valid : g.Valid) (room : g.vertices.isFull = false)
    (live : g.containsVertex v = true) (listed : w ∈ g.crown.2.dominatedBy v g.crown.1 order) :
    ReflTransGen (g.Passes (g.direction.way .leaves)) v w := by
  have joins := joins_crown (E := E) valid room
  have top_dead : g.containsVertex g.crown.1 = false := addVertexWith_dead valid default
  have off_top : ∀ {u}, g.containsVertex u = true → u ≠ g.crown.1 := by
    rintro u live rfl
    exact absurd live (Bool.eq_false_iff.mp top_dead)
  have still_live : ∀ u, u = g.crown.1 ∨ g.containsVertex u = true →
      g.crown.2.containsVertex u = true := fun u either =>
    (joins.containsVertex u).trans ((containsVertex_addVertexWith valid room default u).mpr either)
  have direction : g.crown.2.direction = g.direction :=
    joins.direction.trans (direction_addVertexWith g default)
  have found := (joins.valid.mem_dominatedBy (still_live v (.inr live))
    (still_live g.crown.1 (.inl rfl))).mp listed
  rw [direction] at found
  -- the way from the new vertex passes through `v` and does not come back to the new one
  obtain ⟨path, is_path⟩ := exists_path found.1
  have onward : ReflTransGen (g.crown.2.Passes (g.direction.way .leaves)) v w :=
    is_path.way_of_mem (onAllPaths_iff.mpr found.2 path is_path)
  clear found listed is_path
  induction onward with
  | refl => exact .refl
  | tail _ passes ih =>
      have before := ih
      exact before.tail ((passes_crown valid room passes).resolve_left
        (off_top (valid.live_of_way live before)))

end

/-! ## Groups -/

/-- The vertices that lie on a cycle with a given one. -/
def Mutual (g : Graph N E) (v w : Vertex) : Prop := TransGen g.Joined v w ∧ TransGen g.Joined w v

/-- Each group holds the vertices on a cycle with one of them, and each cycle is in a group. -/
theorem Valid.cyclicGroups_spec (valid : g.Valid) :
    (∀ group ∈ g.cyclicGroups, ∃ v, g.Mutual v v ∧ ∀ w, w ∈ group ↔ g.Mutual v w) ∧
      ∀ v, g.Mutual v v → ∃ group ∈ g.cyclicGroups, ∀ w, w ∈ group ↔ g.Mutual v w := by
  have members : ∀ {a}, TransGen g.Joined (g.snapshot.label a) (g.snapshot.label a) →
      ∀ w, w ∈ (g.snapshot.digraph.mutuals a).map g.snapshot.label ↔
        g.Mutual (g.snapshot.label a) w := by
    intro a cycle w
    simp only [List.mem_map, Digraph.mem_mutuals, Digraph.Mutual, valid.reflTransGen_snapshot]
    constructor
    · rintro ⟨b, ⟨forth, back⟩, rfl⟩
      exact ⟨cycle.trans_left forth, TransGen.trans_right back cycle⟩
    · rintro ⟨forth, back⟩
      obtain ⟨b, rfl⟩ := exists_label (valid.live_of_chain forth).2
      exact ⟨b, ⟨forth.to_reflTransGen, back.to_reflTransGen⟩, rfl⟩
  simp only [cyclicGroups, List.mem_map, Digraph.mem_cyclicGroups]
  constructor
  · rintro _ ⟨_, ⟨a, cycle, rfl⟩, rfl⟩
    have around := valid.transGen_snapshot.mp cycle
    exact ⟨g.snapshot.label a, ⟨around, around⟩, members around⟩
  · rintro v ⟨cycle, -⟩
    obtain ⟨a, rfl⟩ := exists_label (valid.live_of_chain cycle).1
    exact ⟨_, ⟨_, ⟨a, valid.transGen_snapshot.mpr cycle, rfl⟩, rfl⟩, members cycle⟩

end Graph

end Provenance
