import Provenance.Proofs.Graph.Found
import Provenance.Proofs.Graph.Runs

/-! # Strongly connected components

The groups that are found are the components on whose vertices there is a cycle. They are told here
by the edges of the graph alone.
-/

open Relation (TransGen ReflTransGen)

namespace Provenance.Graph

variable {N E : Type} {g : Graph N E} {v w : Vertex} {group : List Vertex}

theorem Mutual.symm (both : g.Mutual v w) : g.Mutual w v := ⟨both.2, both.1⟩

theorem Mutual.trans {u : Vertex} (first : g.Mutual u v) (second : g.Mutual v w) : g.Mutual u w :=
  ⟨first.1.trans second.1, second.2.trans first.2⟩

/-- A strongly connected component in storage order: with a vertex it holds those that reach it and
are reached from it, and nothing else. -/
structure IsComponent (g : Graph N E) (group : List Vertex) : Prop where
  ordered : group.Sublist g.vertexList
  inhabited : group ≠ []
  members : ∀ v ∈ group, ∀ w, w ∈ group ↔ ReflTransGen g.Joined v w ∧ ReflTransGen g.Joined w v

namespace IsComponent

theorem nodup (component : g.IsComponent group) : group.Nodup :=
  g.vertices.handles_nodup.sublist component.ordered

theorem sorted (component : g.IsComponent group) : group.Pairwise (·.index < ·.index) :=
  g.vertices.handles_sorted.sublist component.ordered

/-- Of two vertices in a component each lies on a cycle with the other. -/
theorem mutual_of_ne (component : g.IsComponent group) (listed : v ∈ group) (listed' : w ∈ group)
    (apart : v ≠ w) : g.Mutual v w := by
  obtain ⟨forth, back⟩ := (component.members v listed w).mp listed'
  exact ⟨(Relation.reflTransGen_iff_eq_or_transGen.mp forth).resolve_left apart.symm,
    (Relation.reflTransGen_iff_eq_or_transGen.mp back).resolve_left apart⟩

/-- Once a member is on a cycle the others are those on a cycle with it. -/
theorem mem_iff_mutual (component : g.IsComponent group) (listed : v ∈ group)
    (cycle : TransGen g.Joined v v) : w ∈ group ↔ g.Mutual v w := by
  rw [component.members v listed]
  constructor
  · exact fun ⟨forth, back⟩ => ⟨cycle.trans_left forth, TransGen.trans_right back cycle⟩
  · exact fun ⟨forth, back⟩ => ⟨forth.to_reflTransGen, back.to_reflTransGen⟩

/-- There is a cycle in a component if it has two vertices or an edge from one to itself. -/
theorem exists_cycle_iff (component : g.IsComponent group) :
    (∃ v ∈ group, TransGen g.Joined v v) ↔
      1 < group.length ∨ ∃ v, group = [v] ∧ g.Joined v v := by
  constructor
  · rintro ⟨v, listed, cycle⟩
    obtain ⟨w, joined, rest⟩ := TransGen.head'_iff.mp cycle
    have listed' : w ∈ group := (component.members v listed w).mpr ⟨.single joined, rest⟩
    refine (Nat.lt_or_ge 1 group.length).imp_right fun few => ?_
    obtain ⟨u, rfl⟩ := List.length_eq_one_iff.mp
      (Nat.le_antisymm few (List.length_pos_of_mem listed))
    obtain rfl := List.mem_singleton.mp listed
    obtain rfl := List.mem_singleton.mp listed'
    exact ⟨w, rfl, joined⟩
  · rintro (more | ⟨v, rfl, loop⟩)
    · have apart : group[0] ≠ group[1] := fun same =>
        absurd ((component.nodup.getElem_inj_iff).mp same) Nat.zero_ne_one
      have both := component.mutual_of_ne (List.getElem_mem _) (List.getElem_mem _) apart
      exact ⟨_, List.getElem_mem _, both.1.trans both.2⟩
    · exact ⟨v, List.mem_singleton_self v, .single loop⟩

end IsComponent

/-! ## Groups -/

theorem ordered_of_mem_cyclicGroups (listed : group ∈ g.cyclicGroups) :
    group.Sublist g.vertexList := by
  obtain ⟨numbers, found, rfl⟩ := List.mem_map.mp listed
  obtain ⟨i, -, rfl⟩ := Digraph.mem_cyclicGroups.mp found
  rw [← g.map_label_finRange]
  exact List.filter_sublist.map _

/-- The groups are the components that hold a cycle. -/
theorem Valid.mem_cyclicGroups (valid : g.Valid) :
    group ∈ g.cyclicGroups ↔ g.IsComponent group ∧ ∃ v ∈ group, TransGen g.Joined v v := by
  obtain ⟨sound, complete⟩ := valid.cyclicGroups_spec
  constructor
  · intro listed
    obtain ⟨v, cycle, member⟩ := sound group listed
    have own : v ∈ group := (member v).mpr cycle
    refine ⟨⟨ordered_of_mem_cyclicGroups listed, List.ne_nil_of_mem own, ?_⟩, v, own, cycle.1⟩
    intro u here w
    have around := (member u).mp here
    rw [member w]
    constructor
    · intro there
      exact ⟨(around.2.trans there.1).to_reflTransGen, (there.2.trans around.1).to_reflTransGen⟩
    · exact fun ⟨forth, back⟩ => ⟨around.1.trans_left forth, TransGen.trans_right back around.2⟩
  · rintro ⟨component, v, here, cycle⟩
    obtain ⟨found, listed, member⟩ := complete v ⟨cycle, cycle⟩
    have sorted : found.Pairwise (·.index < ·.index) :=
      g.vertices.handles_sorted.sublist (ordered_of_mem_cyclicGroups listed)
    obtain rfl : found = group := Handle.eq_of_mem_iff sorted component.sorted fun w =>
      (member w).trans (component.mem_iff_mutual here cycle).symm
    exact listed

/-- Vertices are in one group if they lie on a common cycle. -/
theorem Valid.share_group_iff (valid : g.Valid) :
    (∃ group ∈ g.cyclicGroups, v ∈ group ∧ w ∈ group) ↔ g.Mutual v w := by
  obtain ⟨sound, complete⟩ := valid.cyclicGroups_spec
  constructor
  · rintro ⟨group, listed, here, there⟩
    obtain ⟨u, -, member⟩ := sound group listed
    exact ((member v).mp here).symm.trans ((member w).mp there)
  · intro both
    have cycle : g.Mutual v v := both.trans both.symm
    obtain ⟨group, listed, member⟩ := complete v cycle
    exact ⟨group, listed, (member v).mpr cycle, (member w).mpr both⟩

theorem Valid.mem_flatten_cyclicGroups (valid : g.Valid) :
    v ∈ g.cyclicGroups.flatten ↔ TransGen g.Joined v v := by
  rw [List.mem_flatten]
  have share := valid.share_group_iff (v := v) (w := v)
  simpa only [and_self, Mutual] using share

theorem nodup_flatten_cyclicGroups (g : Graph N E) : g.cyclicGroups.flatten.Nodup := by
  unfold cyclicGroups
  dsimp only
  rw [← List.map_flatten]
  exact g.snapshot.digraph.nodup_flatten_cyclicGroups.map fun _ _ => label_inj

/-- The groups come in the storage order of their first vertices. -/
theorem heads_cyclicGroups (g : Graph N E) :
    (g.cyclicGroups.map List.head?).Sublist (g.vertexList.map some) := by
  have labels : ∀ groups : List (List (Fin g.snapshot.size)),
      (groups.map (·.map g.snapshot.label)).map List.head? =
        (groups.map List.head?).map (Option.map g.snapshot.label) := by
    intro groups
    rw [List.map_map, List.map_map]
    exact List.map_congr_left fun group _ => List.head?_map
  have numbers : g.vertexList.map some =
      ((List.finRange g.snapshot.size).map some).map (Option.map g.snapshot.label) := by
    rw [← g.map_label_finRange, List.map_map, List.map_map]
    rfl
  unfold cyclicGroups
  dsimp only
  rw [labels, numbers]
  exact g.snapshot.digraph.heads_cyclicGroups.map _

/-- Whatever the graph, the groups are its strongly connected components of two or more vertices and
those of one vertex with an edge to itself. Vertices share a group if each reaches the other, those
on a cycle are in one group each and once, and no others are in any. -/
theorem components_on_cycles [Inhabited N] [Inhabited E] (direction : Direction)
    (ms : List (Mutation N E)) :
    let g := (empty direction : Graph N E).after ms
    (∀ group, group ∈ g.cyclicGroups ↔
      g.IsComponent group ∧ (1 < group.length ∨ ∃ v, group = [v] ∧ g.Joined v v)) ∧
    (∀ v w, (∃ group ∈ g.cyclicGroups, v ∈ group ∧ w ∈ group) ↔
      TransGen g.Joined v w ∧ TransGen g.Joined w v) ∧
    (∀ v, v ∈ g.cyclicGroups.flatten ↔ TransGen g.Joined v v) ∧
    g.cyclicGroups.flatten.Nodup ∧
    (g.cyclicGroups.map List.head?).Sublist (g.vertexList.map some) := by
  intro g
  have valid := valid_after (valid_empty direction) ms
  refine ⟨fun group => ?_, fun v w => valid.share_group_iff,
    fun v => valid.mem_flatten_cyclicGroups, g.nodup_flatten_cyclicGroups, g.heads_cyclicGroups⟩
  exact valid.mem_cyclicGroups.trans (and_congr_right fun component => component.exists_cycle_iff)

end Provenance.Graph
