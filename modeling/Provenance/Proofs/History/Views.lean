import Provenance.Proofs.Graph.Paths
import Provenance.Proofs.History.Cycles
import Provenance.Proofs.History.Found
import Provenance.Proofs.History.Paths
import Provenance.Proofs.History.Runs

/-! # Views of one ancestry

The cloud, the paths, the order of all files and the lists of derived files come from searches of
their own. Without cycles they all tell of the same chains of versions.
-/

open Relation (TransGen ReflTransGen)

namespace Provenance

theorem Relation.compare_eq_lt_iff {r r' : Relation} :
    compare r r' = .lt ↔ r.subject.value < r'.subject.value ∨
      r.subject = r'.subject ∧ r.object.value < r'.object.value := by
  have less : ∀ {a b : ImageId}, compare a b = .lt ↔ a.value < b.value := fun {a b} =>
    show compare a.value b.value = .lt ↔ _ from Std.compare_eq_lt
  have equal : ∀ {a b : ImageId}, compare a b = .eq ↔ a = b := Std.compare_eq_iff_eq
  change (compare r.subject r'.subject).then (compare r.object r'.object) = .lt ↔ _
  rw [Ordering.then_eq_lt, less, equal, less]

namespace History

variable {h : History} {a b : ImageId} {v w : Vertex} {order : SearchOrder}

/-! ## The cloud -/

/-- A record of the cloud tells of a chain of versions, and there is one for every such chain. -/
theorem Valid.mem_cloud_of_holds (valid : h.Valid) {cloud : List Relation}
    (known : h.relationCloud = .ok cloud) (holds_a : h.Holds v a) (holds_b : h.Holds w b) :
    (⟨b, a⟩ ∈ cloud → TransGen h.Parent v w) ∧
      (h.graph.ClosureFits → TransGen h.Parent v w → ⟨b, a⟩ ∈ cloud) := by
  obtain ⟨-, only, all⟩ := valid.relationCloud_spec known
  rw [← valid.transGen_recorded_of_holds holds_a holds_b]
  exact ⟨only ⟨b, a⟩, fun room => all (.inr room) ⟨b, a⟩⟩

/-! ## Derived files -/

/-- Versions that hang on another one are at the end of a chain from it. -/
theorem Valid.chain_of_mem_descendants (valid : h.Valid) (room : h.graph.vertices.isFull = false)
    (live : h.graph.containsVertex v = true) (listed : w ∈ h.descendants v order) :
    TransGen h.Parent v w := by
  obtain ⟨below, other⟩ := List.mem_filter.mp listed
  rw [valid.rooted_eq] at below
  have way := Graph.way_of_mem_dominatedBy valid.graph room live below
  rw [valid.passes_eq .leaves] at way
  rcases Relation.reflTransGen_iff_eq_or_transGen.mp way with same | chain
  · exact absurd same (bne_iff_ne.mp other)
  · exact chain

theorem Valid.derivedFrom_descend (valid : h.Valid) (found : h.vertexFor? a = some v)
    (order : SearchOrder) :
    ∃ ids, h.derivedFrom a order = .ok ids ∧ ∀ x ∈ ids, TransGen h.Recorded a x := by
  have holds_a := holds_of_vertexFor? found
  cases room : h.graph.vertices.isFull with
  | true => exact ⟨[], derivedFrom_of_full valid room found order, fun x listed => nomatch listed⟩
  | false =>
      refine ⟨_, derivedFrom_of_found found order, fun x listed => ?_⟩
      obtain ⟨w, below, holds_x⟩ := mem_idsOf.mp listed
      have chain := valid.chain_of_mem_descendants room holds_a.live below
      exact (valid.transGen_recorded_of_holds holds_a holds_x).mpr chain

/-! ## All files in order -/

theorem idsOf_append (vs ws : List Vertex) : h.idsOf (vs ++ ws) = h.idsOf vs ++ h.idsOf ws := by
  simp only [idsOf, List.filterMap_append, List.flatMap_append]

/-- Files of versions that come one after the other do so as well. -/
theorem sublist_idsOf {vs : List Vertex} (listed : [v, w].Sublist vs) (holds_a : h.Holds v a)
    (holds_b : h.Holds w b) : [a, b].Sublist (h.idsOf vs) := by
  obtain ⟨before, after, rfl, first, second⟩ := List.cons_sublist_iff.mp listed
  have in_before : a ∈ h.idsOf before := mem_idsOf.mpr ⟨v, first, holds_a⟩
  have in_after : b ∈ h.idsOf after :=
    mem_idsOf.mpr ⟨w, List.singleton_sublist.mp second, holds_b⟩
  rw [idsOf_append]
  exact List.cons_sublist_iff.mpr ⟨_, _, rfl, in_before, List.singleton_sublist.mpr in_after⟩

/-- Every file is listed once, and after all it descends from. -/
theorem Valid.sortedImages_spec (valid : h.Valid) (acyclic : ∀ a, ¬ TransGen h.Recorded a a) :
    ∃ images, h.sortedImages = .ok images ∧ images.Nodup ∧
      (∀ id, id ∈ images ↔ h.contains id = true) ∧
      ∀ a b, TransGen h.Recorded a b → [a, b].Sublist images := by
  obtain ⟨order, sorted⟩ :=
    (Graph.topologicalSort_ok_iff valid.graph).mpr (valid.acyclic_iff.mpr acyclic)
  obtain ⟨nodup, complete, onward⟩ := valid.graph.topologicalSort_spec sorted
  -- the order read from the roots on, in either direction of storage
  have downward : ∃ vs, h.sortedImages = .ok (h.idsOf vs) ∧ vs.Nodup ∧
      (∀ u, u ∈ vs ↔ h.graph.containsVertex u = true) ∧
      ∀ p c, TransGen h.Parent p c → [p, c].Sublist vs := by
    unfold sortedImages
    simp only [sorted, transGen_parent, orient]
    cases h.config.direction with
    | parentToChild => exact ⟨order, rfl, nodup, complete, fun p c => onward p c⟩
    | childToParent =>
        refine ⟨order.reverse, rfl, List.nodup_reverse.mpr nodup,
          fun u => List.mem_reverse.trans (complete u), fun p c chain => ?_⟩
        exact (onward c p chain).reverse
  obtain ⟨vs, told, once, all, first⟩ := downward
  refine ⟨_, told, valid.nodup_idsOf once, fun id => ?_, fun a b chain => ?_⟩
  · rw [mem_idsOf, contains_iff]
    exact exists_congr fun u => and_iff_right_of_imp fun holds => (all u).mpr holds.live
  · obtain ⟨p, c, chain, holds_a, holds_b⟩ := valid.transGen_recorded.mp chain
    exact sublist_idsOf (first p c chain) holds_a holds_b

/-! ## Paths -/

/-- The list has the first file of one version after the other, from `v` to `w`, and each is
recorded to be derived from the one before, or else each from the one after. -/
structure Traces (h : History) (v w : Vertex) (chain : List ImageId) : Prop where
  versions : ∃ versions : List Vertex, versions.Nodup ∧ versions.head? = some v ∧
    versions.getLast? = some w ∧ chain.map some = versions.map h.primaryAt?
  recorded : chain.IsChain h.Recorded ∨ chain.IsChain (Function.swap h.Recorded)

/-- The searches follow the stored edges, which is either from parents to children or back. -/
theorem joined_either_way (h : History) :
    h.graph.Joined = h.Parent ∨ h.graph.Joined = Function.swap h.Parent := by
  unfold Parent orient
  cases h.config.direction with
  | parentToChild => exact .inl rfl
  | childToParent => exact .inr rfl

theorem Valid.primaryIdsOf_eq_nil_iff (valid : h.Valid) {path : List Vertex}
    (live : ∀ u ∈ path, h.graph.containsVertex u = true) :
    h.primaryIdsOf path = [] ↔ path = [] := by
  obtain ⟨first, -, ids⟩ := valid.primaryIdsOf_eq
  rw [ids path live, List.map_eq_nil_iff]

theorem Valid.traces_primaryIdsOf (valid : h.Valid) (acyclic : ∀ a, ¬ TransGen h.Recorded a a)
    {path : List Vertex} (live : ∀ u ∈ path, h.graph.containsVertex u = true)
    (either : IsPath h.Parent v w path ∨ IsPath (Function.swap h.Parent) v w path) :
    h.Traces v w (h.primaryIdsOf path) := by
  obtain ⟨first, primary, ids⟩ := valid.primaryIdsOf_eq
  have records : ∀ p c, h.Parent p c → h.Recorded (first p) (first c) := by
    intro p c parent
    obtain ⟨live_p, live_c⟩ := valid.live_of_parent parent
    exact valid.recorded_iff.mpr ⟨p, c, parent, List.mem_of_head? (primary p live_p),
      List.mem_of_head? (primary c live_c)⟩
  have firsts : (path.map first).map some = path.map h.primaryAt? := by
    rw [List.map_map]
    exact List.map_congr_left fun u listed => (primary u (live u listed)).symm
  rw [ids path live]
  have downward := valid.acyclic_parents_iff.mpr acyclic
  have upward : ∀ v, ¬ TransGen (Function.swap h.Parent) v v := fun v cycle =>
    downward v (Relation.transGen_swap.mp cycle)
  rcases either with down | up
  · exact ⟨⟨path, down.nodup downward, down.first, down.last, firsts⟩,
      .inl (down.map records).steps⟩
  · exact ⟨⟨path, up.nodup upward, up.first, up.last, firsts⟩,
      .inr (up.map fun p c => records c p).steps⟩

/-- Without cycles a path between two versions is found if one descends from the other. -/
theorem Valid.pathBetween_spec (valid : h.Valid) (acyclic : ∀ a, ¬ TransGen h.Recorded a a)
    (found : h.vertexFor? a = some v) (found' : h.vertexFor? b = some w) (apart : v ≠ w) :
    ∃ chain, h.pathBetween a b = .ok chain ∧
      (chain ≠ [] ↔ TransGen h.Parent v w ∨ TransGen h.Parent w v) ∧
      (chain ≠ [] → h.Traces v w chain) := by
  have live := (holds_of_vertexFor? found).live
  have live' := (holds_of_vertexFor? found').live
  have no_cycle := valid.acyclic_iff.mpr acyclic
  have chain_iff : ∀ {s t}, s ≠ t →
      (ReflTransGen h.graph.Joined s t ↔ TransGen h.graph.Joined s t) := fun other =>
    Relation.reflTransGen_iff_eq_or_transGen.trans
      (or_iff_right fun same => other same.symm)
  obtain ⟨path, searched⟩ := (valid.graph.shortestPath_ok_iff live live').mpr
    (.inr ⟨fun u _ => no_cycle u, .inr fun u _ => no_cycle u⟩)
  have within : ∀ u ∈ path, h.graph.containsVertex u = true := fun u =>
    Graph.live_of_shortestPath searched
  have same_empty := valid.primaryIdsOf_eq_nil_iff within
  refine ⟨h.primaryIdsOf path, by rw [pathBetween_of_found found found', searched], ?_, ?_⟩
  · rw [ne_eq, same_empty, valid.graph.shortestPath_eq_nil_iff live live' searched,
      not_and_or, not_not, not_not, chain_iff apart, chain_iff apart.symm]
    rcases h.joined_either_way with same | swapped
    · rw [same]
    · rw [swapped, or_comm]
      exact or_congr Relation.transGen_swap Relation.transGen_swap
  · intro any
    have either := valid.graph.isPath_of_shortestPath searched fun empty =>
      any (same_empty.mpr empty)
    rcases h.joined_either_way with same | swapped
    · rw [same] at either
      exact valid.traces_primaryIdsOf acyclic within either
    · rw [swapped] at either
      exact valid.traces_primaryIdsOf acyclic within either.symm

/-! ## The views agree -/

/-- What the other questions to a history say about a cloud of its records. That every chain has its
records in the cloud takes handles for them. -/
structure ViewsAgree (h : History) (cloud : List Relation) : Prop where
  increasing : cloud.Pairwise fun r r' => r.subject.value < r'.subject.value ∨
    r.subject = r'.subject ∧ r.object.value < r'.object.value
  apart : ∀ r ∈ cloud, ∃ v w, h.vertexFor? r.object = some v ∧ h.vertexFor? r.subject = some w ∧
    v ≠ w
  chains : ∀ a b v w, h.vertexFor? a = some v → h.vertexFor? b = some w →
    (⟨b, a⟩ ∈ cloud → TransGen h.Parent v w) ∧
      (h.graph.ClosureFits → TransGen h.Parent v w → ⟨b, a⟩ ∈ cloud)
  paths : ∀ a b v w, h.vertexFor? a = some v → h.vertexFor? b = some w → v ≠ w →
    ∃ chain, h.pathBetween a b = .ok chain ∧
      (⟨b, a⟩ ∈ cloud ∨ ⟨a, b⟩ ∈ cloud → chain ≠ []) ∧
      (h.graph.ClosureFits → chain ≠ [] → ⟨b, a⟩ ∈ cloud ∨ ⟨a, b⟩ ∈ cloud) ∧
      (chain ≠ [] → h.Traces v w chain)
  sorted : ∃ images, h.sortedImages = .ok images ∧ images.Nodup ∧
    (∀ id, id ∈ images ↔ h.contains id = true) ∧
    ∀ r ∈ cloud, [r.object, r.subject].Sublist images
  derived : ∀ a order, h.contains a = true → ∃ ids, h.derivedFrom a order = .ok ids ∧
    (h.graph.ClosureFits → ∀ x ∈ ids, ⟨x, a⟩ ∈ cloud)

theorem Valid.viewsAgree (valid : h.Valid) (acyclic : ∀ a, ¬ TransGen h.Recorded a a)
    {cloud : List Relation} (known : h.relationCloud = .ok cloud) : h.ViewsAgree cloud := by
  obtain ⟨sorted, only, all⟩ := valid.relationCloud_spec known
  have no_cycle := valid.acyclic_parents_iff.mpr acyclic
  have chains : ∀ a b v w, h.vertexFor? a = some v → h.vertexFor? b = some w →
      (⟨b, a⟩ ∈ cloud → TransGen h.Parent v w) ∧
        (h.graph.ClosureFits → TransGen h.Parent v w → ⟨b, a⟩ ∈ cloud) :=
    fun a b v w found found' => valid.mem_cloud_of_holds known (holds_of_vertexFor? found)
      (holds_of_vertexFor? found')
  refine ⟨sorted.imp Relation.compare_eq_lt_iff.mp, fun r listed => ?_, chains,
    fun a b v w found found' apart => ?_, ?_, fun a order known_a => ?_⟩
  · obtain ⟨v, w, chain, object, subject⟩ := valid.transGen_recorded.mp (only r listed)
    refine ⟨v, w, valid.vertexFor?_eq_some.mpr object, valid.vertexFor?_eq_some.mpr subject, ?_⟩
    rintro rfl
    exact no_cycle v chain
  · obtain ⟨chain, asked, any_iff, traces⟩ := valid.pathBetween_spec acyclic found found' apart
    obtain ⟨down, down'⟩ := chains a b v w found found'
    obtain ⟨up, up'⟩ := chains b a w v found' found
    exact ⟨chain, asked, fun listed => any_iff.mpr (listed.imp down up),
      fun room any => (any_iff.mp any).imp (down' room) (up' room), traces⟩
  · obtain ⟨images, told, nodup, complete, onward⟩ := valid.sortedImages_spec acyclic
    exact ⟨images, told, nodup, complete, fun r listed => onward _ _ (only r listed)⟩
  · obtain ⟨v, found⟩ := Option.isSome_iff_exists.mp known_a
    obtain ⟨ids, told, descend⟩ := valid.derivedFrom_descend found order
    exact ⟨ids, told, fun room x listed => all (.inr room) ⟨x, a⟩ (descend x listed)⟩

/-- However a history without cycles came about, its cloud, its paths, the order of its files and
the lists of derived files all tell of the same chains of versions. -/
theorem views_agree {start : Start} {h₀ : History} (opened : start.initial = .ok h₀)
    (cs : List Change) (acyclic : ∀ a, ¬ TransGen (h₀.after cs).Recorded a a) :
    ∃ cloud, (h₀.after cs).relationCloud = .ok cloud ∧ (h₀.after cs).ViewsAgree cloud := by
  obtain ⟨config, opening⟩ := Start.grows opened
  have valid := (grows_after opening.valid cs).valid
  obtain ⟨cloud, known⟩ := valid.relationCloud_ok_iff.mpr acyclic
  exact ⟨cloud, known, valid.viewsAgree acyclic known⟩

/-- A chain of three versions, stored from children to parents, with two files in the middle. -/
theorem views_agree_chain :
    let h := (empty { direction := .childToParent }).after
      [.addRelations [⟨⟨2⟩, ⟨1⟩⟩, ⟨⟨3⟩, ⟨2⟩⟩], .addDuplicate ⟨2⟩ ⟨4⟩]
    h.graph.ClosureFits ∧
      h.ViewsAgree [⟨⟨2⟩, ⟨1⟩⟩, ⟨⟨3⟩, ⟨1⟩⟩, ⟨⟨3⟩, ⟨2⟩⟩, ⟨⟨3⟩, ⟨4⟩⟩, ⟨⟨4⟩, ⟨1⟩⟩] ∧
      h.pathBetween ⟨3⟩ ⟨1⟩ = .ok [⟨3⟩, ⟨2⟩, ⟨1⟩] := by
  intro h
  have opened : (Start.blank { direction := .childToParent }).initial =
      .ok (empty { direction := .childToParent }) := rfl
  have valid : h.Valid := (grows_after (valid_empty { direction := .childToParent }) _).valid
  have acyclic : ∀ a, ¬ TransGen h.Recorded a a := by
    refine valid.cycles_eq_nil_iff.mp ?_
    dsimp only [h]
    cbv
  have told : h.relationCloud =
      .ok [⟨⟨2⟩, ⟨1⟩⟩, ⟨⟨3⟩, ⟨1⟩⟩, ⟨⟨3⟩, ⟨2⟩⟩, ⟨⟨3⟩, ⟨4⟩⟩, ⟨⟨4⟩, ⟨1⟩⟩] := by
    dsimp only [h]
    cbv
  have few : h.graph.vertexCount = 3 := by
    dsimp only [h]
    cbv
  obtain ⟨cloud, known, agree⟩ := views_agree opened
    [.addRelations [⟨⟨2⟩, ⟨1⟩⟩, ⟨⟨3⟩, ⟨2⟩⟩], .addDuplicate ⟨2⟩ ⟨4⟩] acyclic
  obtain rfl := Except.ok.inj (known.symm.trans told)
  refine ⟨valid.graph.closureFits (by rw [few]; decide), agree, ?_⟩
  dsimp only [h]
  cbv

end History

end Provenance
