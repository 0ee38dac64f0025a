import Mathlib.Data.List.Perm.Basic
import Provenance.Proofs.Graph.Found
import Provenance.Proofs.History.Unrelated

/-! # Answers as sets

Which files a question to a history lists, told by the steps from parents to children alone. The
order in which they are listed is left open.
-/

open Relation (TransGen ReflTransGen)

namespace Provenance

/-- One step toward an end, where it is known what is a parent of what. -/
def Toward.Step {α : Type} (parent : α → α → Prop) : Toward → α → α → Prop
  | .roots, a, b => parent b a
  | .leaves, a, b => parent a b

namespace History

variable {h h' : History} {toward : Toward} {v w u : Vertex} {id x : ImageId}

/-! ## Files -/

theorem mem_idsOf {vs : List Vertex} : x ∈ h.idsOf vs ↔ ∃ v ∈ vs, h.Holds v x := by
  simp only [idsOf, List.mem_flatMap, List.mem_filterMap, holds_iff]
  constructor
  · rintro ⟨version, ⟨v, listed, found⟩, member⟩
    exact ⟨v, listed, version, found, member⟩
  · rintro ⟨v, listed, version, found, member⟩
    exact ⟨version, ⟨v, listed, found⟩, member⟩

/-- The files of each version come together and as they are stored. -/
theorem idsOf_eq_flatMap (h : History) (vs : List Vertex) : h.idsOf vs = vs.flatMap h.filesAt := by
  unfold idsOf filesAt
  induction vs with
  | nil => rfl
  | cons v vs ih =>
      rw [List.flatMap_cons, ← ih]
      cases found : h.graph.vertexPayload? v with
      | none => rw [List.filterMap_cons_none found, List.nil_append]
      | some version => rw [List.filterMap_cons_some found, List.flatMap_cons]

/-- No file is listed twice. -/
theorem Valid.nodup_idsOf (valid : h.Valid) {vs : List Vertex} (nodup : vs.Nodup) :
    (h.idsOf vs).Nodup := by
  rw [idsOf_eq_flatMap, List.nodup_flatMap]
  refine ⟨fun v _ => valid.nodup_filesAt v, nodup.imp fun {v w} apart x holds holds' => ?_⟩
  exact apart (valid.holder_unique v w x holds holds')

theorem Valid.perm_idsOf (valid : h.Valid) (valid' : h'.Valid) {vs vs' : List Vertex}
    (nodup : vs.Nodup) (nodup' : vs'.Nodup) (same : ∀ x, x ∈ h'.idsOf vs' ↔ x ∈ h.idsOf vs) :
    List.Perm (h.idsOf vs) (h'.idsOf vs') :=
  (List.perm_ext_iff_of_nodup (valid.nodup_idsOf nodup) (valid'.nodup_idsOf nodup')).mpr
    fun x => (same x).symm

/-! ## Steps -/

/-- One step from version to version toward an end. -/
def Next (h : History) : Toward → Vertex → Vertex → Prop := Toward.Step h.Parent

theorem Valid.passes_eq (valid : h.Valid) (toward : Toward) :
    h.graph.Passes (h.graph.direction.way toward) = h.Next toward := by
  funext v w
  unfold Next Toward.Step Parent orient
  rw [valid.direction]
  cases h.config.direction <;> cases toward <;> rfl

theorem Valid.live_of_next (valid : h.Valid) (next : h.Next toward v w) :
    h.graph.containsVertex v = true ∧ h.graph.containsVertex w = true := by
  cases toward with
  | roots => exact (valid.live_of_parent next).symm
  | leaves => exact valid.live_of_parent next

/-- A version with no step toward an end. -/
structure Last (h : History) (toward : Toward) (v : Vertex) : Prop where
  live : h.graph.containsVertex v = true
  stays : ∀ w, ¬ h.Next toward v w

theorem Valid.mem_extremes (valid : h.Valid) :
    v ∈ h.graph.extremes toward ↔ h.Last toward v := by
  rw [valid.graph.mem_extremes, valid.passes_eq]
  exact ⟨fun last => ⟨last.1, last.2⟩, fun last => ⟨last.live, last.stays⟩⟩

theorem Valid.mem_endsToward (valid : h.Valid) (live : h.graph.containsVertex v = true) :
    u ∈ h.endsToward v toward ↔ ReflTransGen (h.Next toward) v u ∧ h.Last toward u := by
  have reached : u ∈ h.graph.breadthFirst v toward ↔ ReflTransGen (h.Next toward) v u := by
    rw [Graph.breadthFirst, valid.graph.mem_discovered, valid.passes_eq, and_iff_right live]
  have ends : ∀ {side}, (∀ w, w ∈ h.graph.adjacentVertices u side ↔ h.Next toward u w) →
      (u ∈ (h.graph.breadthFirst v toward).filter
          (fun u => (h.graph.adjacentVertices u side).isEmpty) ↔
        ReflTransGen (h.Next toward) v u ∧ h.Last toward u) := by
    intro side member
    rw [List.mem_filter, reached, List.isEmpty_iff, List.eq_nil_iff_forall_not_mem]
    simp only [member]
    refine and_congr_right fun way => ⟨fun stays => ⟨?_, stays⟩, Last.stays⟩
    cases way with
    | refl => exact live
    | tail _ next => exact (valid.live_of_next next).2
  cases toward with
  | roots => exact ends fun w => valid.mem_parents
  | leaves => exact ends fun w => valid.mem_children

theorem nodup_endsToward : (h.endsToward v toward).Nodup :=
  Graph.nodup_discovered.filter _

/-! ## What only one version leads to -/

/-- Origins lead to the second version, but none does without a step to the first, unless it is the
first itself. -/
structure Below (h : History) (v u : Vertex) : Prop where
  reached : ∃ o, h.Last .roots o ∧ ReflTransGen h.Parent o u
  only : ¬ ∃ o, h.Last .roots o ∧ o ≠ v ∧ ReflTransGen (fun s t => h.Parent s t ∧ t ≠ v) o u

/-- The versions whose files are listed as derived from those of another. -/
def descendants (h : History) (v : Vertex) (order : SearchOrder) : List Vertex :=
  (h.rooted.2.dominatedBy v h.rooted.1 order).filter (· != v)

theorem derivedFrom_of_found (found : h.vertexFor? id = some v) (order : SearchOrder) :
    h.derivedFrom id order = .ok (h.idsOf (h.descendants v order)) := by
  simp only [derivedFrom, require, found, bind, Except.bind]
  rfl

theorem Valid.mem_descendants (valid : h.Valid) (roomy : h.Roomy)
    (live : h.graph.containsVertex v = true) {order : SearchOrder} :
    u ∈ h.descendants v order ↔ u ≠ v ∧ h.Below v u := by
  have steps : h.graph.Passes (h.graph.direction.way .leaves) = h.Parent := valid.passes_eq .leaves
  rw [descendants, List.mem_filter, (roomy.crowns valid).mem_dominatedBy valid.graph live, steps,
    bne_iff_ne, and_comm]
  simp only [Graph.roots, valid.mem_extremes]
  exact and_congr_right fun _ => ⟨fun way => ⟨way.1, way.2⟩,
    fun below => ⟨below.reached, below.only⟩⟩

theorem nodup_descendants {order : SearchOrder} : (h.descendants v order).Nodup :=
  Graph.nodup_dominatedBy.filter _

/-! ## Groups -/

/-- Two images descend from each other. -/
def Entangled (h : History) (a b : ImageId) : Prop :=
  TransGen h.Recorded a b ∧ TransGen h.Recorded b a

theorem Valid.entangled_iff (valid : h.Valid) {a b : ImageId} (holds_a : h.Holds v a)
    (holds_b : h.Holds w b) : h.Entangled a b ↔ h.graph.Mutual v w := by
  rw [Entangled, valid.transGen_recorded_of_holds holds_a holds_b,
    valid.transGen_recorded_of_holds holds_b holds_a, Graph.Mutual, transGen_parent,
    transGen_parent, orient, orient]
  cases h.config.direction with
  | parentToChild => exact .rfl
  | childToParent => exact and_comm

/-- Each group holds the files on a cycle with one of them, and each file on a cycle is in a
group. -/
theorem Valid.cycles_spec (valid : h.Valid) :
    (∀ group ∈ h.cycles, ∃ a, h.Entangled a a ∧ ∀ b, b ∈ group ↔ h.Entangled a b) ∧
      ∀ a, h.Entangled a a → ∃ group ∈ h.cycles, ∀ b, b ∈ group ↔ h.Entangled a b := by
  obtain ⟨only, all⟩ := valid.graph.cyclicGroups_spec
  have members : ∀ {v a group}, h.Holds v a → (∀ w, w ∈ group ↔ h.graph.Mutual v w) →
      ∀ b, b ∈ h.idsOf group ↔ h.Entangled a b := by
    intro v a group holds_a member b
    rw [mem_idsOf]
    constructor
    · rintro ⟨w, listed, holds_b⟩
      exact (valid.entangled_iff holds_a holds_b).mpr ((member w).mp listed)
    · intro entangled
      obtain ⟨-, w, -, -, holds_b⟩ := valid.transGen_recorded.mp entangled.1
      exact ⟨w, (member w).mpr ((valid.entangled_iff holds_a holds_b).mp entangled), holds_b⟩
  simp only [cycles, List.mem_map]
  constructor
  · rintro _ ⟨group, listed, rfl⟩
    obtain ⟨v, around, member⟩ := only group listed
    obtain ⟨a, holds⟩ := valid.exists_holds (valid.graph.live_of_chain around.1).1
    exact ⟨a, (valid.entangled_iff holds holds).mpr around, members holds member⟩
  · intro a around
    obtain ⟨v, -, -, holds, -⟩ := valid.transGen_recorded.mp around.1
    obtain ⟨group, listed, member⟩ := all v ((valid.entangled_iff holds holds).mp around)
    exact ⟨h.idsOf group, ⟨group, listed, rfl⟩, members holds member⟩

end History

end Provenance
