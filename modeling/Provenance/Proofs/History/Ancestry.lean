import Mathlib.Data.List.Sort
import Provenance.History.Query
import Provenance.Proofs.Graph.Derived
import Provenance.Proofs.History.Valid

/-! # Ancestry

The records of a history join images as its derivations join versions. A chain of versions and a
chain of records are the same thing, as every version has a file and no file has two versions.
-/

open Relation (TransGen)

namespace Provenance

namespace History

/-- A list whose members can be told apart by those of another list is no longer than that. -/
theorem length_le_of_rel {α β : Type} {l : List α} {m : List β} (nodup : l.Nodup)
    (rel : α → β → Prop) (total : ∀ a ∈ l, ∃ b ∈ m, rel a b)
    (unique : ∀ a a' b, rel a b → rel a' b → a = a') : l.length ≤ m.length := by
  induction l generalizing m with
  | nil => exact Nat.zero_le _
  | cons a l ih =>
      classical
      obtain ⟨new, nodup⟩ := List.nodup_cons.mp nodup
      obtain ⟨b, listed, related⟩ := total a List.mem_cons_self
      have shorter : l.length ≤ (m.erase b).length := ih nodup fun a' listed' => by
        obtain ⟨b', listed_b', related'⟩ := total a' (List.mem_cons_of_mem a listed')
        have other : b' ≠ b := by
          rintro rfl
          exact new (unique a a' b' related related' ▸ listed')
        exact ⟨b', (List.mem_erase_of_ne other).mpr listed_b', related'⟩
      have positive := List.length_pos_of_mem listed
      rw [List.length_erase_of_mem listed] at shorter
      rw [List.length_cons]
      omega

/-- One version was derived from another, whichever way the edge is stored. -/
def Parent (h : History) (p c : Vertex) : Prop :=
  h.graph.Joined (h.orient p c).1 (h.orient p c).2

/-- One image is recorded to have been derived from another. -/
def Recorded (h : History) (a b : ImageId) : Prop := ⟨b, a⟩ ∈ h.relations

/-! ## Either direction -/

@[simp]
theorem orient_orient (h : History) (s t : Vertex) :
    h.orient (h.orient s t).1 (h.orient s t).2 = (s, t) := by
  unfold orient
  cases h.config.direction <;> rfl

theorem orient_inj {h : History} {p c p' c' : Vertex} (same : h.orient p c = h.orient p' c') :
    p = p' ∧ c = c' := by
  have back := congrArg (fun ends => h.orient ends.1 ends.2) same
  simpa using back

theorem joined_iff_parent {h : History} {s t : Vertex} :
    h.graph.Joined s t ↔ h.Parent (h.orient s t).1 (h.orient s t).2 := by
  rw [Parent, orient_orient]

theorem transGen_parent {h : History} {p c : Vertex} :
    TransGen h.Parent p c ↔ TransGen h.graph.Joined (h.orient p c).1 (h.orient p c).2 := by
  cases direction : h.config.direction with
  | parentToChild =>
      have same : h.Parent = h.graph.Joined := by
        funext p c
        rw [Parent, orient, direction]
        rfl
      rw [same, orient, direction]
      rfl
  | childToParent =>
      have swapped : h.Parent = Function.swap h.graph.Joined := by
        funext p c
        rw [Parent, orient, direction]
        rfl
      rw [swapped, orient, direction]
      exact Relation.transGen_swap

theorem Valid.live_of_parent {h : History} (valid : h.Valid) {p c : Vertex}
    (parent : h.Parent p c) :
    h.graph.containsVertex p = true ∧ h.graph.containsVertex c = true := by
  have live := valid.graph.live_of_joined parent
  unfold orient at live
  cases direction : h.config.direction <;> rw [direction] at live
  · exact live
  · exact live.symm

theorem Valid.live_of_parents {h : History} (valid : h.Valid) {p c : Vertex}
    (chain : TransGen h.Parent p c) :
    h.graph.containsVertex p = true ∧ h.graph.containsVertex c = true := by
  obtain ⟨v, first, -⟩ := TransGen.head'_iff.mp chain
  obtain ⟨w, -, last⟩ := TransGen.tail'_iff.mp chain
  exact ⟨(valid.live_of_parent first).1, (valid.live_of_parent last).2⟩

/-- A live vertex has a file. -/
theorem Valid.exists_holds {h : History} (valid : h.Valid) {v : Vertex}
    (live : h.graph.containsVertex v = true) : ∃ id, h.Holds v id := by
  obtain ⟨node, found⟩ := Graph.containsVertex_iff.mp live
  have version : h.graph.vertexPayload? v = some node.payload := by
    rw [Graph.vertexPayload?, found]
    rfl
  obtain ⟨id, listed⟩ := List.exists_mem_of_ne_nil _ (valid.nonempty v _ version)
  exact ⟨id, holds_iff.mpr ⟨_, version, listed⟩⟩

/-! ## Records -/

theorem mem_relationsBetween {p c : Version} {r : Relation} :
    r ∈ relationsBetween p c ↔ r.object ∈ p.ids ∧ r.subject ∈ c.ids := by
  simp only [relationsBetween, List.mem_flatMap, List.mem_map]
  constructor
  · rintro ⟨subject, hs, object, ho, rfl⟩
    exact ⟨ho, hs⟩
  · rintro ⟨ho, hs⟩
    exact ⟨r.subject, hs, r.object, ho, rfl⟩

theorem mem_relationsOf {h : History} {e : Edge} {link : Link Derivation}
    (found : h.graph.edges.get? e = some link) {r : Relation} :
    r ∈ h.relationsOf e ↔ h.Holds (h.orient link.source link.target).1 r.object ∧
      h.Holds (h.orient link.source link.target).2 r.subject := by
  simp only [relationsOf, found, holds_iff]
  cases h.graph.vertexPayload? (h.orient link.source link.target).1 <;>
    cases h.graph.vertexPayload? (h.orient link.source link.target).2 <;>
    simp [mem_relationsBetween]

theorem Valid.recorded_iff {h : History} (valid : h.Valid) {a b : ImageId} :
    h.Recorded a b ↔ ∃ p c, h.Parent p c ∧ h.Holds p a ∧ h.Holds c b := by
  rw [Recorded, relations, List.mem_flatMap]
  constructor
  · rintro ⟨e, listed, record⟩
    obtain ⟨link, found⟩ := Graph.containsEdge_iff.mp (Arena.mem_handles.mp listed)
    have holds := (mem_relationsOf found).mp record
    refine ⟨_, _, joined_iff_parent.mp ?_, holds⟩
    exact valid.graph.joined_iff.mpr ⟨e, link, found, rfl⟩
  · rintro ⟨p, c, parent, holds⟩
    obtain ⟨e, link, found, ends⟩ := valid.graph.joined_iff.mp parent
    refine ⟨e, Arena.mem_handles.mpr (Graph.containsEdge_iff.mpr ⟨link, found⟩), ?_⟩
    have oriented : h.orient link.source link.target = (p, c) := by
      obtain ⟨source, target⟩ := Prod.mk.inj ends
      rw [source, target, orient_orient]
    rw [mem_relationsOf found, oriented]
    exact holds

/-- A chain of records leads from a file to a file as a chain of versions does. -/
theorem Valid.transGen_recorded {h : History} (valid : h.Valid) {a b : ImageId} :
    TransGen h.Recorded a b ↔ ∃ p c, TransGen h.Parent p c ∧ h.Holds p a ∧ h.Holds c b := by
  constructor
  · intro chain
    induction chain with
    | single recorded =>
        obtain ⟨p, c, parent, holds⟩ := valid.recorded_iff.mp recorded
        exact ⟨p, c, .single parent, holds⟩
    | tail _ recorded ih =>
        obtain ⟨p, v, chain, holds_a, holds_x⟩ := ih
        obtain ⟨w, c, parent, holds_x', holds_b⟩ := valid.recorded_iff.mp recorded
        obtain rfl := valid.holder_unique v w _ holds_x holds_x'
        exact ⟨p, c, chain.tail parent, holds_a, holds_b⟩
  · rintro ⟨p, c, chain, holds_a, holds_b⟩
    induction chain generalizing b with
    | single parent => exact .single (valid.recorded_iff.mpr ⟨_, _, parent, holds_a, holds_b⟩)
    | tail _ parent ih =>
        obtain ⟨x, holds_x⟩ := valid.exists_holds (valid.live_of_parent parent).1
        exact (ih holds_x).tail (valid.recorded_iff.mpr ⟨_, _, parent, holds_x, holds_b⟩)

/-- A chain of records between two files is one between their versions. -/
theorem Valid.transGen_recorded_of_holds {h : History} (valid : h.Valid) {a b : ImageId}
    {v w : Vertex} (holds_a : h.Holds v a) (holds_b : h.Holds w b) :
    TransGen h.Recorded a b ↔ TransGen h.Parent v w := by
  rw [valid.transGen_recorded]
  constructor
  · rintro ⟨p, c, chain, holds, holds'⟩
    rwa [valid.holder_unique v p a holds_a holds, valid.holder_unique w c b holds_b holds']
  · exact fun chain => ⟨v, w, chain, holds_a, holds_b⟩

/-- No image descends from itself exactly if no version does. -/
theorem Valid.acyclic_parents_iff {h : History} (valid : h.Valid) :
    (∀ v, ¬ TransGen h.Parent v v) ↔ ∀ a, ¬ TransGen h.Recorded a a := by
  constructor
  · intro acyclic a cycle
    obtain ⟨p, c, chain, holds, holds'⟩ := valid.transGen_recorded.mp cycle
    obtain rfl := valid.holder_unique p c a holds holds'
    exact acyclic p chain
  · intro acyclic v cycle
    obtain ⟨a, holds⟩ := valid.exists_holds (valid.live_of_parents cycle).1
    exact acyclic a ((valid.transGen_recorded_of_holds holds holds).mpr cycle)

/-- No image descends from itself exactly if the graph has no cycle. -/
theorem Valid.acyclic_iff {h : History} (valid : h.Valid) :
    (∀ v, ¬ TransGen h.graph.Joined v v) ↔ ∀ a, ¬ TransGen h.Recorded a a := by
  have loop : ∀ v, TransGen h.Parent v v ↔ TransGen h.graph.Joined v v := fun v => by
    have same : h.orient v v = (v, v) := by
      unfold orient
      cases h.config.direction <;> rfl
    rw [transGen_parent, same]
  simp only [← loop, valid.acyclic_parents_iff]

end History

end Provenance
