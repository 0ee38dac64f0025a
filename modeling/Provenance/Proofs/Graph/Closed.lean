import Mathlib
import Provenance.Proofs.Graph.Placed

/-! # Closed graphs

A closure is told by the graph alone: its edges are the pairs of vertices with a chain from one to
the other, in increasing order of their places, and only edges that the graph has keep a payload.
-/

open Relation (TransGen)

namespace Provenance.Graph

variable {N E : Type} {flags : CopyFlags} {g c : Graph N E}

/-- The pairs of places such that the vertex in the first one reaches the vertex in the second one
over one or more edges, in increasing order. -/
structure ListsReached (g : Graph N E) (pairs : List (Nat × Nat)) : Prop where
  increasing : pairs.Pairwise (Prod.Lex (· < ·) (· < ·))
  mem_iff : ∀ i j, (i, j) ∈ pairs ↔
    ∃ v w, g.vertexList[i]? = some v ∧ g.vertexList[j]? = some w ∧ TransGen g.Joined v w

/-- The second graph has the chains of the first one as its edges, up to the last handle. Each
vertex is in the place of the one that it stands for. -/
structure Closes [Inhabited N] [Inhabited E] (flags : CopyFlags) (g c : Graph N E) : Prop where
  direction : c.direction = g.direction
  vertexList : c.vertexList = g.vertexList.map g.place
  edgePairs : ∃ pairs, g.ListsReached pairs ∧
    c.edgePairs = (pairs.map (Prod.map spot spot)).take Handle.nullIndex ∧
    (g.ClosureFits → c.edgePairs = pairs.map (Prod.map spot spot))
  vertexPayload? : ∀ v, g.containsVertex v = true → c.vertexPayload? (g.place v) =
    if flags.vertexPayloads then g.vertexPayload? v else some default
  edgePayload? : ∀ v w, g.containsVertex v = true → g.containsVertex w = true →
    ∀ e, c.edge? (g.place v) (g.place w) = some e → c.edgePayload? e =
      some (if flags.edgePayloads then g.payloadBetween v w else default)

/-! ## The pairs -/

section Pairs

variable {pairs : List (Fin g.snapshot.size × Fin g.snapshot.size)}

theorem listsReached_of_numbers
    (increasing : pairs.Pairwise fun p q => p.1 < q.1 ∨ p.1 = q.1 ∧ p.2 < q.2)
    (mem_iff : ∀ i j, (i, j) ∈ pairs ↔
      TransGen g.Joined (g.snapshot.label i) (g.snapshot.label j)) :
    g.ListsReached (pairs.map (Prod.map Fin.val Fin.val)) where
  increasing := by
    refine List.pairwise_map.mpr (increasing.imp ?_)
    intro (i, j) (k, l) ahead
    rw [Prod.lex_def]
    exact ahead.imp_right fun ⟨same, less⟩ => ⟨congrArg Fin.val same, less⟩
  mem_iff i j := by
    rw [List.mem_map]
    constructor
    · rintro ⟨⟨k, l⟩, listed, same⟩
      obtain ⟨rfl, rfl⟩ := Prod.mk.inj same
      exact ⟨_, _, getElem?_vertexList.mpr ⟨k, rfl, rfl⟩, getElem?_vertexList.mpr ⟨l, rfl, rfl⟩,
        (mem_iff k l).mp listed⟩
    · rintro ⟨v, w, source, target, chain⟩
      obtain ⟨k, rfl, rfl⟩ := getElem?_vertexList.mp source
      obtain ⟨l, rfl, rfl⟩ := getElem?_vertexList.mp target
      exact ⟨(k, l), (mem_iff k l).mpr chain, rfl⟩

/-- There are handles for all pairs if there are handles for all chains. -/
theorem length_le_of_closureFits (fits : g.ClosureFits) (nodup : pairs.Nodup)
    (chains : ∀ i j, (i, j) ∈ pairs →
      TransGen g.Joined (g.snapshot.label i) (g.snapshot.label j)) :
    pairs.length ≤ Handle.nullIndex := by
  have few := fits (pairs.map fun p => (g.snapshot.label p.1, g.snapshot.label p.2))
    (nodup.map label_pair_inj) fun p labels => by
      obtain ⟨⟨i, j⟩, listed, rfl⟩ := List.mem_map.mp labels
      exact chains i j listed
  rwa [List.length_map] at few

end Pairs

section Closures

variable [Inhabited N] [Inhabited E]

theorem exists_built_of_closure (valid : g.Valid) (closed : g.transitiveClosure flags = .ok c) :
    ∃ pairs, Built flags g c pairs ∧
      pairs.Pairwise (fun p q => p.1 < q.1 ∨ p.1 = q.1 ∧ p.2 < q.2) ∧
      ∀ i j, (i, j) ∈ pairs ↔ TransGen g.Joined (g.snapshot.label i) (g.snapshot.label j) := by
  obtain ⟨reach, found, built⟩ := exists_reach_of_closure closed
  refine ⟨reach.pairs, ⟨reach.nodup_pairs, built.symm⟩, reach.sorted_pairs, fun i j => ?_⟩
  rw [Reach.mem_pairs, Digraph.reach?_eq_some found, valid.transGen_snapshot]

theorem closes_of_closure (valid : g.Valid) (closed : g.transitiveClosure flags = .ok c) :
    Closes flags g c := by
  obtain ⟨pairs, built, increasing, mem_iff⟩ := exists_built_of_closure valid closed
  have copies := built.copies valid
  have listed : spots pairs = (pairs.map (Prod.map Fin.val Fin.val)).map (Prod.map spot spot) := by
    rw [spots, List.map_map]
    rfl
  refine ⟨copies.direction, copies.vertexList_place,
    ⟨_, listsReached_of_numbers increasing mem_iff, ?_, fun fits => ?_⟩,
    fun v => built.vertexPayload?_place valid, fun v w live live' e =>
      built.edgePayload?_place valid live live'⟩
  · rw [copies.edgePairs, listed]
  · have few := length_le_of_closureFits fits built.nodup fun i j => (mem_iff i j).mp
    rw [copies.edgePairs, ← listed, List.take_of_length_le]
    rwa [spots, List.length_map]

theorem closure_of_cycle (valid : g.Valid) (flags : CopyFlags)
    (cyclic : ¬ ∀ v, ¬ TransGen g.Joined v v) :
    g.transitiveClosure flags = .error (.notAcyclic .transitiveClosure) := by
  rw [← reach?_snapshot_isSome_iff valid, Option.not_isSome_iff_eq_none] at cyclic
  rw [transitiveClosure_eq, cyclic]

/-- Whatever the graph and the flags, a cycle is the only thing that a closure fails on. -/
theorem closures_of_run (direction : Direction) (ms : List (Mutation N E)) (flags : CopyFlags) :
    let g := (empty direction : Graph N E).after ms
    let result := g.transitiveClosure flags
    (result = .error (.notAcyclic .transitiveClosure) ↔ ∃ v, TransGen g.Joined v v) ∧
      ((∀ v, ¬ TransGen g.Joined v v) → ∃ c, result = .ok c ∧ Closes flags g c) := by
  intro g result
  have valid : g.Valid := valid_after (valid_empty direction) ms
  have ok_iff := transitiveClosure_ok_iff valid flags
  refine ⟨⟨fun failed => ?_, fun cyclic => ?_⟩, fun acyclic => ?_⟩
  · by_contra acyclic
    obtain ⟨_, closed⟩ := ok_iff.mpr (not_exists.mp acyclic)
    exact nomatch failed.symm.trans closed
  · exact closure_of_cycle valid flags fun acyclic => cyclic.elim acyclic
  · obtain ⟨c, closed⟩ := ok_iff.mpr acyclic
    exact ⟨c, closed, closes_of_closure valid closed⟩

/-- A chain over a vertex in a slot used before. -/
theorem closures_of_run_chain :
    let ms : List (Mutation Nat Nat) :=
      [.addVertexWith 0, .addVertexWith 1, .addVertexWith 2, .removeVertex ⟨0, 0⟩, .addVertexWith 3,
        .addEdgeWith ⟨1, 0⟩ ⟨0, 1⟩ 13, .addEdgeWith ⟨0, 1⟩ ⟨2, 0⟩ 32]
    let g := (empty .childToParent).after ms
    ∃ c, g.transitiveClosure .edges = .ok c ∧ Closes .edges g c ∧
      c.edgePairs = [(⟨0, 0⟩, ⟨2, 0⟩), (⟨1, 0⟩, ⟨0, 0⟩), (⟨1, 0⟩, ⟨2, 0⟩)] := by
  intro ms g
  have acyclic : ∀ v, ¬ TransGen g.Joined v v := by
    refine (isAcyclic_iff (valid_after (valid_empty _) _)).mp ?_
    dsimp only [ms]
    cbv
  have pairs : (g.transitiveClosure .edges).map edgePairs =
      .ok [(⟨0, 0⟩, ⟨2, 0⟩), (⟨1, 0⟩, ⟨0, 0⟩), (⟨1, 0⟩, ⟨2, 0⟩)] := by
    dsimp only [g, ms]
    cbv
  obtain ⟨c, closed, closes⟩ := (closures_of_run .childToParent ms .edges).2 acyclic
  have same : g.transitiveClosure .edges = .ok c := closed
  rw [same] at pairs
  exact ⟨c, closed, closes, Except.ok.inj pairs⟩

end Closures

end Provenance.Graph
