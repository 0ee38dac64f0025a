import Mathlib
import Provenance.Proofs.History.Mirror

/-! # Paths between images

A path between two images is looked for along the stored edges, first from the one and then from the
other, and a search that meets a cycle fails. So a cycle on one side of two images lets the search
fail in one direction of storage and not in the other; paths that are found agree in length.
-/

open Relation (TransGen ReflTransGen)

namespace Provenance.History

variable {h h' : History}

theorem pathBetween_of_found {a b : ImageId} {v w : Vertex} (found : h.vertexFor? a = some v)
    (found' : h.vertexFor? b = some w) :
    h.pathBetween a b = match h.graph.shortestPath v w with
      | .ok path => .ok (h.primaryIdsOf path)
      | .error cause => .error (.graph cause) := by
  simp only [pathBetween, require, found, found', bind, Except.bind]
  cases h.graph.shortestPath v w <;> rfl

theorem vertexFor?_of_pathBetween {a b : ImageId} {chain : List ImageId}
    (found : h.pathBetween a b = .ok chain) :
    ∃ v w, h.vertexFor? a = some v ∧ h.vertexFor? b = some w := by
  unfold pathBetween require at found
  cases first : h.vertexFor? a with
  | none => simp [first, bind, Except.bind] at found
  | some v =>
      cases second : h.vertexFor? b with
      | none => simp [first, second, bind, Except.bind] at found
      | some w => exact ⟨v, w, rfl, rfl⟩

theorem Valid.pathBetween_ok_iff (valid : h.Valid) {a b : ImageId} {v w : Vertex}
    (found : h.vertexFor? a = some v) (found' : h.vertexFor? b = some w) :
    (∃ chain, h.pathBetween a b = .ok chain) ↔ Findable h.graph.Joined v w := by
  rw [← valid.graph.shortestPath_ok_iff (holds_of_vertexFor? found).live
    (holds_of_vertexFor? found').live, pathBetween_of_found found found']
  cases h.graph.shortestPath v w <;> simp

/-- Paths that are found in both directions of storage have the same length and the same ends. -/
theorem Mirrors.pathBetween (mirrors : Mirrors h h') (valid : h.Valid) (valid' : h'.Valid)
    {a b : ImageId} {chain chain' : List ImageId} (found : h.pathBetween a b = .ok chain)
    (found' : h'.pathBetween a b = .ok chain') :
    chain'.length = chain.length ∧ chain'.head? = chain.head? ∧
      chain'.getLast? = chain.getLast? := by
  obtain ⟨v, w, first, second⟩ := vertexFor?_of_pathBetween found
  have first' := (mirrors.vertexFor? a).trans first
  have second' := (mirrors.vertexFor? b).trans second
  rw [pathBetween_of_found first second] at found
  rw [pathBetween_of_found first' second', mirrors.primaryIdsOf] at found'
  cases searched : h.graph.shortestPath v w with
  | error cause => simp [searched] at found
  | ok path =>
      cases searched' : h'.graph.shortestPath v w with
      | error cause => simp [searched'] at found'
      | ok path' =>
          simp only [searched, searched', Except.ok.injEq] at found found'
          obtain ⟨primary, -, primaries⟩ := valid.primaryIdsOf_eq
          have live' : ∀ u ∈ path', h.graph.containsVertex u = true := by
            intro u listed
            rw [← mirrors.graph.containsVertex]
            exact Graph.live_of_shortestPath searched' listed
          rw [primaries path fun u listed => Graph.live_of_shortestPath searched listed] at found
          rw [primaries path' live'] at found'
          obtain ⟨length, head, last⟩ :=
            mirrors.graph.shortestPath valid.graph valid'.graph searched searched'
          rw [← found, ← found']
          simp [length, head, last]

/-- Paths that are found in either direction of storage have the same length and the same ends. The
search runs from parents to children in one direction and from children to parents in the other, and
what it meets decides whether it fails. Without cycles it never does. -/
theorem pathBetween_either_way (config : Config) (cs : List Change) (a b : ImageId) :
    let h := (empty { config with direction := .parentToChild }).after cs
    let h' := (empty { config with direction := .childToParent }).after cs
    (∀ chain chain', h.pathBetween a b = .ok chain → h'.pathBetween a b = .ok chain' →
      chain'.length = chain.length ∧ chain'.head? = chain.head? ∧
        chain'.getLast? = chain.getLast?) ∧
      ∀ v w, h.vertexFor? a = some v → h.vertexFor? b = some w →
        ((∃ chain, h.pathBetween a b = .ok chain) ↔ Findable h.Parent v w) ∧
        ((∃ chain, h'.pathBetween a b = .ok chain) ↔ Findable (Function.swap h.Parent) v w) ∧
        ((∀ x, ¬ TransGen h.Recorded x x) →
          Findable h.Parent v w ∧ Findable (Function.swap h.Parent) v w) := by
  intro h h'
  have start := valid_empty { config with direction := .parentToChild }
  have start' := valid_empty { config with direction := .childToParent }
  have grows : Grows _ h _ := grows_after start cs
  have grows' : Grows _ h' _ := grows_after start' cs
  have mirrors : Mirrors h h' := ((mirrors_empty _).run start start' cs).2
  have stored : h.graph.Joined = h.Parent := by
    funext p c
    rw [Parent, orient, grows.config]
    rfl
  have stored' : h'.graph.Joined = Function.swap h.Parent := by
    rw [mirrors.graph.joined_eq, stored]
  refine ⟨fun chain chain' => mirrors.pathBetween grows.valid grows'.valid, ?_⟩
  intro v w found found'
  refine ⟨?_, ?_, fun acyclic => ?_⟩
  · rw [← stored]
    exact grows.valid.pathBetween_ok_iff found found'
  · rw [← stored']
    exact grows'.valid.pathBetween_ok_iff ((mirrors.vertexFor? a).trans found)
      ((mirrors.vertexFor? b).trans found')
  · have clear : ∀ v, ¬ TransGen h.Parent v v := by
      rw [← stored]
      exact grows.valid.acyclic_iff.mpr acyclic
    have clear' : ∀ v, ¬ TransGen (Function.swap h.Parent) v v := fun v cycle =>
      clear v (Relation.transGen_swap.mp cycle)
    exact ⟨.inr ⟨fun v _ => clear v, .inr fun v _ => clear v⟩,
      .inr ⟨fun v _ => clear' v, .inr fun v _ => clear' v⟩⟩

/-- At the end of a chain two images descend from each other. The path along the chain is found from
the child back to the parent, but not from the parent on, where the search meets the cycle. -/
theorem pathBetween_beside_cycle :
    let cs := [.addRelations [⟨⟨2⟩, ⟨1⟩⟩, ⟨⟨3⟩, ⟨2⟩⟩, ⟨⟨4⟩, ⟨3⟩⟩, ⟨⟨3⟩, ⟨4⟩⟩]]
    ((empty { direction := .parentToChild }).after cs).pathBetween ⟨1⟩ ⟨2⟩ =
        .error (.graph (.notAcyclic .shortestPath)) ∧
      ((empty { direction := .childToParent }).after cs).pathBetween ⟨1⟩ ⟨2⟩ =
        .ok [⟨1⟩, ⟨2⟩] := by
  constructor
  · cbv
  · cbv

end Provenance.History
