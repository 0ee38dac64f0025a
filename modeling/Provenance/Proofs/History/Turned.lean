import Mathlib
import Provenance.Proofs.Graph.Runs
import Provenance.Proofs.History.Paths

/-! # Paths with their ends swapped

The search from the one end is made first and the search from the other only if that one misses.
Swapping the ends swaps the two searches. A search that reaches the other end meets no cycle from
there either, and what a search finds is read from the same vertex on whichever of the two is first.
-/

open Relation (ReflTransGen)

namespace Provenance

theorem Clear.of_way {α : Type} {r : α → α → Prop} {a b : α} (clear : Clear r a)
    (way : ReflTransGen r a b) : Clear r b :=
  fun v onward => clear v (way.trans onward)

/-- The second search is spared only where it would not meet a cycle. -/
theorem Findable.symm {α : Type} {r : α → α → Prop} {a b : α} (findable : Findable r a b) :
    Findable r b a := by
  cases findable with
  | inl same => exact .inl same.symm
  | inr searched =>
      obtain ⟨clear, reached | clear'⟩ := searched
      · exact .inr ⟨clear.of_way reached, .inr clear⟩
      · exact .inr ⟨clear', .inr clear⟩

namespace Digraph

variable {n : Nat} {d : Digraph n} {a b : Fin n}

/-- What a search finds is read whichever end is given first. The other end cannot reach back, and
its search meets no cycle. -/
theorem between?_of_reached {routes : Routes n} (apart : a ≠ b)
    (searched : d.routes? .along .shortest a = some routes) (reached : routes.reaches b = true) :
    d.between? a b = some (routes.chainTo b).reverse ∧
      d.between? b a = some (routes.chainTo b) := by
  have way := (reaches_along searched).mp reached
  have clear := clear_of_routes searched
  have settled : (d.routes? .along .shortest b).isSome :=
    routes?_isSome_iff.mpr (clear.of_way way)
  obtain ⟨back, searched'⟩ := Option.isSome_iff_exists.mp settled
  have missed : ¬ back.reaches a = true := fun reached' =>
    clear.no_way_back apart way ((reaches_along searched').mp reached')
  constructor
  · simp only [between?, if_neg apart, searched, if_pos reached]
  · simp only [between?, if_neg apart.symm, searched', if_neg missed, searched, if_pos reached]

theorem between?_reverse {path : List (Fin n)} (found : d.between? a b = some path) :
    d.between? b a = some path.reverse := by
  rcases search_of_between? found with ⟨rfl, rfl⟩ | ⟨forth, apart, searched, reached, rfl⟩ |
    ⟨back, apart, searched, reached, rfl⟩ | ⟨missed, missed', rfl⟩
  · exact found
  · rw [List.reverse_reverse]
    exact (between?_of_reached apart searched reached).2
  · exact (between?_of_reached apart.symm searched reached).1
  · have findable : Findable d.Edge a b := between?_isSome_iff.mp (Option.isSome_of_eq_some found)
    obtain ⟨path, found'⟩ := Option.isSome_iff_exists.mp (between?_isSome_iff.mpr findable.symm)
    rw [found', (between?_eq_nil_iff found').mpr ⟨missed', missed⟩]
    rfl

theorem between?_swap (d : Digraph n) (a b : Fin n) :
    d.between? b a = (d.between? a b).map List.reverse := by
  cases found : d.between? a b with
  | some path => exact between?_reverse found
  | none =>
      cases found' : d.between? b a with
      | none => rfl
      | some path =>
          rw [between?_reverse found'] at found
          cases found

end Digraph

theorem Graph.shortestPath_swap {N E : Type} (g : Graph N E) (v w : Vertex) :
    g.shortestPath w v = (g.shortestPath v w).map List.reverse := by
  rw [shortestPath_eq, shortestPath_eq, Snapshot.shortestPath, Snapshot.shortestPath]
  cases g.snapshot.number? v with
  | none => cases g.snapshot.number? w <;> rfl
  | some a =>
      cases g.snapshot.number? w with
      | none => rfl
      | some b =>
          dsimp only
          rw [Digraph.between?_swap g.snapshot.digraph a b]
          cases g.snapshot.digraph.between? a b with
          | none => rfl
          | some path => exact congrArg Except.ok List.map_reverse

namespace History

variable {h : History} {a b : ImageId}

theorem primaryIdsOf_reverse (h : History) (vs : List Vertex) :
    h.primaryIdsOf vs.reverse = (h.primaryIdsOf vs).reverse := by
  rw [primaryIdsOf, primaryIdsOf, List.filterMap_reverse, List.filterMap_reverse]

theorem pathBetween_of_unknown (absent : h.vertexFor? a = none) (b : ImageId) :
    h.pathBetween a b = .error (.unknownImage a) := by
  simp [pathBetween, require, absent, bind, Except.bind]

theorem pathBetween_to_unknown {v : Vertex} (found : h.vertexFor? a = some v)
    (absent : h.vertexFor? b = none) : h.pathBetween a b = .error (.unknownImage b) := by
  simp [pathBetween, require, found, absent, bind, Except.bind]

/-- Of two unknown images the one given first is named, so one of them has to be known. -/
theorem pathBetween_swap (known : h.contains a = true ∨ h.contains b = true) :
    h.pathBetween b a = (h.pathBetween a b).map List.reverse := by
  cases found : h.vertexFor? a with
  | none =>
      cases found' : h.vertexFor? b with
      | none => simp [contains, found, found'] at known
      | some w =>
          rw [pathBetween_to_unknown found' found, pathBetween_of_unknown found]
          rfl
  | some v =>
      cases found' : h.vertexFor? b with
      | none =>
          rw [pathBetween_of_unknown found', pathBetween_to_unknown found found']
          rfl
      | some w =>
          rw [pathBetween_of_found found' found, pathBetween_of_found found found',
            h.graph.shortestPath_swap v w]
          cases h.graph.shortestPath v w with
          | error cause => rfl
          | ok path => exact congrArg Except.ok (h.primaryIdsOf_reverse path)

theorem pathBetween_reverse {chain : List ImageId} (found : h.pathBetween a b = .ok chain) :
    h.pathBetween b a = .ok chain.reverse := by
  obtain ⟨v, -, known, -⟩ := vertexFor?_of_pathBetween found
  rw [pathBetween_swap (.inl (Option.isSome_of_eq_some known)), found]
  rfl

/-- Whether vertices or images are given, whatever the graph or the history, the path between them
is read from the other end if they are swapped; of equally short ones it stays the same. -/
theorem paths_swapped {N E : Type} (g : Graph N E) (h : History) :
    (∀ v w, g.shortestPath w v = (g.shortestPath v w).map List.reverse) ∧
      (∀ a b chain, h.pathBetween a b = .ok chain ↔ h.pathBetween b a = .ok chain.reverse) ∧
      ∀ a b, h.contains a = true ∨ h.contains b = true →
        h.pathBetween b a = (h.pathBetween a b).map List.reverse := by
  refine ⟨g.shortestPath_swap, fun a b chain => ⟨pathBetween_reverse, fun found => ?_⟩,
    fun a b => pathBetween_swap⟩
  have turned := pathBetween_reverse found
  rwa [List.reverse_reverse] at turned

/-- Two chains are as short, and the search that finds one of them is the second the other way. -/
theorem paths_swapped_diamond :
    let ms : List (Mutation Nat Nat) :=
      [.addVertexWith 0, .addVertexWith 1, .addVertexWith 2, .addVertexWith 3,
        .addEdge ⟨0, 0⟩ ⟨2, 0⟩, .addEdge ⟨0, 0⟩ ⟨1, 0⟩, .addEdge ⟨1, 0⟩ ⟨3, 0⟩,
        .addEdge ⟨2, 0⟩ ⟨3, 0⟩]
    let g := (Graph.empty .parentToChild).after ms
    let h := (empty { direction := .childToParent }).after
      [.addRelations [⟨⟨3⟩, ⟨1⟩⟩, ⟨⟨2⟩, ⟨1⟩⟩, ⟨⟨4⟩, ⟨2⟩⟩, ⟨⟨4⟩, ⟨3⟩⟩]]
    g.shortestPath ⟨0, 0⟩ ⟨3, 0⟩ = .ok [⟨0, 0⟩, ⟨1, 0⟩, ⟨3, 0⟩] ∧
      g.shortestPath ⟨3, 0⟩ ⟨0, 0⟩ = .ok [⟨3, 0⟩, ⟨1, 0⟩, ⟨0, 0⟩] ∧
      h.pathBetween ⟨1⟩ ⟨4⟩ = .ok [⟨1⟩, ⟨3⟩, ⟨4⟩] ∧
      h.pathBetween ⟨4⟩ ⟨1⟩ = .ok [⟨4⟩, ⟨3⟩, ⟨1⟩] ∧
      h.pathBetween ⟨5⟩ ⟨1⟩ = (h.pathBetween ⟨1⟩ ⟨5⟩).map List.reverse := by
  intro ms g h
  have forth : g.shortestPath ⟨0, 0⟩ ⟨3, 0⟩ = .ok [⟨0, 0⟩, ⟨1, 0⟩, ⟨3, 0⟩] := by
    dsimp only [g, ms]
    cbv
  have descends : h.pathBetween ⟨1⟩ ⟨4⟩ = .ok [⟨1⟩, ⟨3⟩, ⟨4⟩] := by
    dsimp only [h]
    cbv
  obtain ⟨vertices, images, known⟩ := paths_swapped g h
  refine ⟨forth, ?_, descends, (images ⟨1⟩ ⟨4⟩ _).mp descends, known ⟨1⟩ ⟨5⟩ (.inl (by decide))⟩
  rw [vertices ⟨0, 0⟩ ⟨3, 0⟩, forth]
  rfl

end History

end Provenance
