import Mathlib
import Provenance.Proofs.Graph.LongestPaths
import Provenance.Proofs.History.FirstFiles
import Provenance.Proofs.History.Found

/-! # The history of an image

A longest path follows the stored edges, and where these lead to the parents it is read backwards.
What comes out is told by parents and children alone, and so are the cycles that stand in the way.
-/

open Relation (TransGen ReflTransGen)

namespace Provenance.History

variable {h : History} {u v : Vertex} {id : ImageId}

/-- A path along the edges, read from parents to children. -/
def downward (h : History) (path : List Vertex) : List Vertex :=
  match h.config.direction with
  | .parentToChild => path
  | .childToParent => path.reverse

@[simp]
theorem mem_downward {path : List Vertex} : u ∈ h.downward path ↔ u ∈ path := by
  unfold downward
  cases h.config.direction with
  | parentToChild => rfl
  | childToParent => exact List.mem_reverse

@[simp]
theorem length_downward (h : History) (path : List Vertex) :
    (h.downward path).length = path.length := by
  unfold downward
  cases h.config.direction with
  | parentToChild => rfl
  | childToParent => exact List.length_reverse

/-- Reading a chain of derivations the other way gives one along the edges again. -/
theorem isChain_downward {chain : List Vertex} (steps : chain.IsChain h.Parent) :
    (h.downward chain).IsChain h.graph.Joined := by
  unfold Parent orient at steps
  unfold downward
  cases direction : h.config.direction with
  | parentToChild =>
      rw [direction] at steps
      exact steps
  | childToParent =>
      rw [direction] at steps
      exact List.isChain_reverse.mpr steps

theorem isPath_downward {origin current : Vertex} {path : List Vertex}
    (along : IsPath h.graph.Joined (h.orient origin current).1 (h.orient origin current).2 path) :
    IsPath h.Parent origin current (h.downward path) := by
  unfold Parent
  unfold orient at along ⊢
  unfold downward
  cases direction : h.config.direction with
  | parentToChild =>
      rw [direction] at along
      exact along
  | childToParent =>
      rw [direction] at along
      exact along.reverse

theorem historyOf_of_found (found : h.vertexFor? id = some v) :
    h.historyOf id = match h.graph.longestPath v with
      | .ok path => .ok (h.primaryIdsOf (h.downward path))
      | .error cause => .error (.graph cause) := by
  simp only [historyOf, require, found, bind, Except.bind]
  cases h.graph.longestPath v <;> rfl

/-! ## Cycles in the way -/

/-- A version on a cycle is among the ancestors or the descendants of `v`, or is `v` itself. -/
def Entwined (h : History) (v : Vertex) : Prop :=
  ∃ u, (ReflTransGen h.Parent u v ∨ ReflTransGen h.Parent v u) ∧ TransGen h.Parent u u

theorem Valid.snarled_iff (valid : h.Valid) {toward : Toward} :
    h.graph.Snarled (h.graph.direction.way toward) v ↔
      ∃ u, ReflTransGen (h.Next toward) v u ∧ TransGen h.Parent u u := by
  have cycle : ∀ u, TransGen h.graph.Joined u u ↔ TransGen h.Parent u u := by
    intro u
    rw [transGen_parent, orient]
    cases h.config.direction <;> rfl
  simp only [Graph.Snarled, valid.passes_eq, cycle]

theorem Valid.exists_snarled_iff (valid : h.Valid) :
    (∃ toward, h.graph.Snarled (h.graph.direction.way toward) v) ↔ h.Entwined v := by
  simp only [valid.snarled_iff]
  constructor
  · intro ⟨toward, u, way, cycle⟩
    cases toward with
    | roots => exact ⟨u, .inl (Relation.reflTransGen_swap.mp way), cycle⟩
    | leaves => exact ⟨u, .inr way, cycle⟩
  · intro ⟨u, either, cycle⟩
    cases either with
    | inl above => exact ⟨.roots, u, Relation.reflTransGen_swap.mpr above, cycle⟩
    | inr below => exact ⟨.leaves, u, below, cycle⟩

theorem Valid.historyOf_error_iff (valid : h.Valid) (found : h.vertexFor? id = some v) :
    h.historyOf id = .error (.graph (.notAcyclic .longestPath)) ↔ h.Entwined v := by
  have live := (holds_of_vertexFor? found).live
  rw [← valid.exists_snarled_iff, ← valid.graph.longestPath_error_iff live,
    historyOf_of_found found]
  cases h.graph.longestPath v <;> simp

/-! ## The chain that is listed -/

/-- A longest chain of derivations through `v`, from an origin to a version without children. -/
structure LongestChain (h : History) (v origin current : Vertex) (versions : List Vertex) :
    Prop where
  derivations : IsPath h.Parent origin current versions
  through : v ∈ versions
  no_parent : h.Last .roots origin
  no_child : h.Last .leaves current
  longest : ∀ other : List Vertex, other.IsChain h.Parent → v ∈ other →
    other.length ≤ versions.length

theorem Valid.longestChain (valid : h.Valid) {origin current : Vertex} {path : List Vertex}
    (longest : h.graph.LongestThrough v origin current path) :
    h.LongestChain v origin current (h.downward path) where
  derivations := by
    apply isPath_downward
    unfold orient
    rw [← valid.direction]
    exact longest.is_path
  through := by
    rw [mem_downward, ← List.count_pos_iff, longest.once]
    exact Nat.one_pos
  no_parent := valid.mem_extremes.mp longest.root_mem
  no_child := valid.mem_extremes.mp longest.leaf_mem
  longest other steps passed := by
    have short := longest.longest (h.downward other) (isChain_downward steps)
      (mem_downward.mpr passed)
    rwa [length_downward] at short ⊢

/-- Of every version the file that it came into being with. -/
theorem Valid.forall₂_primaryIdsOf (valid : h.Valid) (short : ∀ v, (h.filesAt v).length ≤ 1)
    (cs : List Change) {versions : List Vertex}
    (live : ∀ u ∈ versions, (h.after cs).graph.containsVertex u = true) :
    List.Forall₂ (h.FirstFile cs) versions ((h.after cs).primaryIdsOf versions) := by
  have grown : (h.after cs).Valid := (grows_after valid cs).valid
  obtain ⟨first, primary, ids⟩ := grown.primaryIdsOf_eq
  rw [ids versions live, List.forall₂_map_right_iff, List.forall₂_same]
  exact fun u listed => (valid.primaryAt?_eq_some (short u)).mp (primary u (live u listed))

/-- However a history came about, only a cycle above or below a version leaves its image without a
history, and the versions of the history are a longest chain. -/
theorem history_of_run {start : Start} {h₀ : History} (opened : start.initial = .ok h₀)
    (cs : List Change) {id : ImageId} {v : Vertex} :
    let h := h₀.after cs
    (found : h.vertexFor? id = some v) →
      (h.historyOf id = .error (.graph (.notAcyclic .longestPath)) ↔ h.Entwined v) ∧
      (¬ h.Entwined v → ∃ origin current versions ids,
        h.historyOf id = .ok ids ∧ List.Forall₂ (h₀.FirstFile cs) versions ids ∧
          h.LongestChain v origin current versions) := by
  intro h found
  obtain ⟨config, opening⟩ := Start.grows opened
  have valid : h.Valid := (grows_after opening.valid cs).valid
  refine ⟨valid.historyOf_error_iff found, fun clear => ?_⟩
  have live := (holds_of_vertexFor? found).live
  rw [← valid.exists_snarled_iff, ← valid.graph.longestPath_error_iff live] at clear
  obtain ⟨path, searched⟩ := Classical.not_not.mp (Graph.longestPath_error_iff.not.mp clear)
  obtain ⟨origin, current, longest⟩ := valid.graph.longestThrough live searched
  refine ⟨origin, current, h.downward path, h.primaryIdsOf (h.downward path), ?_, ?_,
    valid.longestChain longest⟩
  · rw [historyOf_of_found found, searched]
  · apply opening.valid.forall₂_primaryIdsOf (Start.length_filesAt opened)
    exact fun u listed => Graph.live_of_longestPath searched (mem_downward.mp listed)

/-- Two chains are as long, one of the images is a second file, and another comes from a cycle. -/
theorem history_of_run_tie :
    let cs := [.addRelations [⟨⟨2⟩, ⟨1⟩⟩, ⟨⟨3⟩, ⟨2⟩⟩, ⟨⟨5⟩, ⟨2⟩⟩, ⟨⟨4⟩, ⟨3⟩⟩, ⟨⟨6⟩, ⟨5⟩⟩,
        ⟨⟨8⟩, ⟨9⟩⟩, ⟨⟨9⟩, ⟨8⟩⟩, ⟨⟨7⟩, ⟨9⟩⟩], .addDuplicate ⟨2⟩ ⟨20⟩]
    let h₀ := empty { direction := .childToParent }
    let h := h₀.after cs
    (∃ origin current versions,
      List.Forall₂ (h₀.FirstFile cs) versions [⟨1⟩, ⟨2⟩, ⟨3⟩, ⟨4⟩] ∧
        h.LongestChain ⟨1, 0⟩ origin current versions) ∧
      h.Entwined ⟨8, 0⟩ := by
  intro cs h₀ h
  have opened : (Start.blank { direction := .childToParent }).initial = .ok h₀ := rfl
  have second : h.vertexFor? ⟨20⟩ = some ⟨1, 0⟩ := by decide
  have last : h.vertexFor? ⟨7⟩ = some ⟨8, 0⟩ := by decide
  have told : h.historyOf ⟨20⟩ = .ok [⟨1⟩, ⟨2⟩, ⟨3⟩, ⟨4⟩] := by
    dsimp only [h, h₀, cs]
    cbv
  have failed : h.historyOf ⟨7⟩ = .error (.graph (.notAcyclic .longestPath)) := by
    dsimp only [h, h₀, cs]
    cbv
  obtain ⟨error_iff, listed⟩ := history_of_run opened cs second
  obtain ⟨origin, current, versions, ids, found, files, chain⟩ := listed fun entwined => by
    cases told.symm.trans (error_iff.mpr entwined)
  obtain rfl := Except.ok.inj (told.symm.trans found)
  exact ⟨⟨origin, current, versions, files, chain⟩, (history_of_run opened cs last).1.mp failed⟩

end Provenance.History
