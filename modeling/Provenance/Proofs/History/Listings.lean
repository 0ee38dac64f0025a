import Mathlib
import Provenance.Proofs.History.Mirror

/-! # Listed files

A search along the edges meets the neighbours of a vertex as they were joined to it, and one against
the edges in storage order. So the origins, the last versions and the dependent versions of an image
are the same in both directions of storage, but the order in which their files are listed is not.
-/

namespace Provenance.History

theorem Valid.rooted {h : History} (valid : h.Valid) : h.rooted.2.Valid := by
  unfold History.rooted
  have added : h.graph.addVertex.2.Valid := Graph.valid_addVertexWith valid.graph default
  dsimp only
  generalize h.graph.addVertex.2 = g at *
  induction h.graph.roots generalizing g with
  | nil => exact added
  | cons root roots ih => exact ih _ (Graph.valid_addEdge added _ _)

namespace Mirrors

variable {h h' : History}

theorem rooted (mirrors : Mirrors h h') :
    h'.rooted.1 = h.rooted.1 ∧ h.rooted.2.Mirrors h'.rooted.2 := by
  obtain ⟨issued, added⟩ := mirrors.graph.addVertex
  have roots : h'.graph.roots = h.graph.roots := mirrors.graph.extremes .roots
  unfold History.rooted
  dsimp only
  rw [issued, roots]
  simp only [mirrors.orient_swap, Prod.fst_swap, Prod.snd_swap]
  refine ⟨trivial, ?_⟩
  generalize h.graph.addVertex.2 = g at *
  generalize h'.graph.addVertex.2 = g' at *
  induction h.graph.roots generalizing g g' with
  | nil => exact added
  | cons root roots ih => exact ih _ _ (added.addEdge _ _)

theorem idsOf_perm (mirrors : Mirrors h h') {vs vs' : List Vertex} (perm : List.Perm vs' vs) :
    List.Perm (h'.idsOf vs') (h.idsOf vs) := by
  rw [mirrors.idsOf]
  exact (perm.filterMap _).flatMap_right _

theorem endsToward (mirrors : Mirrors h h') (valid : h.Valid) (valid' : h'.Valid) (v : Vertex)
    (toward : Toward) : List.Perm (h'.endsToward v toward) (h.endsToward v toward) := by
  have found := mirrors.graph.discovered valid.graph valid'.graph .breadthFirst v toward
  unfold History.endsToward
  cases toward with
  | roots =>
      simp only [(mirrors.graph.adjacentVertices _).1]
      exact found.filter _
  | leaves =>
      simp only [(mirrors.graph.adjacentVertices _).2]
      exact found.filter _

/-- The same files, in whatever order. -/
theorem endsFor (mirrors : Mirrors h h') (valid : h.Valid) (valid' : h'.Valid) (id : ImageId)
    (toward : Toward) : Alike List.Perm (h.endsFor id toward) (h'.endsFor id toward) := by
  unfold History.endsFor
  rw [mirrors.require]
  cases h.require id with
  | error cause => exact .error cause
  | ok v => exact .ok (mirrors.idsOf_perm (mirrors.endsToward valid valid' v toward)).symm

theorem derivedFrom (mirrors : Mirrors h h') (valid : h.Valid) (valid' : h'.Valid) (id : ImageId)
    (order : SearchOrder) : Alike List.Perm (h.derivedFrom id order) (h'.derivedFrom id order) := by
  obtain ⟨top, graph⟩ := mirrors.rooted
  have rooted := valid.rooted
  have rooted' := valid'.rooted
  unfold History.derivedFrom
  rw [mirrors.require]
  generalize h.rooted = both at *
  generalize h'.rooted = both' at *
  cases h.require id with
  | error cause => exact .error cause
  | ok v =>
      have below := graph.dominatedBy rooted rooted' v both.1 order
      simp only [bind, Except.bind, pure, Except.pure]
      rw [top]
      exact .ok (mirrors.idsOf_perm (below.filter _)).symm

end Mirrors

/-- In whichever direction the edges are stored, the same files are listed as origins, as last
versions and as dependent ones, or the image is unknown. -/
theorem listings_either_way (config : Config) (direction : Direction) (cs : List Change)
    (id : ImageId) :
    let h := (empty config).after cs
    let h' := (empty { config with direction }).after cs
    Alike List.Perm (h.rootsFor id) (h'.rootsFor id) ∧
      Alike List.Perm (h.leavesFor id) (h'.leavesFor id) ∧
      ∀ order, Alike List.Perm (h.derivedFrom id order) (h'.derivedFrom id order) := by
  intro h h'
  have start := valid_empty config
  have start' := valid_empty { config with direction }
  have valid : h.Valid := (grows_after start cs).valid
  have valid' : h'.Valid := (grows_after start' cs).valid
  rcases eq_or_mirrors config direction with same | mirrors
  · have unchanged : h' = h := by
      change (empty { config with direction }).after cs = (empty config).after cs
      rw [same]
    rw [unchanged]
    exact ⟨.refl .refl _, .refl .refl _, fun _ => .refl .refl _⟩
  · have after : Mirrors h h' := (mirrors.run start start' cs).2
    exact ⟨after.endsFor valid valid' id .roots, after.endsFor valid valid' id .leaves,
      after.derivedFrom valid valid' id⟩

/-- Of two children the one that is stored second was derived first. It is listed first by a search
along the edges, and second by one against them. -/
theorem leavesFor_out_of_order :
    let cs := [.addImage ⟨1⟩, .addImage ⟨2⟩, .addRelations [⟨⟨3⟩, ⟨1⟩⟩, ⟨⟨2⟩, ⟨1⟩⟩]]
    ((empty { direction := .parentToChild }).after cs).leavesFor ⟨1⟩ = .ok [⟨3⟩, ⟨2⟩] ∧
      ((empty { direction := .childToParent }).after cs).leavesFor ⟨1⟩ = .ok [⟨2⟩, ⟨3⟩] := by
  constructor
  · cbv
  · cbv

end Provenance.History
