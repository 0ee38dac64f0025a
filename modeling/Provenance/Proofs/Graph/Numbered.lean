import Provenance.Proofs.Graph.Around
import Provenance.Proofs.Graph.Refinement

/-! # Numbered vertices

A snapshot numbers the live vertices in storage order and gives no number to any other handle,
whatever slot and generation that names. Its lists are those of the graph under these numbers, so
each edge stands once among the targets of its source and once among the sources of its target.
-/

namespace Provenance

/-! ## Lists of targets and of sources -/

namespace Neighbors

variable {n : Nat} {succ : Neighbors n}

theorem sorted_transpose (nodup : ∀ u, (succ.get u).Nodup) (w : Fin n) :
    (succ.transpose.get w).Pairwise (· < ·) := by
  rw [get_transpose_of_nodup nodup]
  exact (List.pairwise_lt_finRange n).filter _

theorem count_transpose (nodup : ∀ u, (succ.get u).Nodup) (u w : Fin n) :
    (succ.transpose.get w).count u = if w ∈ succ.get u then 1 else 0 := by
  have once : (succ.transpose.get w).Nodup :=
    (sorted_transpose nodup w).imp fun lt => Fin.ne_of_lt lt
  rw [once.count]
  simp only [mem_transpose]

end Neighbors

/-! ## Live vertices are those that were added -/

namespace Ledger

variable {N E : Type} {l l' : Ledger N E} {v : Vertex}

theorem mem_addVertex {new : Vertex} {payload : N}
    (listed : v ∈ (l.addVertex new payload).2.vertices) :
    v ∈ l.vertices ∨ v = (l.addVertex new payload).1 := by
  unfold addVertex at listed ⊢
  split at listed
  next full => exact .inl listed
  next room =>
    rw [if_neg room]
    rcases Std.ExtTreeMap.mem_insert.mp listed with same | old
    · exact .inr (Std.LawfulEqOrd.eq_of_compare same).symm
    · exact .inl old

theorem vertices_addEdge (l : Ledger N E) (new : Edge) (s t : Vertex) (payload : E)
    (change : E → E) :
    (l.addEdge new s t payload change).2.vertices = l.vertices := by
  unfold addEdge
  split
  · split
    · rfl
    · split <;> rfl
  · rfl

theorem mem_of_removeVertices {vs : List Vertex}
    (listed : v ∈ (vs.foldl (fun l v => (l.removeVertex v).2) l).vertices) : v ∈ l.vertices := by
  induction vs generalizing l with
  | nil => exact listed
  | cons u vs ih => exact Std.ExtTreeMap.mem_of_mem_erase (ih listed)

variable [Inhabited N] [Inhabited E]

/-- A step adds no other vertex than the one it answers with. -/
theorem Step.added {m : Mutation N E} {reply : Reply} (step : l.Step m reply l')
    (listed : v ∈ l'.vertices) : v ∈ l.vertices ∨ reply = .vertex v := by
  obtain ⟨v', e', -, -, applied⟩ := step
  obtain ⟨rfl, rfl⟩ := Prod.mk.inj applied.symm
  have by_adding : ∀ payload, v ∈ (l.addVertex v' payload).2.vertices →
      v ∈ l.vertices ∨ Reply.vertex (l.addVertex v' payload).1 = .vertex v := fun payload listed =>
    (mem_addVertex listed).imp_right fun same => congrArg Reply.vertex same.symm
  cases m with
  | addVertex => exact by_adding default listed
  | addVertexWith payload => exact by_adding payload listed
  | removeVertex u => exact .inl (Std.ExtTreeMap.mem_of_mem_erase listed)
  | removeVertices vs => exact .inl (mem_of_removeVertices listed)
  | addEdge s t => exact .inl (vertices_addEdge l e' s t default id ▸ listed)
  | addEdgeWith s t payload =>
      exact .inl (vertices_addEdge l e' s t payload (fun _ => payload) ▸ listed)
  | setVertex u payload => exact .inl (Std.ExtTreeMap.mem_modify.mp listed)
  | modifyVertex u f => exact .inl (Std.ExtTreeMap.mem_modify.mp listed)
  | clear => exact absurd listed Std.ExtTreeMap.not_mem_empty
  | removeEdge _ | setEdge _ _ | modifyEdge _ _ | copy => exact .inl listed

theorem Run.added {ms : List (Mutation N E)} {replies : List Reply} (run : Run l ms replies l')
    (listed : v ∈ l'.vertices) : v ∈ l.vertices ∨ .vertex v ∈ replies := by
  induction run with
  | done l => exact .inl listed
  | step step _ ih =>
      rcases ih listed with before | later
      · rcases step.added before with before | now
        · exact .inl before
        · exact .inr (now ▸ List.mem_cons_self)
      · exact .inr (List.mem_cons_of_mem _ later)

end Ledger

namespace Graph

variable {N E : Type} {g : Graph N E}

theorem Valid.renumbered (valid : g.Valid) (i : Fin g.snapshot.size) :
    (g.successors (g.snapshot.label i)).map g.snapshot.number? =
      (g.snapshot.digraph.succ.get i).map some := by
  rw [← valid.map_neighbors i, List.map_map]
  exact List.map_congr_left fun j _ => number?_eq_some.mpr rfl

/-- The numbers of a snapshot stand for the live vertices and nothing else, and its lists for the
edges of the graph. -/
structure Numbers (g : Graph N E) (t : Snapshot) : Prop where
  labels : (List.finRange t.size).map t.label = g.vertexList
  number?_eq_some : ∀ v i, t.number? v = some i ↔ g.vertexList[i.val]? = some v
  number?_eq_none : ∀ v, t.number? v = none ↔ g.containsVertex v = false
  targets : ∀ i, (g.successors (t.label i)).map t.number? = (t.digraph.succ.get i).map some
  targets_once : ∀ i, (t.digraph.succ.get i).Nodup
  count_sources : ∀ u w,
    (t.digraph.pred.get w).count u = if w ∈ t.digraph.succ.get u then 1 else 0
  sources_sorted : ∀ w, (t.digraph.pred.get w).Pairwise (· < ·)

theorem Valid.numbers (valid : g.Valid) : g.Numbers g.snapshot where
  labels := g.map_label_finRange
  number?_eq_some v i := by
    rw [Graph.number?_eq_some, getElem?_vertexList]
    constructor
    · exact fun label => ⟨i, rfl, label⟩
    · rintro ⟨j, same, label⟩
      rwa [← Fin.ext same]
  number?_eq_none _ := Graph.number?_eq_none
  targets := valid.renumbered
  targets_once := valid.nodup_targets
  count_sources u w := by
    rw [g.snapshot.digraph.pred_eq]
    exact Neighbors.count_transpose valid.nodup_targets u w
  sources_sorted w := by
    rw [g.snapshot.digraph.pred_eq]
    exact Neighbors.sorted_transpose valid.nodup_targets w

/-- Whatever the run, the snapshot at its end numbers the live vertices in storage order and has the
edges of the graph. The null handle has no number, and neither has one that no step answered. -/
theorem numbered_of_run [Inhabited N] [Inhabited E] (direction : Direction)
    (ms : List (Mutation N E)) :
    let g₀ : Graph N E := empty direction
    let g := g₀.after ms
    (∀ v, v ∈ g.vertexList ↔ g.containsVertex v = true) ∧
      g.vertexList.Pairwise (·.index < ·.index) ∧ g.Numbers g.snapshot ∧
      g.snapshot.number? .null = none ∧
      ∀ v, .vertex v ∉ g₀.replies ms → g.snapshot.number? v = none := by
  intro g₀ g
  have valid : g.Valid := valid_after (valid_empty direction) ms
  have numbers := valid.numbers
  refine ⟨fun v => Arena.mem_handles, g.vertices.handles_sorted, numbers, ?_,
    fun v unanswered => ?_⟩
  · exact (numbers.number?_eq_none .null).mpr valid.null_dead
  · rw [numbers.number?_eq_none, Bool.eq_false_iff]
    intro live
    obtain ⟨l, run, tracks⟩ := (Tracks.empty direction : Tracks g₀ (.empty direction)).run ms
    rcases run.added (tracks.mem_vertices.mpr live) with before | answered
    · exact Std.ExtTreeMap.not_mem_empty before
    · exact unanswered answered

end Graph

end Provenance
