import Mathlib.Data.List.Sort
import Provenance.Proofs.Digraph.Ways
import Provenance.Proofs.Graph.Snapshot

/-! # The vertices around a vertex

The neighbours of a vertex as a search lists them: the targets of its edges in the order in which
they were made, or the sources in storage order. Lists in storage order are told by their members.
-/

namespace Provenance

/-- Handles in storage order that are the same as a set are the same list. -/
theorem Handle.eq_of_mem_iff {κ : Kind} {hs hs' : List (Handle κ)}
    (sorted : hs.Pairwise (·.index < ·.index)) (sorted' : hs'.Pairwise (·.index < ·.index))
    (same : ∀ h, h ∈ hs ↔ h ∈ hs') : hs = hs' := by
  have antisymm : Std.Antisymm fun h h' : Handle κ => h.index < h'.index :=
    ⟨fun _ _ lt gt => absurd gt (Nat.lt_asymm lt)⟩
  have irrefl : Std.Irrefl fun h h' : Handle κ => h.index < h'.index :=
    ⟨fun _ => Nat.lt_irrefl _⟩
  exact List.Pairwise.eq_of_mem_iff sorted sorted' same

theorem Neighbors.get_transpose_of_nodup {n : Nat} {succ : Neighbors n}
    (nodup : ∀ u, (succ.get u).Nodup) (v : Fin n) :
    succ.transpose.get v = (List.finRange n).filter fun u => v ∈ succ.get u := by
  rw [get_transpose]
  induction List.finRange n with
  | nil => rfl
  | cons u us ih =>
      rw [List.flatMap_cons, ih, (nodup u).count]
      by_cases listed : v ∈ succ.get u <;> simp [listed]

namespace Graph

variable {N E : Type} {g : Graph N E}

/-- The neighbours of a vertex in the order of a search that takes the edges the given way. -/
def around (g : Graph N E) (way : Way) (v : Vertex) : List Vertex :=
  match way with
  | .along => g.successors v
  | .against => g.vertexList.filter (g.hasEdge · v)

/-- The edge that a search takes from one vertex to another. -/
def Passes (g : Graph N E) : Way → Vertex → Vertex → Prop
  | .along, v, w => g.Joined v w
  | .against, v, w => g.Joined w v

theorem Valid.mem_around (valid : g.Valid) (way : Way) {v w : Vertex} :
    w ∈ g.around way v ↔ g.Passes way v w := by
  cases way with
  | along => exact valid.mem_successors
  | against =>
      refine List.mem_filter.trans ⟨fun listed => listed.2, fun joined => ⟨?_, joined⟩⟩
      exact Arena.mem_handles.mpr (valid.live_of_joined joined).1

theorem Valid.live_of_passes (valid : g.Valid) {way : Way} {v w : Vertex}
    (passes : g.Passes way v w) : g.containsVertex v = true ∧ g.containsVertex w = true := by
  cases way with
  | along => exact valid.live_of_joined passes
  | against => exact (valid.live_of_joined passes).symm

theorem sorted_filter_vertexList (g : Graph N E) (test : Vertex → Bool) :
    (g.vertexList.filter test).Pairwise (·.index < ·.index) :=
  g.vertices.handles_sorted.filter _

theorem Valid.nodup_successors (valid : g.Valid) (v : Vertex) : (g.successors v).Nodup := by
  refine List.pairwise_filterMap.mpr ((valid.outbound_nodup v).imp_of_mem ?_)
  intro e e' listed listed' apart w target w' target' same
  obtain ⟨link, found, source⟩ := source?_eq_some.mp ((valid.mem_outbound e v).mp listed)
  obtain ⟨link', found', source'⟩ := source?_eq_some.mp ((valid.mem_outbound e' v).mp listed')
  rw [target?, found, Option.map_some, Option.some.injEq] at target
  rw [target?, found', Option.map_some, Option.some.injEq] at target'
  exact apart (valid.eq_of_ends_eq found found'
    (Prod.ext (source.trans source'.symm) (target.trans (same.trans target'.symm))))

theorem Valid.length_successors (valid : g.Valid) (v : Vertex) :
    (g.successors v).length = g.outDegree v := by
  refine List.filterMap_length_eq_length.mpr fun e listed => ?_
  obtain ⟨link, found, -⟩ := source?_eq_some.mp ((valid.mem_outbound e v).mp listed)
  rw [target?, found, Option.map_some, Option.isSome_some]

theorem Valid.length_predecessors (valid : g.Valid) (v : Vertex) :
    (g.predecessors v).length = g.inDegree v := by
  refine List.filterMap_length_eq_length.mpr fun e listed => ?_
  obtain ⟨link, found, -⟩ := target?_eq_some.mp ((valid.mem_inbound e v).mp listed)
  rw [source?, found, Option.map_some, Option.isSome_some]

theorem map_label_finRange (g : Graph N E) :
    (List.finRange g.snapshot.size).map g.snapshot.label = g.vertexList :=
  List.map_getElem_finRange g.vertexList

theorem getElem?_vertexList {k : Nat} {v : Vertex} :
    g.vertexList[k]? = some v ↔ ∃ i : Fin g.snapshot.size, i.val = k ∧ g.snapshot.label i = v := by
  rw [List.getElem?_eq_some_iff]
  constructor
  · rintro ⟨inside, found⟩
    exact ⟨⟨k, inside⟩, rfl, found⟩
  · rintro ⟨i, rfl, found⟩
    exact ⟨i.isLt, found⟩

theorem label_lt {i j : Fin g.snapshot.size} (lt : i < j) :
    (g.snapshot.label i).index < (g.snapshot.label j).index :=
  List.pairwise_iff_getElem.mp g.vertices.handles_sorted i j i.isLt j.isLt lt

/-- An edge is listed once among the targets of its source. -/
theorem Valid.nodup_targets (valid : g.Valid) (i : Fin g.snapshot.size) :
    (g.snapshot.digraph.succ.get i).Nodup := by
  have labels : ((g.snapshot.digraph.succ.get i).map g.snapshot.label).Nodup := by
    rw [show (g.snapshot.digraph.succ.get i).map g.snapshot.label = _ from valid.map_neighbors i]
    exact valid.nodup_successors _
  exact List.Nodup.of_map _ labels

/-- The numbers that a search is led to stand for the vertices around, in the same order. -/
theorem Valid.map_around (valid : g.Valid) (way : Way) (i : Fin g.snapshot.size) :
    (g.snapshot.digraph.neighbors way i).map g.snapshot.label =
      g.around way (g.snapshot.label i) := by
  cases way with
  | along => exact valid.map_neighbors i
  | against =>
      have neighbors : g.snapshot.digraph.neighbors .against i =
          (List.finRange _).filter fun j => i ∈ g.snapshot.digraph.succ.get j := by
        rw [Digraph.neighbors, Digraph.pred_eq,
          Neighbors.get_transpose_of_nodup valid.nodup_targets]
      rw [neighbors, around, ← g.map_label_finRange, List.filter_map]
      refine congrArg (List.map _) (List.filter_congr fun j _ => ?_)
      rw [Bool.eq_iff_iff, decide_eq_true_iff]
      exact valid.edge_snapshot

theorem Valid.leads_iff (valid : g.Valid) {way : Way} {i j : Fin g.snapshot.size} :
    Leads (g.snapshot.digraph.neighbors way) i j ↔
      g.Passes way (g.snapshot.label i) (g.snapshot.label j) := by
  rw [← valid.mem_around, ← valid.map_around, List.mem_map]
  constructor
  · exact fun leads => ⟨j, leads, rfl⟩
  · rintro ⟨k, leads, same⟩
    rwa [← label_inj same]

/-! ## After a change -/

theorem containsVertex_addVertexWith (valid : g.Valid) (room : g.vertices.isFull = false)
    (payload : N) (v : Vertex) :
    (g.addVertexWith payload).2.containsVertex v = true ↔
      v = (g.addVertexWith payload).1 ∨ g.containsVertex v = true := by
  rw [containsVertex, Arena.contains, containsVertex, Arena.contains,
    get?_addVertexWith valid room]
  split
  next same => simp [same]
  next other => simp [other]

theorem joined_addVertexWith (g : Graph N E) (payload : N) :
    (g.addVertexWith payload).2.Joined = g.Joined := by
  funext s t
  rw [Joined, Joined, hasEdge, hasEdge, edge?, edge?, between_addVertexWith]

theorem successors_addVertexWith (valid : g.Valid) (payload : N) (v : Vertex) :
    (g.addVertexWith payload).2.successors v = g.successors v := by
  have target : (g.addVertexWith payload).2.target? = g.target? := by
    funext e
    rw [target?, target?, edges_addVertexWith]
  rw [successors, successors, outbound_addVertexWith valid, target]

theorem predecessors_addVertexWith (valid : g.Valid) (payload : N) (v : Vertex) :
    (g.addVertexWith payload).2.predecessors v = g.predecessors v := by
  have source : (g.addVertexWith payload).2.source? = g.source? := by
    funext e
    rw [source?, source?, edges_addVertexWith]
  rw [predecessors, predecessors, inbound_addVertexWith valid, source]

theorem successors_modifyEdge (g : Graph N E) (e : Edge) (f : E → E) (v : Vertex) :
    (g.modifyEdge e f).successors v = g.successors v := by
  have target : (g.modifyEdge e f).target? = g.target? := by
    funext e'
    rw [target?, target?, get?_modifyEdge]
    split
    next same => rw [same, Option.map_map]; rfl
    next => rfl
  exact congrArg (List.filterMap · (g.outbound v)) target

theorem predecessors_modifyEdge (g : Graph N E) (e : Edge) (f : E → E) (v : Vertex) :
    (g.modifyEdge e f).predecessors v = g.predecessors v := by
  have source : (g.modifyEdge e f).source? = g.source? := by
    funext e'
    rw [source?, source?, get?_modifyEdge]
    split
    next same => rw [same, Option.map_map]; rfl
    next => rfl
  exact congrArg (List.filterMap · (g.inbound v)) source

variable {s t : Vertex}

theorem successors_joinWith (valid : g.Valid) (room : g.edges.isFull = false)
    (live : g.containsVertex s = true) (t : Vertex) (payload : E) (v : Vertex) :
    (g.joinWith s t payload).2.successors v = g.successors v ++ if v = s then [t] else [] := by
  have old : ∀ e ∈ g.outbound v, (g.joinWith s t payload).2.target? e = g.target? e := by
    intro e listed
    obtain ⟨link, found, -⟩ := source?_eq_some.mp ((valid.mem_outbound e v).mp listed)
    have other : e ≠ (g.joinWith s t payload).1 := by
      rintro rfl
      rw [joinWith_fresh valid room] at found
      cases found
    rw [target?_joinWith valid room, if_neg other]
  rw [successors, outbound_joinWith room live, List.filterMap_append, List.filterMap_congr old]
  refine congrArg (g.successors v ++ ·) ?_
  split
  · rw [List.filterMap_cons_some ((target?_joinWith valid room s t payload _).trans (if_pos rfl)),
      List.filterMap_nil]
  · rfl

theorem predecessors_joinWith (valid : g.Valid) (room : g.edges.isFull = false) (s : Vertex)
    (live : g.containsVertex t = true) (payload : E) (v : Vertex) :
    (g.joinWith s t payload).2.predecessors v =
      g.predecessors v ++ if v = t then [s] else [] := by
  have old : ∀ e ∈ g.inbound v, (g.joinWith s t payload).2.source? e = g.source? e := by
    intro e listed
    obtain ⟨link, found, -⟩ := target?_eq_some.mp ((valid.mem_inbound e v).mp listed)
    have other : e ≠ (g.joinWith s t payload).1 := by
      rintro rfl
      rw [joinWith_fresh valid room] at found
      cases found
    rw [source?_joinWith valid room, if_neg other]
  rw [predecessors, inbound_joinWith room s live, List.filterMap_append, List.filterMap_congr old]
  refine congrArg (g.predecessors v ++ ·) ?_
  split
  · rw [List.filterMap_cons_some ((source?_joinWith valid room s t payload _).trans (if_pos rfl)),
      List.filterMap_nil]
  · rfl

end Graph

end Provenance
