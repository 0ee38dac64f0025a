import Mathlib.Logic.Relation
import Provenance.Graph.Snapshot
import Provenance.Proofs.Digraph.TopologicalOrder
import Provenance.Proofs.Graph.Operations

/-! # Snapshots of a graph

The numbers of a snapshot stand for the live vertices, one for each, and its digraph has the edges
of the graph. So the ways through the digraph are the ways through the graph.
-/

open Relation (TransGen)

namespace Provenance

/-! ## Numbers -/

namespace Snapshot

variable {n : Nat}

theorem getElem?_numbering_other {labels : VertexMap Vertex n} {numbers : Array (Option (Fin n))}
    {is : List (Fin n)} {j : Nat} (others : ∀ i ∈ is, (labels.get i).index ≠ j) :
    (is.foldl (fun numbers i => numbers.setIfInBounds (labels.get i).index (some i)) numbers)[j]? =
      numbers[j]? := by
  induction is generalizing numbers with
  | nil => rfl
  | cons i is ih =>
      rw [List.foldl_cons, ih fun k listed => others k (List.mem_cons_of_mem i listed)]
      exact Array.getElem?_setIfInBounds_ne (others i List.mem_cons_self)

theorem size_numbering_list (labels : VertexMap Vertex n) (numbers : Array (Option (Fin n)))
    (is : List (Fin n)) :
    (is.foldl (fun numbers i => numbers.setIfInBounds (labels.get i).index (some i)) numbers).size =
      numbers.size := by
  induction is generalizing numbers with
  | nil => rfl
  | cons i is ih => rw [List.foldl_cons, ih, Array.size_setIfInBounds]

theorem getElem?_numbering {labels : VertexMap Vertex n} {slots : Nat}
    (distinct : ∀ i j, (labels.get i).index = (labels.get j).index → i = j) {i : Fin n}
    (inside : (labels.get i).index < slots) :
    (numbering labels slots)[(labels.get i).index]? = some (some i) := by
  obtain ⟨before, rest, split⟩ := List.append_of_mem (List.mem_finRange i)
  have nodup := List.nodup_finRange n
  rw [split, List.nodup_append] at nodup
  have others : ∀ j ∈ rest, (labels.get j).index ≠ (labels.get i).index := by
    intro j listed same
    exact (List.nodup_cons.mp nodup.2.1).1 (distinct j i same ▸ listed)
  rw [numbering, split, List.foldl_append, List.foldl_cons, getElem?_numbering_other others,
    Array.getElem?_setIfInBounds_self_of_lt]
  rwa [size_numbering_list, Array.size_replicate]

theorem lookup_eq_some {labels : VertexMap Vertex n} {slots : Nat}
    (distinct : ∀ i j, (labels.get i).index = (labels.get j).index → i = j)
    (inside : ∀ i, (labels.get i).index < slots) {v : Vertex} {i : Fin n} :
    lookup labels (numbering labels slots) v = some i ↔ labels.get i = v := by
  constructor
  · intro found
    unfold lookup at found
    split at found
    next j _ =>
      split at found
      next same => rwa [Option.some.inj found] at same
      next => cases found
    next => cases found
  · rintro rfl
    simp [lookup, getElem?_numbering distinct (inside i)]

end Snapshot

/-! ## Vertices and edges -/

namespace Graph

variable {N E : Type}

theorem label_mem (g : Graph N E) (i : Fin g.snapshot.size) :
    g.snapshot.label i ∈ g.vertexList := List.mem_toArray.mp (Array.getElem_mem i.isLt)

theorem label_live (g : Graph N E) (i : Fin g.snapshot.size) :
    g.containsVertex (g.snapshot.label i) = true := Arena.mem_handles.mp (g.label_mem i)

theorem live_of_mem_labels {g : Graph N E} {v : Vertex} {is : List (Fin g.snapshot.size)}
    (listed : v ∈ is.map g.snapshot.label) : g.containsVertex v = true := by
  obtain ⟨i, -, rfl⟩ := List.mem_map.mp listed
  exact g.label_live i

theorem exists_label {g : Graph N E} {v : Vertex} (live : g.containsVertex v = true) :
    ∃ i, g.snapshot.label i = v := by
  obtain ⟨i, inside, found⟩ := List.getElem_of_mem (Arena.mem_handles.mpr live)
  exact ⟨⟨i, inside⟩, found⟩

theorem label_inj {g : Graph N E} {i j : Fin g.snapshot.size}
    (same : g.snapshot.label i = g.snapshot.label j) : i = j := by
  have distinct : (g.vertexList.toArray.toList).Nodup := g.vertices.handles_nodup
  exact Fin.ext ((distinct.getElem_inj_iff).mp same)

theorem number?_eq_some {g : Graph N E} {v : Vertex} {i : Fin g.snapshot.size} :
    g.snapshot.number? v = some i ↔ g.snapshot.label i = v := by
  have entry : ∀ i, ∃ node, g.vertices.get? (g.snapshot.label i) = some node := fun i =>
    containsVertex_iff.mp (g.label_live i)
  refine Snapshot.lookup_eq_some (fun i j same => ?_) fun i => ?_
  · obtain ⟨node, found⟩ := entry i
    obtain ⟨node', found'⟩ := entry j
    exact label_inj (Arena.eq_of_index_eq found found' same)
  · obtain ⟨node, found⟩ := entry i
    exact Arena.index_lt found

theorem number?_eq_none {g : Graph N E} {v : Vertex} :
    g.snapshot.number? v = none ↔ g.containsVertex v = false := by
  rw [Option.eq_none_iff_forall_ne_some, Bool.eq_false_iff]
  constructor
  · intro absent live
    obtain ⟨i, label⟩ := exists_label live
    exact absent i (number?_eq_some.mpr label)
  · intro dead i number
    exact dead (number?_eq_some.mp number ▸ g.label_live i)

def Joined (g : Graph N E) (s t : Vertex) : Prop := g.hasEdge s t = true

theorem Valid.joined_iff {g : Graph N E} (valid : g.Valid) {s t : Vertex} :
    g.Joined s t ↔ ∃ e link, g.edges.get? e = some link ∧ link.ends = (s, t) := by
  rw [Joined, hasEdge, Option.isSome_iff_exists]
  refine exists_congr fun e => ?_
  rw [valid.edge?_eq_some]
  constructor
  · rintro ⟨payload, found⟩
    exact ⟨_, found, rfl⟩
  · rintro ⟨link, found, ends⟩
    obtain ⟨rfl, rfl⟩ := Prod.mk.inj ends
    exact ⟨link.payload, found⟩

theorem Valid.live_of_joined {g : Graph N E} (valid : g.Valid) {s t : Vertex}
    (joined : g.Joined s t) : g.containsVertex s = true ∧ g.containsVertex t = true := by
  obtain ⟨e, found⟩ := Option.isSome_iff_exists.mp joined
  obtain ⟨source, target, -⟩ := valid.live_of_edge? found
  exact ⟨source, target⟩

/-- A chain begins and ends at live vertices. -/
theorem Valid.live_of_chain {g : Graph N E} (valid : g.Valid) {s t : Vertex}
    (chain : TransGen g.Joined s t) : g.containsVertex s = true ∧ g.containsVertex t = true := by
  obtain ⟨u, first, -⟩ := TransGen.head'_iff.mp chain
  obtain ⟨w, -, last⟩ := TransGen.tail'_iff.mp chain
  exact ⟨(valid.live_of_joined first).1, (valid.live_of_joined last).2⟩

theorem Valid.mem_successors {g : Graph N E} (valid : g.Valid) {v w : Vertex} :
    w ∈ g.successors v ↔ g.Joined v w := by
  simp only [successors, List.mem_filterMap, valid.mem_outbound, source?_eq_some, target?_eq_some,
    valid.joined_iff]
  constructor
  · rintro ⟨e, ⟨link, found, source⟩, link', found', target⟩
    obtain rfl := Option.some.inj (found.symm.trans found')
    exact ⟨e, link, found, Prod.ext source target⟩
  · rintro ⟨e, link, found, ends⟩
    obtain ⟨source, target⟩ := Prod.mk.inj ends
    exact ⟨e, ⟨link, found, source⟩, link, found, target⟩

theorem Valid.mem_predecessors {g : Graph N E} (valid : g.Valid) {v w : Vertex} :
    v ∈ g.predecessors w ↔ g.Joined v w := by
  simp only [predecessors, List.mem_filterMap, valid.mem_inbound, source?_eq_some, target?_eq_some,
    valid.joined_iff]
  constructor
  · rintro ⟨e, ⟨link, found, target⟩, link', found', source⟩
    obtain rfl := Option.some.inj (found.symm.trans found')
    exact ⟨e, link, found, Prod.ext source target⟩
  · rintro ⟨e, link, found, ends⟩
    obtain ⟨source, target⟩ := Prod.mk.inj ends
    exact ⟨e, ⟨link, found, target⟩, link, found, source⟩

/-- The numbers of the successors stand for them, in the same order. -/
theorem Valid.map_neighbors {g : Graph N E} (valid : g.Valid) (i : Fin g.snapshot.size) :
    (g.snapshot.digraph.neighbors .along i).map g.snapshot.label =
      g.successors (g.snapshot.label i) := by
  have neighbors : g.snapshot.digraph.neighbors .along i =
      (g.successors (g.snapshot.label i)).filterMap g.snapshot.number? := VertexMap.get_map _ _ i
  rw [neighbors, List.map_filterMap]
  conv_rhs => rw [← List.filterMap_some (l := g.successors (g.snapshot.label i))]
  refine List.filterMap_congr fun v listed => ?_
  obtain ⟨j, rfl⟩ := exists_label (valid.live_of_joined (valid.mem_successors.mp listed)).2
  rw [number?_eq_some.mpr rfl, Option.map_some]

theorem Valid.edge_snapshot {g : Graph N E} (valid : g.Valid) {i j : Fin g.snapshot.size} :
    g.snapshot.digraph.Edge i j ↔ g.Joined (g.snapshot.label i) (g.snapshot.label j) := by
  have neighbors : g.snapshot.digraph.neighbors .along i =
      (g.successors (g.snapshot.label i)).filterMap g.snapshot.number? := VertexMap.get_map _ _ i
  rw [Digraph.Edge, neighbors, List.mem_filterMap, ← valid.mem_successors]
  constructor
  · rintro ⟨v, listed, found⟩
    rwa [number?_eq_some.mp found]
  · intro listed
    exact ⟨_, listed, number?_eq_some.mpr rfl⟩

/-- A graph with the same vertices numbers them in the same way. -/
theorem Valid.snapshot_of_same_vertices {g g' : Graph N E} (valid' : g'.Valid)
    (vertexList : g'.vertexList = g.vertexList)
    (slots : g'.vertices.slots.size = g.vertices.slots.size) :
    ∃ d : Digraph g.snapshot.size, g'.snapshot = { g.snapshot with digraph := d } ∧
      ∀ i j, d.Edge i j ↔ g'.Joined (g.snapshot.label i) (g.snapshot.label j) := by
  let numbered (slots : Nat) (vs : List Vertex) (successors : Vertex → List Vertex) : Snapshot :=
    let labels := VertexMap.ofArray vs.toArray
    let numbers := Snapshot.numbering labels slots
    let succ := labels.map fun v => (successors v).filterMap (Snapshot.lookup labels numbers)
    { size := _, labels, numbers, digraph := { succ } }
  have edges : ∀ {t : Snapshot}, g'.snapshot = t →
      ∀ i j, t.digraph.Edge i j ↔ g'.Joined (t.label i) (t.label j) := by
    rintro t rfl i j
    exact valid'.edge_snapshot
  have here : g.snapshot = numbered g.vertices.slots.size g.vertexList g.successors := rfl
  have there : g'.snapshot = numbered g.vertices.slots.size g.vertexList g'.successors := by
    rw [← vertexList, ← slots]
    rfl
  -- the labels are the same, but their snapshots are not, and comparing those takes long
  have label : ∀ successors i,
      (numbered g.vertices.slots.size g.vertexList successors).label i = g.vertexList[i] :=
    fun _ _ => rfl
  have edge := edges there
  simp only [label] at edge
  rw [here]
  exact ⟨(numbered g.vertices.slots.size g.vertexList g'.successors).digraph, there, edge⟩

/-! ## Ways -/

theorem Valid.transGen_snapshot {g : Graph N E} (valid : g.Valid) {i j : Fin g.snapshot.size} :
    TransGen g.snapshot.digraph.Edge i j ↔
      TransGen g.Joined (g.snapshot.label i) (g.snapshot.label j) := by
  constructor
  · exact fun way => way.lift g.snapshot.label fun _ _ => valid.edge_snapshot.mp
  · intro way
    have numbered : ∀ v, TransGen g.Joined (g.snapshot.label i) v →
        ∃ j, g.snapshot.label j = v ∧ TransGen g.snapshot.digraph.Edge i j := by
      intro v way
      induction way with
      | single joined =>
          obtain ⟨j, rfl⟩ := exists_label (valid.live_of_joined joined).2
          exact ⟨j, rfl, .single (valid.edge_snapshot.mpr joined)⟩
      | tail _ joined ih =>
          obtain ⟨k, rfl, way⟩ := ih
          obtain ⟨j, rfl⟩ := exists_label (valid.live_of_joined joined).2
          exact ⟨j, rfl, way.tail (valid.edge_snapshot.mpr joined)⟩
    obtain ⟨k, same, way⟩ := numbered _ way
    rwa [label_inj same] at way

/-- The digraph has a cycle exactly if the graph has one. -/
theorem Valid.acyclic_snapshot {g : Graph N E} (valid : g.Valid) :
    (∀ i, ¬ TransGen g.snapshot.digraph.Edge i i) ↔ ∀ v, ¬ TransGen g.Joined v v := by
  constructor
  · intro acyclic v cycle
    obtain ⟨i, rfl⟩ := exists_label (valid.live_of_chain cycle).1
    exact acyclic i (valid.transGen_snapshot.mpr cycle)
  · exact fun acyclic i cycle => acyclic _ (valid.transGen_snapshot.mp cycle)

end Graph

end Provenance
