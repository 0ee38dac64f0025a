import Provenance.Proofs.Graph.Snapshot
import Provenance.Proofs.Tables.Basic

/-! # Snapshots as tables

The vertices are numbered in a table with one entry for every slot, and each edge is noted at both
of its ends. That needs the numbers of its ends, which are there because the ends are live.
-/

namespace Provenance

/-- A snapshot of a graph in tables. -/
structure Layout where
  vertices : Array Vertex
  numbers : Array (Option Nat)
  succ : Array (List Nat)
  pred : Array (List Nat)

namespace Table

/-- The number of the vertex in each slot. -/
def numbering? (vertices : List Vertex) (slots : Nat) : Option (Array (Option Nat)) :=
  vertices.zipIdx.foldlM (fun numbers (v, i) => write? numbers v.index (some i))
    (Array.replicate slots none)

/-- Puts a number at the end of a list. -/
def extendList? (lists : Array (List Nat)) (u w : Nat) : Option (Array (List Nat)) := do
  write? lists u ((← lists[u]?) ++ [w])

/-- The lists of targets and of sources. -/
abbrev Sides := Array (List Nat) × Array (List Nat)

/-- Notes an edge to a vertex, which has to have a number. -/
def note? (numbers : Array (Option Nat)) (u : Nat) (sides : Sides) (v : Vertex) : Option Sides := do
  let w ← (← numbers[v.index]?)
  return (← extendList? sides.1 u w, ← extendList? sides.2 w u)

end Table

namespace Layout

def next (l : Layout) : Way → Array (List Nat)
  | .along => l.succ
  | .against => l.pred

/-- The number of a live vertex; none for any other handle. -/
def number? (l : Layout) (v : Vertex) : Option (Option Nat) :=
  match l.numbers[v.index]? with
  | some (some i) => do return if (← l.vertices[i]?) = v then some i else none
  | _ => return none

def labels? (l : Layout) (is : List Nat) : Option (List Vertex) := is.mapM (l.vertices[·]?)

end Layout

namespace Graph

variable {N E : Type}

def layout? (g : Graph N E) : Option Layout := do
  let vertices := g.vertexList
  let numbers ← Table.numbering? vertices g.vertices.slots.size
  let blank := Array.replicate vertices.length []
  let sides ← vertices.zipIdx.foldlM
    (fun sides (v, u) => (g.successors v).foldlM (Table.note? numbers u) sides) (blank, blank)
  return { vertices := vertices.toArray, numbers, succ := sides.1, pred := sides.2 }

end Graph

/-! ## Numbers -/

namespace Snapshot

variable {n : Nat} {labels : VertexMap Vertex n} {slots : Nat}

theorem foldlM_numbering?_eq (inside : ∀ i, (labels.get i).index < slots) (is : List (Fin n))
    {numbers : Array (Option (Fin n))} (size : numbers.size = slots) :
    (is.map fun i => (labels.get i, i.val)).foldlM
        (fun numbers (v, i) => Table.write? numbers v.index (some i))
        (numbers.map (·.map Fin.val)) =
      some ((is.foldl (fun numbers i => numbers.setIfInBounds (labels.get i).index (some i))
        numbers).map (·.map Fin.val)) := by
  induction is generalizing numbers with
  | nil => rfl
  | cons i is ih =>
      have written : Table.write? (numbers.map (·.map Fin.val)) (labels.get i).index (some i.val) =
          some ((numbers.setIfInBounds (labels.get i).index (some i)).map (·.map Fin.val)) := by
        simp [Table.write?, size, inside i]
      rw [List.map_cons, List.foldlM_cons]
      dsimp only
      rw [written]
      exact ih (by simpa using size)

/-- The labels in a list, each with its number. -/
theorem zipIdx_labels (labels : VertexMap Vertex n) :
    labels.values.toList.zipIdx = (List.finRange n).map fun i => (labels.get i, i.val) := by
  refine List.ext_getElem (by simp) fun i _ _ => ?_
  simp [VertexMap.get, Vector.get]

theorem numbering?_eq (labels : VertexMap Vertex n)
    (inside : ∀ i, (labels.get i).index < slots) :
    Table.numbering? labels.values.toList slots =
      some ((numbering labels slots).map (·.map Fin.val)) := by
  have blank : Array.replicate slots none =
      (Array.replicate slots (none : Option (Fin n))).map (·.map Fin.val) := by simp
  rw [Table.numbering?, zipIdx_labels, blank]
  exact foldlM_numbering?_eq inside _ (by simp)

end Snapshot

/-! ## Edges -/

namespace Table

variable {n : Nat}

/-- The tables that list some edges. -/
def sides (edges : List (Fin n × Fin n)) : Sides :=
  ((VertexMap.ofFn fun u : Fin n => (edges.filter (·.1 = u)).map (·.2.val)).table,
    (VertexMap.ofFn fun w : Fin n => (edges.filter (·.2 = w)).map (·.1.val)).table)

theorem extendList?_table (lists : VertexMap (List Nat) n) (u : Fin n) (w : Nat) :
    extendList? lists.table u.val w = some (lists.set u (lists.get u ++ [w])).table := by
  simp [extendList?]

theorem sides_append (edges : List (Fin n × Fin n)) (u w : Fin n) :
    (do return (← extendList? (sides edges).1 u.val w.val,
      ← extendList? (sides edges).2 w.val u.val) : Option Sides) =
      some (sides (edges ++ [(u, w)])) := by
  have targets : (VertexMap.ofFn fun u : Fin n => (edges.filter (·.1 = u)).map (·.2.val)).set u
      ((edges.filter (·.1 = u)).map (·.2.val) ++ [w.val]) =
      .ofFn fun u' => ((edges ++ [(u, w)]).filter (·.1 = u')).map (·.2.val) := by
    refine VertexMap.ext_get fun v => ?_
    by_cases same : u = v <;> simp [same]
  have sources : (VertexMap.ofFn fun w : Fin n => (edges.filter (·.2 = w)).map (·.1.val)).set w
      ((edges.filter (·.2 = w)).map (·.1.val) ++ [u.val]) =
      .ofFn fun w' => ((edges ++ [(u, w)]).filter (·.2 = w')).map (·.1.val) := by
    refine VertexMap.ext_get fun v => ?_
    by_cases same : w = v <;> simp [same]
  simp only [sides, extendList?_table, VertexMap.get_ofFn, targets, sources]
  rfl

end Table

namespace Digraph

variable {n : Nat} (d : Digraph n)

/-- All edges, by their sources. -/
def edgeList (d : Digraph n) : List (Fin n × Fin n) :=
  (List.finRange n).flatMap fun u => (d.neighbors .along u).map (u, ·)

theorem targets_edgeList (u : Fin n) :
    (d.edgeList.filter (·.1 = u)).map Prod.snd = d.neighbors .along u := by
  obtain ⟨before, after, split⟩ := List.append_of_mem (List.mem_finRange u)
  have nodup := List.nodup_finRange n
  rw [split, List.nodup_append] at nodup
  have others : ∀ us : List (Fin n), u ∉ us →
      ((us.flatMap fun v => (d.neighbors .along v).map (v, ·)).filter (·.1 = u)) = [] := by
    intro us away
    simp only [List.filter_eq_nil_iff, List.mem_flatMap, List.mem_map]
    rintro _ ⟨v, listed, w, -, rfl⟩ same
    exact away (of_decide_eq_true same ▸ listed)
  have first : u ∉ before := fun listed => nodup.2.2 u listed u List.mem_cons_self rfl
  have last : u ∉ after := (List.nodup_cons.mp nodup.2.1).1
  rw [edgeList, split, List.flatMap_append, List.flatMap_cons, List.filter_append,
    List.filter_append, others before first, others after last, List.filter_map]
  simp [Function.comp_def]

theorem sources_edgeList (w : Fin n) :
    (d.edgeList.filter (·.2 = w)).map Prod.fst = d.neighbors .against w := by
  rw [neighbors, d.pred_eq, Neighbors.get_transpose, edgeList, List.filter_flatMap,
    List.map_flatMap]
  refine congrArg (List.flatMap · (List.finRange n)) (funext fun u => ?_)
  simp [List.filter_map, Function.comp_def, List.count_eq_length_filter, neighbors, beq_eq_decide]

/-- The lists of targets and sources are what comes of noting all edges, one after the other. -/
theorem sides_edgeList : Table.sides d.edgeList = (d.lists .along, d.lists .against) := by
  have along : ∀ u, (d.edgeList.filter (·.1 = u)).map (·.2.val) =
      (d.neighbors .along u).map Fin.val := fun u => by
    rw [← targets_edgeList, List.map_map]
    rfl
  have against : ∀ w, (d.edgeList.filter (·.2 = w)).map (·.1.val) =
      (d.neighbors .against w).map Fin.val := fun w => by
    rw [← sources_edgeList, List.map_map]
    rfl
  simp only [Table.sides, along, against, lists]

end Digraph

/-! ## Nothing fails -/

namespace Snapshot

/-- The tables of a snapshot. -/
def layout (t : Snapshot) : Layout where
  vertices := t.labels.table
  numbers := t.numbers.map (·.map Fin.val)
  succ := t.digraph.lists .along
  pred := t.digraph.lists .against

variable (t : Snapshot)

@[simp]
theorem next_layout (way : Way) : t.layout.next way = t.digraph.lists way := by
  cases way <;> rfl

/-- Any handle is looked up without a failing access. -/
theorem number?_layout (v : Vertex) : t.layout.number? v = some ((t.number? v).map Fin.val) := by
  unfold Layout.number? number? lookup
  simp only [layout, Array.getElem?_map]
  cases t.numbers[v.index]? with
  | none => rfl
  | some entry =>
      cases entry with
      | none => rfl
      | some i =>
          simp only [Option.map_some, VertexMap.getElem?_table, Option.bind_eq_bind,
            Option.bind_some]
          split <;> rfl

theorem labels?_layout (is : List (Fin t.size)) :
    t.layout.labels? (is.map Fin.val) = some (is.map t.label) :=
  Table.mapM_eq_some (t.labels.getElem?_table ·) is

end Snapshot

namespace Graph

variable {N E : Type} {g : Graph N E}

theorem numbers_label (g : Graph N E) (i : Fin g.snapshot.size) :
    g.snapshot.numbers[(g.snapshot.label i).index]? = some (some i) := by
  have found := number?_eq_some.mpr (rfl : g.snapshot.label i = g.snapshot.label i)
  unfold Snapshot.number? Snapshot.lookup at found
  split at found
  next j read =>
    split at found
    next => rw [read, Option.some.inj found]
    next => cases found
  next => cases found

theorem note?_eq (g : Graph N E) (u : Fin g.snapshot.size)
    (edges : List (Fin g.snapshot.size × Fin g.snapshot.size)) (w : Fin g.snapshot.size) :
    Table.note? g.snapshot.layout.numbers u.val (Table.sides edges) (g.snapshot.label w) =
      some (Table.sides (edges ++ [(u, w)])) := by
  have read : g.snapshot.layout.numbers[(g.snapshot.label w).index]? = some (some w.val) := by
    simp [Snapshot.layout, numbers_label]
  rw [Table.note?, read]
  exact Table.sides_append edges u w

theorem foldlM_note?_eq (valid : g.Valid)
    (edges : List (Fin g.snapshot.size × Fin g.snapshot.size)) (u : Fin g.snapshot.size) :
    (g.successors (g.snapshot.label u)).foldlM (Table.note? g.snapshot.layout.numbers u.val)
        (Table.sides edges) =
      some (Table.sides (edges ++ (g.snapshot.digraph.neighbors .along u).map (u, ·))) := by
  have loop := Table.foldlM_eq_some (g.note?_eq u) (g.snapshot.digraph.neighbors .along u) edges
  rw [valid.map_neighbors] at loop
  have noted : ((g.snapshot.digraph.neighbors .along u).map fun w => [(u, w)]).flatten =
      (g.snapshot.digraph.neighbors .along u).map (u, ·) := by
    rw [← List.flatMap_def, List.map_eq_flatMap]
  rw [loop, List.foldl_append_eq_append, noted]

/-- A snapshot is taken without a failing access, and every edge leads to a numbered vertex. -/
theorem layout?_eq (valid : g.Valid) : g.layout? = some g.snapshot.layout := by
  have inside : ∀ i, (g.snapshot.labels.get i).index < g.vertices.slots.size := fun i => by
    obtain ⟨node, found⟩ := containsVertex_iff.mp (g.label_live i)
    exact Arena.index_lt found
  have vertices : g.vertexList = g.snapshot.labels.values.toList := rfl
  have numbers : Table.numbering? g.vertexList g.vertices.slots.size =
      some g.snapshot.layout.numbers := Snapshot.numbering?_eq g.snapshot.labels inside
  have blank : Table.sides ([] : List (Fin g.snapshot.size × Fin g.snapshot.size)) =
      (Array.replicate g.vertexList.length [], Array.replicate g.vertexList.length []) := by
    have size : g.snapshot.size = g.vertexList.length := rfl
    simp only [Table.sides, List.filter_nil, List.map_nil, VertexMap.ofFn_const,
      VertexMap.table_const, size]
  have edges : g.vertexList.zipIdx.foldlM (fun sides (v, u) => (g.successors v).foldlM
        (Table.note? g.snapshot.layout.numbers u) sides)
        (Array.replicate g.vertexList.length [], Array.replicate g.vertexList.length []) =
      some (Table.sides g.snapshot.digraph.edgeList) := by
    rw [← blank, vertices, Snapshot.zipIdx_labels, Digraph.edgeList, List.flatMap_eq_foldl]
    exact Table.foldlM_eq_some (foldlM_note?_eq valid) _ []
  unfold layout?
  dsimp only
  rw [numbers, Option.bind_eq_bind, Option.bind_some, edges, Digraph.sides_edgeList]
  rfl

end Graph

end Provenance
