import Provenance.Digraph.Basic
import Provenance.Graph.Query

/-! # Snapshots

Searches run on a digraph whose vertices are numbered without holes. A snapshot numbers the live
vertices of a graph in storage order.
-/

namespace Provenance

/-- `numbers` holds, for every slot, the number of the live vertex in it. -/
structure Snapshot where
  size : Nat
  labels : VertexMap Vertex size
  numbers : Array (Option (Fin size))
  digraph : Digraph size

namespace Snapshot

/-- The number of the vertex in each of the first `slots` slots. -/
def numbering {n : Nat} (labels : VertexMap Vertex n) (slots : Nat) : Array (Option (Fin n)) :=
  (List.finRange n).foldl (fun numbers i => numbers.setIfInBounds (labels.get i).index (some i))
    (Array.replicate slots none)

/-- The number of a live vertex; none for any other handle. -/
def lookup {n : Nat} (labels : VertexMap Vertex n) (numbers : Array (Option (Fin n))) (v : Vertex) :
    Option (Fin n) :=
  match numbers[v.index]? with
  | some (some i) => if labels.get i = v then some i else none
  | _ => none

def number? (t : Snapshot) (v : Vertex) : Option (Fin t.size) := lookup t.labels t.numbers v

def label (t : Snapshot) (i : Fin t.size) : Vertex := t.labels.get i

end Snapshot

namespace Graph

variable {N E : Type}

def snapshot (g : Graph N E) : Snapshot :=
  let labels := VertexMap.ofArray g.vertexList.toArray
  let numbers := Snapshot.numbering labels g.vertices.slots.size
  let succ := labels.map fun v => (g.successors v).filterMap (Snapshot.lookup labels numbers)
  { size := _, labels, numbers, digraph := { succ } }

end Graph

end Provenance
