import Provenance.Digraph.Reach
import Provenance.Graph.Error
import Provenance.Graph.Snapshot

/-! # Transitive closure and reduction

Both give a new graph whose vertices stand for the live vertices of the old one, in storage order.
-/

namespace Provenance.Graph

variable {N E : Type}

/-- A copy under construction: its graph, and the vertex that stands for each numbered one. -/
structure Copy (N E : Type) (n : Nat) where
  graph : Graph N E
  vertices : VertexMap Vertex n

namespace Copy

variable {n : Nat}

def addEdges [Inhabited E] (copy : Copy N E n) (pairs : List (Fin n × Fin n)) : Copy N E n :=
  { copy with
    graph := pairs.foldl
      (fun g (u, w) => (g.addEdge (copy.vertices.get u) (copy.vertices.get w)).2) copy.graph }

end Copy

/-- One vertex for each of `n`, and no edges. -/
def skeleton [Inhabited N] (direction : Direction) : (n : Nat) → Copy N E n
  | 0 => ⟨empty direction, ⟨#v[]⟩⟩
  | n + 1 =>
      let copy := skeleton direction n
      let (v, graph) := copy.graph.addVertex
      ⟨graph, copy.vertices.push v⟩

/-- The numbers of the ends of an edge. -/
def endNumbers? (g : Graph N E) (t : Snapshot) (e : Edge) : Option (Fin t.size × Fin t.size) := do
  let link ← g.edges.get? e
  let u ← t.number? link.source
  let w ← t.number? link.target
  return (u, w)

/-- The vertices of a copy that stand for the ends of an edge. -/
def copiedEnds? (g : Graph N E) (t : Snapshot) (copy : Copy N E t.size) (e : Edge) :
    Option (Vertex × Vertex) := do
  let (u, w) ← g.endNumbers? t e
  return (copy.vertices.get u, copy.vertices.get w)

/-- The edge of a copy that stands for an edge of the graph. -/
def counterpart? (g : Graph N E) (t : Snapshot) (copy : Copy N E t.size) (e : Edge) :
    Option Edge := do
  let (source, target) ← g.copiedEnds? t copy e
  copy.graph.edge? source target

/-- Whether a copy has no edge that stands for one of the graph. -/
def isMissing (g : Graph N E) (t : Snapshot) (copy : Copy N E t.size) (e : Edge) : Bool :=
  (g.copiedEnds? t copy e).any fun (source, target) => !copy.graph.hasEdge source target

/-- The edges of the graph that are missing from a copy. -/
def difference (g : Graph N E) (t : Snapshot) (copy : Copy N E t.size) : List Edge :=
  g.edgeList.filter (g.isMissing t copy)

def copyVertexPayloads (g : Graph N E) (t : Snapshot) (copy : Copy N E t.size) :
    Copy N E t.size :=
  let copyOne (h : Graph N E) (i : Fin t.size) : Graph N E :=
    match g.vertexPayload? (t.label i) with
    | some payload => (h.setVertex (copy.vertices.get i) payload).2
    | none => h
  { copy with graph := (List.finRange t.size).foldl copyOne copy.graph }

def copyEdgePayloads (g : Graph N E) (t : Snapshot) (copy : Copy N E t.size) :
    Copy N E t.size :=
  let copyOne (h : Graph N E) (e : Edge) : Graph N E :=
    match g.counterpart? t copy e, g.edgePayload? e with
    | some copied, some payload => (h.setEdge copied payload).2
    | _, _ => h
  { copy with graph := g.edgeList.foldl copyOne copy.graph }

/-- Gives a copy the payloads that the flags ask for. -/
def copyPayloads (g : Graph N E) (t : Snapshot) (flags : CopyFlags) (copy : Copy N E t.size) :
    Copy N E t.size :=
  let copy := if flags.vertexPayloads then g.copyVertexPayloads t copy else copy
  if flags.edgePayloads then g.copyEdgePayloads t copy else copy

/-- An edge from every vertex to each vertex that it reaches. -/
def transitiveClosure [Inhabited N] [Inhabited E] (g : Graph N E) (flags : CopyFlags) :
    Except GraphError (Graph N E) := do
  let t := g.snapshot
  let reach ← Operation.transitiveClosure.require t.digraph.reach?
  let copy := (skeleton g.direction t.size).addEdges reach.pairs
  return (g.copyPayloads t flags copy).graph

/-- The graph without the edges that a longer chain implies, and those edges in storage order. -/
def transitiveReductionWithRemoved [Inhabited N] [Inhabited E] (g : Graph N E)
    (flags : CopyFlags) : Except GraphError (Graph N E × List Edge) := do
  let t := g.snapshot
  let reach ← Operation.transitiveReduction.require t.digraph.reach?
  let pairs := g.edgeList.filterMap (g.endNumbers? t)
  let kept := pairs.filter fun (u, w) => !t.digraph.implied reach u w
  let reduction := g.copyPayloads t flags ((skeleton g.direction t.size).addEdges kept)
  return (reduction.graph, g.difference t reduction)

def transitiveReduction [Inhabited N] [Inhabited E] (g : Graph N E) (flags : CopyFlags) :
    Except GraphError (Graph N E) :=
  (·.1) <$> g.transitiveReductionWithRemoved flags

end Provenance.Graph
