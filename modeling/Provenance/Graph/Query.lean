import Provenance.Graph.Basic
import Provenance.Graph.Flags

/-! # Queries

Payloads, ends, neighbours and degrees. A dead handle has no payload, no neighbours and degree zero.
-/

namespace Provenance.Graph

variable {N E : Type}

/-! ## Payloads -/

def vertexPayload? (g : Graph N E) (v : Vertex) : Option N := (g.vertices.get? v).map Node.payload

def edgePayload? (g : Graph N E) (e : Edge) : Option E := (g.edges.get? e).map Link.payload

def payloadBetween [Inhabited E] (g : Graph N E) (source target : Vertex) : E :=
  ((g.edge? source target).bind g.edgePayload?).getD default

/-- The first vertex, in storage order, whose payload passes the test. -/
def findVertex? (g : Graph N E) (test : N → Bool) : Option Vertex :=
  g.vertices.find? fun node => test node.payload

/-! ## Contents -/

/-- The live vertices, in storage order. -/
def vertexList (g : Graph N E) : List Vertex := g.vertices.handles

/-- The live edges, in storage order. -/
def edgeList (g : Graph N E) : List Edge := g.edges.handles

/-- Source and target of every edge, in storage order. -/
def edgePairs (g : Graph N E) : List (Vertex × Vertex) := g.edges.entries.map fun (_, l) => l.ends

def vertexCount (g : Graph N E) : Nat := g.vertices.size

def edgeCount (g : Graph N E) : Nat := g.edges.size

def isEmpty (g : Graph N E) : Bool := g.vertexCount == 0

/-! ## Ends -/

def source? (g : Graph N E) (e : Edge) : Option Vertex := (g.edges.get? e).map Link.source

def target? (g : Graph N E) (e : Edge) : Option Vertex := (g.edges.get? e).map Link.target

def hasEdge (g : Graph N E) (source target : Vertex) : Bool := (g.edge? source target).isSome

def isConnected (g : Graph N E) (v w : Vertex) : Bool := g.hasEdge v w || g.hasEdge w v

/-! ## Neighbours -/

def outbound (g : Graph N E) (v : Vertex) : List Edge :=
  match g.vertices.get? v with
  | some node => node.outbound
  | none => []

def inbound (g : Graph N E) (v : Vertex) : List Edge :=
  match g.vertices.get? v with
  | some node => node.inbound
  | none => []

def outDegree (g : Graph N E) (v : Vertex) : Nat := (g.outbound v).length

def inDegree (g : Graph N E) (v : Vertex) : Nat := (g.inbound v).length

def successors (g : Graph N E) (v : Vertex) : List Vertex := (g.outbound v).filterMap g.target?

def predecessors (g : Graph N E) (v : Vertex) : List Vertex := (g.inbound v).filterMap g.source?

/-- Targets of outbound edges, then sources of inbound ones; one entry for an edge. -/
def adjacentVertices (g : Graph N E) (v : Vertex) (flags : AdjacencyFlags) : List Vertex :=
  let sides := flags.resolve g.direction
  (if sides.outbound then g.successors v else []) ++
    (if sides.inbound then g.predecessors v else [])

def edgesOf (g : Graph N E) (v : Vertex) (flags : AdjacencyFlags) : List Edge :=
  let sides := flags.resolve g.direction
  (if sides.outbound then g.outbound v else []) ++ (if sides.inbound then g.inbound v else [])

/-- The vertices without a neighbour at the given end, in storage order. -/
def extremes (g : Graph N E) (toward : Toward) : List Vertex :=
  g.vertexList.filter fun v =>
    match g.direction.way toward with
    | .along => g.outDegree v == 0
    | .against => g.inDegree v == 0

/-- The vertices without parents, in storage order. -/
def roots (g : Graph N E) : List Vertex := g.extremes .roots

/-- The vertices without children, in storage order. -/
def leaves (g : Graph N E) : List Vertex := g.extremes .leaves

end Provenance.Graph
