import Std.Data.ExtTreeMap
import Provenance.Arena
import Provenance.Direction

/-! # Graphs

A directed graph with a payload at every vertex and every edge, and at most one edge for an
ordered pair of vertices. Every operation accepts any handle; one that names nothing changes nothing.
-/

namespace Provenance

/-- A stored vertex; its edges are listed in the order in which they were made. -/
structure Node (N : Type) where
  payload : N
  outbound : List Edge := []
  inbound : List Edge := []

namespace Node

variable {N : Type}

def addOutbound (e : Edge) (node : Node N) : Node N :=
  { node with outbound := node.outbound ++ [e] }

def addInbound (e : Edge) (node : Node N) : Node N :=
  { node with inbound := node.inbound ++ [e] }

def dropOutbound (e : Edge) (node : Node N) : Node N :=
  { node with outbound := node.outbound.filter (· != e) }

def dropInbound (e : Edge) (node : Node N) : Node N :=
  { node with inbound := node.inbound.filter (· != e) }

end Node

/-- A stored edge. -/
structure Link (E : Type) where
  source : Vertex
  target : Vertex
  payload : E

namespace Link

variable {E : Type}

def ends (link : Link E) : Vertex × Vertex := (link.source, link.target)

end Link

/-- Pairs of vertices by source, then by target. -/
def orderEnds : Vertex × Vertex → Vertex × Vertex → Ordering :=
  compareLex (compareOn Prod.fst) (compareOn Prod.snd)

instance : Std.TransCmp orderEnds :=
  inferInstanceAs (Std.TransCmp (compareLex (compareOn Prod.fst) (compareOn Prod.snd)))

theorem eq_of_orderEnds_eq {p q : Vertex × Vertex} (h : orderEnds p q = .eq) : p = q := by
  obtain ⟨hs, ht⟩ := compareLex_eq_eq.mp h
  exact Prod.ext (Std.LawfulEqOrd.eq_of_compare hs) (Std.LawfulEqOrd.eq_of_compare ht)

instance : Std.LawfulEqCmp orderEnds where
  eq_of_compare := eq_of_orderEnds_eq

/-- `between` finds the edge of an ordered pair of vertices. -/
structure Graph (N E : Type) where
  direction : Direction := default
  vertices : Arena .vertex (Node N) := ∅
  edges : Arena .edge (Link E) := ∅
  between : Std.ExtTreeMap (Vertex × Vertex) Edge orderEnds := ∅

namespace Graph

variable {N E : Type}

def empty (direction : Direction) : Graph N E := { direction }

instance : Inhabited (Graph N E) := ⟨empty default⟩

/-- Forgets every vertex and edge, and with them the generations of all slots. -/
def clear (g : Graph N E) : Graph N E := empty g.direction

def containsVertex (g : Graph N E) (v : Vertex) : Bool := g.vertices.contains v

def containsEdge (g : Graph N E) (e : Edge) : Bool := g.edges.contains e

/-- The edge from one vertex to another. -/
def edge? (g : Graph N E) (source target : Vertex) : Option Edge := g.between[(source, target)]?

/-! ## Vertices -/

/-- The null handle is the answer once every slot is in use. -/
def addVertexWith (g : Graph N E) (payload : N) : Vertex × Graph N E :=
  if g.vertices.isFull then (.null, g)
  else
    let (v, vertices) := g.vertices.insert { payload }
    (v, { g with vertices })

def addVertex [Inhabited N] (g : Graph N E) : Vertex × Graph N E := g.addVertexWith default

def modifyVertex (g : Graph N E) (v : Vertex) (f : N → N) : Graph N E :=
  { g with vertices := g.vertices.modify v fun node => { node with payload := f node.payload } }

/-- Whether the vertex was there to be changed, and the graph after it. -/
def setVertex (g : Graph N E) (v : Vertex) (payload : N) : Bool × Graph N E :=
  (g.containsVertex v, g.modifyVertex v fun _ => payload)

/-! ## Edges -/

def modifyEdge (g : Graph N E) (e : Edge) (f : E → E) : Graph N E :=
  { g with edges := g.edges.modify e fun link => { link with payload := f link.payload } }

def setEdge (g : Graph N E) (e : Edge) (payload : E) : Bool × Graph N E :=
  (g.containsEdge e, g.modifyEdge e fun _ => payload)

/-- Joins two vertices that are live and not joined yet. -/
def joinWith (g : Graph N E) (source target : Vertex) (payload : E) : Edge × Graph N E :=
  if g.edges.isFull then (.null, g)
  else
    let (e, edges) := g.edges.insert { source, target, payload }
    (e, { g with
      edges
      between := g.between.insert (source, target) e
      vertices := (g.vertices.modify source (·.addOutbound e)).modify target (·.addInbound e) })

/-- The edge between two live vertices, with this payload: made now, or found and changed. -/
def addEdgeWith (g : Graph N E) (source target : Vertex) (payload : E) : Edge × Graph N E :=
  if g.containsVertex source && g.containsVertex target then
    match g.edge? source target with
    | some e => (e, g.modifyEdge e fun _ => payload)
    | none => g.joinWith source target payload
  else (.null, g)

/-- The edge between two live vertices: made now, or found and left as it is. -/
def addEdge [Inhabited E] (g : Graph N E) (source target : Vertex) : Edge × Graph N E :=
  if g.containsVertex source && g.containsVertex target then
    match g.edge? source target with
    | some e => (e, g)
    | none => g.joinWith source target default
  else (.null, g)

def dropEdge (g : Graph N E) (e : Edge) : Graph N E :=
  match g.edges.get? e with
  | some link =>
      { g with
        edges := g.edges.erase e
        between := g.between.erase link.ends
        vertices :=
          (g.vertices.modify link.source (·.dropOutbound e)).modify link.target (·.dropInbound e) }
  | none => g

/-- Whether the edge was there to be removed, and the graph without it. -/
def removeEdge (g : Graph N E) (e : Edge) : Bool × Graph N E := (g.containsEdge e, g.dropEdge e)

/-- Whether the vertex was there to be removed, and the graph without it and its edges. -/
def removeVertex (g : Graph N E) (v : Vertex) : Bool × Graph N E :=
  match g.vertices.get? v with
  | some node =>
      let rest := (node.outbound ++ node.inbound).foldl dropEdge g
      (true, { rest with vertices := rest.vertices.erase v })
  | none => (false, g)

def removeVertices (g : Graph N E) (vs : List Vertex) : Graph N E :=
  vs.foldl (fun g v => (g.removeVertex v).2) g

end Graph

end Provenance
