import Provenance.Config.Basic
import Provenance.Graph.Derived
import Provenance.Error
import Provenance.Image.Version

/-! # Histories

The versions of a set of images and the derivations between them. Parents and children are named
as such; the configured direction only says which way round an edge is stored.
-/

namespace Provenance

structure History where
  config : Config := default
  graph : Graph Version Derivation := .empty config.direction

namespace History

instance : Inhabited History := ⟨{}⟩

def empty (config : Config) : History := { config }

/-- The number of versions. -/
def size (h : History) : Nat := h.graph.vertexCount

def isEmpty (h : History) : Bool := h.graph.isEmpty

/-- The version that an image belongs to. -/
def vertexFor? (h : History) (id : ImageId) : Option Vertex := h.graph.findVertex? (·.holds id)

def contains (h : History) (id : ImageId) : Bool := (h.vertexFor? id).isSome

def require (h : History) (id : ImageId) : Except HistoryError Vertex :=
  match h.vertexFor? id with
  | some v => .ok v
  | none => .error (.unknownImage id)

/-- Source and target of the edge that joins a parent and a child. Taken again, it gives parent
and child of a source and a target. -/
def orient (h : History) (parent child : Vertex) : Vertex × Vertex :=
  h.config.direction.orient parent child

/-! ## Adding -/

/-- The version of an image, which is a new one if the image is not known. -/
def addImage (h : History) (id : ImageId) : Vertex × History :=
  match h.vertexFor? id with
  | some v => (v, h)
  | none =>
      let (v, graph) := h.graph.addVertexWith (.ofId id)
      (v, { h with graph })

/-- Records an image as another file of the version of a known one. -/
def addDuplicate (h : History) (existing duplicate : ImageId) : Except HistoryError History :=
  match h.vertexFor? existing, h.vertexFor? duplicate with
  | none, _ => .error (.unknownImage existing)
  | some v, some w =>
      if w = v then .ok h else .error (.conflictingDuplicate existing duplicate)
  | some v, none => .ok { h with graph := h.graph.modifyVertex v (·.addId duplicate) }

/-- Records that the child was derived from the parent; actions are added to those of an earlier
record. -/
def addDerivation (h : History) (parent child : ImageId) (actions : List Action) :
    Edge × History :=
  let (p, h) := h.addImage parent
  let (c, h) := h.addImage child
  let (source, target) := h.orient p c
  match h.graph.edge? source target with
  | some e => (e, { h with graph := h.graph.modifyEdge e (·.addActions actions) })
  | none =>
      let (e, graph) := h.graph.addEdgeWith source target ⟨actions⟩
      (e, { h with graph })

def addRelations (h : History) (relations : List Relation) : History :=
  relations.foldl (fun h r => (h.addDerivation r.object r.subject []).2) h

/-! ## Relations -/

/-- The records of one derivation. -/
def relationsOf (h : History) (e : Edge) : List Relation :=
  match h.graph.edges.get? e with
  | some link =>
      let (parent, child) := h.orient link.source link.target
      match h.graph.vertexPayload? parent, h.graph.vertexPayload? child with
      | some p, some c => relationsBetween p c
      | _, _ => []
  | none => []

/-- The records of all derivations, in storage order. -/
def relations (h : History) : List Relation := h.graph.edgeList.flatMap h.relationsOf

/-- Notes the records of a derivation and takes it out. -/
def takeOut (state : List Relation × History) (e : Edge) : List Relation × History :=
  (state.1 ++ state.2.relationsOf e, { state.2 with graph := state.2.graph.dropEdge e })

/-- Removes the derivations that a longer chain implies, and gives their records. -/
def reduceEdges (h : History) : Except HistoryError (List Relation × History) :=
  match h.graph.transitiveReductionWithRemoved .nothing with
  | .ok (_, removed) => .ok (removed.foldl takeOut ([], h))
  | .error cause => .error (.graph cause)

/-- The history of a list of records, reduced if the configuration asks for it. -/
def ofRelations (relations : List Relation) (config : Config) : Except HistoryError History :=
  let h := (empty config).addRelations relations
  if config.reduceOnLoad then h.reduceEdges.map Prod.snd else .ok h

end History

end Provenance
