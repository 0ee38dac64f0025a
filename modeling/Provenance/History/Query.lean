import Std.Data.ExtTreeSet
import Provenance.Graph.Dominance
import Provenance.Graph.Order
import Provenance.Graph.Paths
import Provenance.History.Basic

/-! # Questions to a history

Ancestors and descendants of an image, chains of versions, and what hangs on a single version.
-/

namespace Provenance

/-- Where an image stands among its relatives. -/
inductive Placement where
  | origin
  | intermediate
  | current
  | single
deriving DecidableEq

namespace History

/-- The files of some versions. -/
def idsOf (h : History) (vs : List Vertex) : List ImageId :=
  (vs.filterMap h.graph.vertexPayload?).flatMap Version.ids

/-- The first file of each of some versions. -/
def primaryIdsOf (h : History) (vs : List Vertex) : List ImageId :=
  (vs.filterMap h.graph.vertexPayload?).filterMap Version.primary?

/-- The result of a question to the graph, as one to the history. -/
def asked {α : Type} : Except GraphError α → Except HistoryError α
  | .ok a => .ok a
  | .error cause => .error (.graph cause)

def actions (h : History) (parent child : ImageId) : Except HistoryError (List Action) := do
  let p ← h.require parent
  let c ← h.require child
  let (source, target) := h.orient p c
  return (h.graph.payloadBetween source target).actions

def roots (h : History) : List ImageId := h.idsOf h.graph.roots

def leaves (h : History) : List ImageId := h.idsOf h.graph.leaves

/-- The versions that can be reached from `v` toward one end and have no neighbour there. -/
def endsToward (h : History) (v : Vertex) (toward : Toward) : List Vertex :=
  let side : AdjacencyFlags :=
    match toward with
    | .roots => .onlyToRoots
    | .leaves => .onlyToLeaves
  (h.graph.breadthFirst v toward).filter fun u => (h.graph.adjacentVertices u side).isEmpty

/-- The files of the versions at one end that belong to an image. -/
def endsFor (h : History) (id : ImageId) (toward : Toward) :
    Except HistoryError (List ImageId) := do
  let v ← h.require id
  return h.idsOf (h.endsToward v toward)

/-- The files of the origins that an image goes back to. -/
def rootsFor (h : History) (id : ImageId) : Except HistoryError (List ImageId) :=
  h.endsFor id .roots

/-- The files of the last versions derived from an image. -/
def leavesFor (h : History) (id : ImageId) : Except HistoryError (List ImageId) :=
  h.endsFor id .leaves

def categorize (h : History) (id : ImageId) : Except HistoryError Placement := do
  let v ← h.require id
  let parents := h.graph.adjacentVertices v .onlyToRoots
  let children := h.graph.adjacentVertices v .onlyToLeaves
  return match parents.isEmpty, children.isEmpty with
    | true, true => .single
    | true, false => .origin
    | false, false => .intermediate
    | false, true => .current

/-- Every pair of files of which one descends from the other, in increasing order. -/
def relationCloud (h : History) : Except HistoryError (List Relation) := do
  let closure ← asked (h.graph.transitiveClosure .vertices)
  let between : Vertex × Vertex → List Relation := fun (source, target) =>
    let (parent, child) := h.orient source target
    match closure.vertexPayload? parent, closure.vertexPayload? child with
    | some p, some c => relationsBetween p c
    | _, _ => []
  return (Std.ExtTreeSet.ofList (closure.edgePairs.flatMap between)).toList

/-- The graph with one more vertex, which is made a parent of every origin. -/
def rooted (h : History) : Vertex × Graph Version Derivation :=
  let (top, g) := h.graph.addVertex
  (top, h.graph.roots.foldl
    (fun g root =>
      let (source, target) := h.orient top root
      (g.addEdge source target).2) g)

/-- The files of the versions that no origin reaches but through that of an image. -/
def derivedFrom (h : History) (id : ImageId) (order : SearchOrder) :
    Except HistoryError (List ImageId) := do
  let v ← h.require id
  let (top, g) := h.rooted
  return h.idsOf ((g.dominatedBy v top order).filter (· != v))

/-- The longest chain of versions through that of an image, from an origin on. -/
def historyOf (h : History) (id : ImageId) : Except HistoryError (List ImageId) := do
  let v ← h.require id
  let path ← asked (h.graph.longestPath v)
  return h.primaryIdsOf (match h.config.direction with
    | .parentToChild => path
    | .childToParent => path.reverse)

/-- The shortest chain of versions between those of two images. -/
def pathBetween (h : History) (a b : ImageId) : Except HistoryError (List ImageId) := do
  let v ← h.require a
  let w ← h.require b
  let path ← asked (h.graph.shortestPath v w)
  return h.primaryIdsOf path

/-- All files, those of a parent before those of its children. -/
def sortedImages (h : History) : Except HistoryError (List ImageId) := do
  let order ← asked h.graph.topologicalSort
  return h.idsOf (match h.config.direction with
    | .parentToChild => order
    | .childToParent => order.reverse)

/-- The groups of files that descend from each other. -/
def cycles (h : History) : List (List ImageId) := h.graph.cyclicGroups.map h.idsOf

end History

end Provenance
