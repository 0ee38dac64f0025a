import Provenance.Proofs.Graph.Operations

/-! # Runs

A run applies one change after the other to a graph. The handles in a change are arbitrary: live,
stale, null or never issued.
-/

namespace Provenance

variable {N E : Type}

inductive Mutation (N E : Type) where
  | addVertex
  | addVertexWith (payload : N)
  | removeVertex (v : Vertex)
  | removeVertices (vs : List Vertex)
  | addEdge (source target : Vertex)
  | addEdgeWith (source target : Vertex) (payload : E)
  | removeEdge (e : Edge)
  | setVertex (v : Vertex) (payload : N)
  | modifyVertex (v : Vertex) (f : N → N)
  | setEdge (e : Edge) (payload : E)
  | modifyEdge (e : Edge) (f : E → E)
  | clear
  /-- The run goes on with a copy of the graph. -/
  | copy

/-- What a change answers. -/
inductive Reply where
  | vertex (v : Vertex)
  | edge (e : Edge)
  | flag (changed : Bool)
  | done
deriving DecidableEq

namespace Mutation

def apply [Inhabited N] [Inhabited E] (g : Graph N E) : Mutation N E → Reply × Graph N E
  | .addVertex => g.addVertex.map .vertex id
  | .addVertexWith payload => (g.addVertexWith payload).map .vertex id
  | .removeVertex v => (g.removeVertex v).map .flag id
  | .removeVertices vs => (.done, g.removeVertices vs)
  | .addEdge s t => (g.addEdge s t).map .edge id
  | .addEdgeWith s t payload => (g.addEdgeWith s t payload).map .edge id
  | .removeEdge e => (g.removeEdge e).map .flag id
  | .setVertex v payload => (g.setVertex v payload).map .flag id
  | .modifyVertex v f => (.flag (g.containsVertex v), g.modifyVertex v f)
  | .setEdge e payload => (g.setEdge e payload).map .flag id
  | .modifyEdge e f => (.flag (g.containsEdge e), g.modifyEdge e f)
  | .clear => (.done, g.clear)
  | .copy => (.done, g)

end Mutation

namespace Graph

variable [Inhabited N] [Inhabited E]

/-- The graph at the end of a run. -/
def after (g : Graph N E) (ms : List (Mutation N E)) : Graph N E :=
  ms.foldl (fun g m => (m.apply g).2) g

theorem valid_apply {g : Graph N E} (valid : g.Valid) (m : Mutation N E) :
    (m.apply g).2.Valid := by
  cases m with
  | addVertex => exact valid_addVertexWith valid default
  | addVertexWith payload => exact valid_addVertexWith valid payload
  | removeVertex v => exact valid_removeVertex valid v
  | removeVertices vs => exact valid_removeVertices valid vs
  | addEdge s t => exact valid_addEdge valid s t
  | addEdgeWith s t payload => exact valid_addEdgeWith valid s t payload
  | removeEdge e => exact valid_dropEdge valid e
  | setVertex v payload => exact valid_modifyVertex valid v fun _ => payload
  | modifyVertex v f => exact valid_modifyVertex valid v f
  | setEdge e payload => exact valid_modifyEdge valid e fun _ => payload
  | modifyEdge e f => exact valid_modifyEdge valid e f
  | clear => exact valid_empty g.direction
  | copy => exact valid

theorem valid_after {g : Graph N E} (valid : g.Valid) (ms : List (Mutation N E)) :
    (g.after ms).Valid := by
  induction ms generalizing g with
  | nil => exact valid
  | cons m ms ih => exact ih (valid_apply valid m)

/-- However a run goes, the counts, the free lists, the lists of the vertices and the table of pairs
stay in step with the slots. No pair with a dead end or a dead edge is left in the table, and no
pair has two edges. -/
theorem valid_run (direction : Direction) (ms : List (Mutation N E)) :
    let g := (empty direction : Graph N E).after ms
    g.Valid ∧
      (∀ s t e, g.edge? s t = some e →
        g.containsVertex s = true ∧ g.containsVertex t = true ∧ g.containsEdge e = true) ∧
      ∀ e e' link link', g.edges.get? e = some link → g.edges.get? e' = some link' →
        link.ends = link'.ends → e = e' := by
  have valid := valid_after (valid_empty direction) ms
  exact ⟨valid, fun s t e found => valid.live_of_edge? found,
    fun e e' link link' h h' same => valid.eq_of_ends_eq h h' same⟩

end Graph

end Provenance
