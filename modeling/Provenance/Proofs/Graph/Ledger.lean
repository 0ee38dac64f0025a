import Mathlib.Data.List.Nodup
import Provenance.Proofs.Graph.Runs

/-! # Ledgers

A graph in the plainest form: a finite map from live vertices to payloads, and the list of live
edges in the order in which they were made. Slots, free lists and tables play no part in it; which
handle a new entry gets is left open, as long as no live entry has it.
-/

namespace Provenance

structure Ledger (N E : Type) where
  direction : Direction
  vertices : Std.ExtTreeMap Vertex N
  edges : List (Edge × Link E)

namespace Ledger

variable {N E : Type}

def empty (direction : Direction) : Ledger N E := { direction, vertices := ∅, edges := [] }

/-! ## Questions -/

def link? (l : Ledger N E) (e : Edge) : Option (Link E) :=
  (l.edges.find? (·.1 = e)).map Prod.snd

def between? (l : Ledger N E) (s t : Vertex) : Option Edge :=
  (l.edges.find? (·.2.ends = (s, t))).map Prod.fst

/-- The edges out of a vertex, in order of creation. -/
def outgoing (l : Ledger N E) (v : Vertex) : List (Edge × Link E) :=
  l.edges.filter (·.2.source = v)

/-- The edges into a vertex, in order of creation. -/
def incoming (l : Ledger N E) (v : Vertex) : List (Edge × Link E) :=
  l.edges.filter (·.2.target = v)

/-- The edges by their slots, which is not the order of creation once a slot has been reused. -/
def stored (l : Ledger N E) : List (Edge × Link E) :=
  l.edges.mergeSort (·.1.index ≤ ·.1.index)

/-- Parent and child of an edge. -/
def family (l : Ledger N E) (link : Link E) : Vertex × Vertex :=
  l.direction.orient link.source link.target

def roots (l : Ledger N E) : List Vertex :=
  l.vertices.keys.filter fun v => l.edges.all fun (_, link) => (l.family link).2 ≠ v

def leaves (l : Ledger N E) : List Vertex :=
  l.vertices.keys.filter fun v => l.edges.all fun (_, link) => (l.family link).1 ≠ v

/-! ## Changes -/

/-- The null handle is the answer once every handle is taken. -/
def addVertex (new : Vertex) (payload : N) (l : Ledger N E) : Vertex × Ledger N E :=
  if l.vertices.size = Handle.nullIndex then (.null, l)
  else (new, { l with vertices := l.vertices.insert new payload })

/-- The other vertices and edges keep their handles, payloads and order. -/
def removeVertex (v : Vertex) (l : Ledger N E) : Bool × Ledger N E :=
  (l.vertices.contains v,
    { l with
      vertices := l.vertices.erase v
      edges := l.edges.filter fun (_, link) => link.source ≠ v ∧ link.target ≠ v })

def modifyVertex (v : Vertex) (f : N → N) (l : Ledger N E) : Bool × Ledger N E :=
  (l.vertices.contains v, { l with vertices := l.vertices.modify v f })

def modifyEdge (e : Edge) (f : E → E) (l : Ledger N E) : Bool × Ledger N E :=
  ((l.link? e).isSome,
    { l with
      edges := l.edges.map fun (e', link) =>
        (e', if e' = e then { link with payload := f link.payload } else link) })

def removeEdge (e : Edge) (l : Ledger N E) : Bool × Ledger N E :=
  ((l.link? e).isSome, { l with edges := l.edges.filter (·.1 ≠ e) })

/-- The edge there is keeps its place and its handle, and its payload is changed. -/
def addEdge (new : Edge) (s t : Vertex) (payload : E) (change : E → E) (l : Ledger N E) :
    Edge × Ledger N E :=
  if l.vertices.contains s ∧ l.vertices.contains t then
    match l.between? s t with
    | some e => (e, (l.modifyEdge e change).2)
    | none =>
        if l.edges.length = Handle.nullIndex then (.null, l)
        else (new, { l with edges := l.edges ++ [(new, ⟨s, t, payload⟩)] })
  else (.null, l)

/-- The next state, given the handles that a new vertex and a new edge would get. -/
def apply [Inhabited N] [Inhabited E] (v' : Vertex) (e' : Edge) (l : Ledger N E) :
    Mutation N E → Reply × Ledger N E
  | .addVertex => (l.addVertex v' default).map .vertex id
  | .addVertexWith payload => (l.addVertex v' payload).map .vertex id
  | .removeVertex v => (l.removeVertex v).map .flag id
  | .removeVertices vs => (.done, vs.foldl (fun l v => (l.removeVertex v).2) l)
  | .addEdge s t => (l.addEdge e' s t default id).map .edge id
  | .addEdgeWith s t payload => (l.addEdge e' s t payload fun _ => payload).map .edge id
  | .removeEdge e => (l.removeEdge e).map .flag id
  | .setVertex v payload => (l.modifyVertex v fun _ => payload).map .flag id
  | .modifyVertex v f => (l.modifyVertex v f).map .flag id
  | .setEdge e payload => (l.modifyEdge e fun _ => payload).map .flag id
  | .modifyEdge e f => (l.modifyEdge e f).map .flag id
  | .clear => (.done, empty l.direction)
  | .copy => (.done, l)

/-- One change and its answer, with some choice of handles that are not live. -/
def Step [Inhabited N] [Inhabited E] (l : Ledger N E) (m : Mutation N E) (reply : Reply)
    (l' : Ledger N E) : Prop :=
  ∃ v' e', v' ∉ l.vertices ∧ l.link? e' = none ∧ l.apply v' e' m = (reply, l')

/-- A run with its answers. -/
inductive Run [Inhabited N] [Inhabited E] :
    Ledger N E → List (Mutation N E) → List Reply → Ledger N E → Prop where
  | done (l : Ledger N E) : Run l [] [] l
  | step {l l' l'' : Ledger N E} {m : Mutation N E} {ms : List (Mutation N E)} {reply : Reply}
      {replies : List Reply} :
      l.Step m reply l' → Run l' ms replies l'' → Run l (m :: ms) (reply :: replies) l''

/-- Every handle stands for one edge, every pair of vertices has one at most, and its ends are
live. -/
structure Valid (l : Ledger N E) : Prop where
  handles_nodup : (l.edges.map Prod.fst).Nodup
  ends_nodup : (l.edges.map (·.2.ends)).Nodup
  ends_live : ∀ entry ∈ l.edges, entry.2.source ∈ l.vertices ∧ entry.2.target ∈ l.vertices

/-! ## Looking up -/

/-- Where keys are distinct, a search by key finds whatever has the key. -/
theorem find?_by_key {α β : Type} [DecidableEq β] {key : α → β} {l : List α}
    (distinct : (l.map key).Nodup) {b : β} {a : α} :
    l.find? (key · = b) = some a ↔ a ∈ l ∧ key a = b := by
  constructor
  · intro found
    exact ⟨List.mem_of_find?_eq_some found, by simpa using List.find?_some found⟩
  · rintro ⟨listed, hk⟩
    cases found : l.find? (key · = b) with
    | none => simpa [hk] using List.find?_eq_none.mp found a listed
    | some a' =>
        have hk' : key a' = b := by simpa using List.find?_some found
        have same := List.inj_on_of_nodup_map distinct (List.mem_of_find?_eq_some found) listed
          (hk'.trans hk.symm)
        rw [same]

theorem link?_eq_some {l : Ledger N E} (distinct : (l.edges.map Prod.fst).Nodup) {e : Edge}
    {link : Link E} : l.link? e = some link ↔ (e, link) ∈ l.edges := by
  simp only [link?, Option.map_eq_some_iff, find?_by_key distinct]
  constructor
  · rintro ⟨⟨e', link'⟩, ⟨listed, rfl⟩, rfl⟩
    exact listed
  · intro listed
    exact ⟨(e, link), ⟨listed, rfl⟩, rfl⟩

theorem between?_eq_some {l : Ledger N E} (distinct : (l.edges.map (·.2.ends)).Nodup)
    {s t : Vertex} {e : Edge} :
    l.between? s t = some e ↔ ∃ payload, (e, ⟨s, t, payload⟩) ∈ l.edges := by
  simp only [between?, Option.map_eq_some_iff, find?_by_key distinct]
  constructor
  · rintro ⟨⟨e', ⟨s', t', payload⟩⟩, ⟨listed, ends⟩, rfl⟩
    obtain ⟨rfl, rfl⟩ := Prod.mk.inj ends
    exact ⟨payload, listed⟩
  · rintro ⟨payload, listed⟩
    exact ⟨(e, ⟨s, t, payload⟩), ⟨listed, rfl⟩, rfl⟩

theorem modifyEdge_id (l : Ledger N E) (e : Edge) : (l.modifyEdge e id).2 = l := by
  have same : l.edges.map (fun (e', link) =>
      (e', if e' = e then { link with payload := id link.payload } else link)) = l.edges := by
    simp
  simp only [modifyEdge, same]

end Ledger

end Provenance
