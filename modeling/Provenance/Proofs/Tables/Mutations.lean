import Provenance.Proofs.Graph.Reached
import Provenance.Proofs.Tables.Basic

/-! # Changes on tables

A change of a graph takes slots from the free list, overwrites slots and counts up and down. Here it
fails where there is no such slot or nothing to count down from, or if a new handle would be null.
-/

namespace Provenance

variable {N E : Type}

/-! ## Slots -/

namespace Arena

variable {κ : Kind} {α : Type} {a : Arena κ α}

/-- Stores an entry in the slot freed last, which has to be there, or in a new slot. -/
def insert? (a : Arena κ α) (x : α) : Option (Handle κ × Arena κ α) :=
  match a.free with
  | i :: free => do
      let slot ← a.slots[i]?
      if i = Handle.nullIndex then none
      let slots ← Table.write? a.slots i ⟨slot.generation, some x⟩
      return (⟨i, slot.generation⟩, { slots, free, size := a.size + 1 })
  | [] => do
      if a.slots.size = Handle.nullIndex then none
      return (⟨a.slots.size, 0⟩,
        { slots := a.slots.push ⟨0, some x⟩, free := [], size := a.size + 1 })

/-- Frees the slot of a handle, whatever is in it. -/
def erase? (a : Arena κ α) (h : Handle κ) : Option (Arena κ α) := do
  let slot ← a.slots[h.index]?
  let slots ← Table.write? a.slots h.index ⟨slot.generation + 1, none⟩
  match a.size with
  | 0 => none
  | size + 1 => return { slots, free := h.index :: a.free, size }

theorem insert?_eq (valid : a.Valid) (room : a.isFull = false) (x : α) :
    a.insert? x = some (a.insert x) := by
  unfold insert? insert
  cases listed : a.free with
  | nil =>
      have below : a.slots.size < Handle.nullIndex := by simpa [isFull, listed] using room
      simp [Nat.ne_of_lt below]
  | cons i free =>
      obtain ⟨inside, slot⟩ := Array.getElem?_eq_some_iff.mp (slot_of_free valid listed)
      have below : i < Handle.nullIndex := Nat.lt_of_lt_of_le inside valid.bounded
      simp [slot, Table.write?, inside, Nat.ne_of_lt below]

theorem erase?_eq (valid : a.Valid) {h : Handle κ} {x : α} (found : a.get? h = some x) :
    a.erase? h = some (a.erase h) := by
  have counted : 0 < a.size := by
    rw [valid.counted, Array.countP_pos_iff]
    exact ⟨_, Array.mem_of_getElem? (get?_eq_some.mp found), rfl⟩
  obtain ⟨inside, slot⟩ := Array.getElem?_eq_some_iff.mp (get?_eq_some.mp found)
  obtain ⟨size, more⟩ := Nat.exists_eq_add_one_of_ne_zero (Nat.ne_of_gt counted)
  simp [erase?, erase, contains, found, slot, Table.write?, inside, more]

/-- A free list may not name a slot that is not there. -/
example : ({ free := [0] } : Arena .vertex Nat).insert? 7 = none := rfl

/-- The index of a live handle is below that of the null handle. -/
theorem Valid.index_lt_null (valid : a.Valid) {h : Handle κ} (listed : h ∈ a.handles) :
    h.index < Handle.nullIndex := by
  obtain ⟨x, found⟩ := contains_iff.mp (mem_handles.mp listed)
  exact Nat.lt_of_lt_of_le (index_lt found) valid.bounded

end Arena

/-! ## Vertices and edges -/

namespace Graph

def addVertexWith? (g : Graph N E) (payload : N) : Option (Vertex × Graph N E) := do
  if g.vertices.isFull then return (.null, g)
  let (v, vertices) ← g.vertices.insert? { payload }
  return (v, { g with vertices })

def joinWith? (g : Graph N E) (source target : Vertex) (payload : E) :
    Option (Edge × Graph N E) := do
  if g.edges.isFull then return (.null, g)
  let (e, edges) ← g.edges.insert? { source, target, payload }
  return (e, { g with
    edges
    between := g.between.insert (source, target) e
    vertices := (g.vertices.modify source (·.addOutbound e)).modify target (·.addInbound e) })

def addEdgeWith? (g : Graph N E) (source target : Vertex) (payload : E) :
    Option (Edge × Graph N E) :=
  if g.containsVertex source && g.containsVertex target then
    match g.edge? source target with
    | some e => some (e, g.modifyEdge e fun _ => payload)
    | none => g.joinWith? source target payload
  else some (.null, g)

def addEdge? [Inhabited E] (g : Graph N E) (source target : Vertex) : Option (Edge × Graph N E) :=
  if g.containsVertex source && g.containsVertex target then
    match g.edge? source target with
    | some e => some (e, g)
    | none => g.joinWith? source target default
  else some (.null, g)

def dropEdge? (g : Graph N E) (e : Edge) : Option (Graph N E) :=
  match g.edges.get? e with
  | some link => do
      return { g with
        edges := ← g.edges.erase? e
        between := g.between.erase link.ends
        vertices :=
          (g.vertices.modify link.source (·.dropOutbound e)).modify link.target (·.dropInbound e) }
  | none => some g

def removeVertex? (g : Graph N E) (v : Vertex) : Option (Bool × Graph N E) :=
  match g.vertices.get? v with
  | some node => do
      let rest ← (node.outbound ++ node.inbound).foldlM dropEdge? g
      return (true, { rest with vertices := ← rest.vertices.erase? v })
  | none => some (false, g)

def removeVertices? (g : Graph N E) (vs : List Vertex) : Option (Graph N E) :=
  vs.foldlM (fun g v => return (← g.removeVertex? v).2) g

variable {g : Graph N E}

theorem addVertexWith?_eq (valid : g.Valid) (payload : N) :
    g.addVertexWith? payload = some (g.addVertexWith payload) := by
  unfold addVertexWith? addVertexWith
  split
  next => rfl
  next room =>
    rw [Arena.insert?_eq valid.vertices (Bool.eq_false_iff.mpr room)]
    rfl

theorem joinWith?_eq (valid : g.Valid) (source target : Vertex) (payload : E) :
    g.joinWith? source target payload = some (g.joinWith source target payload) := by
  unfold joinWith? joinWith
  split
  next => rfl
  next room =>
    rw [Arena.insert?_eq valid.edges (Bool.eq_false_iff.mpr room)]
    rfl

theorem addEdgeWith?_eq (valid : g.Valid) (source target : Vertex) (payload : E) :
    g.addEdgeWith? source target payload = some (g.addEdgeWith source target payload) := by
  unfold addEdgeWith? addEdgeWith
  split
  · cases g.edge? source target with
    | some e => rfl
    | none => exact joinWith?_eq valid source target payload
  · rfl

theorem addEdge?_eq [Inhabited E] (valid : g.Valid) (source target : Vertex) :
    g.addEdge? source target = some (g.addEdge source target) := by
  unfold addEdge? addEdge
  split
  · cases g.edge? source target with
    | some e => rfl
    | none => exact joinWith?_eq valid source target default
  · rfl

theorem dropEdge?_eq (valid : g.Valid) (e : Edge) : g.dropEdge? e = some (g.dropEdge e) := by
  unfold dropEdge? dropEdge
  cases found : g.edges.get? e with
  | none => rfl
  | some link =>
      dsimp only
      rw [Arena.erase?_eq valid.edges found]
      rfl

theorem foldlM_dropEdge?_eq (valid : g.Valid) (es : List Edge) :
    es.foldlM dropEdge? g = some (es.foldl dropEdge g) := by
  induction es generalizing g with
  | nil => rfl
  | cons e es ih =>
      rw [List.foldlM_cons, dropEdge?_eq valid, List.foldl_cons]
      exact ih (valid_dropEdge valid e)

theorem removeVertex?_eq (valid : g.Valid) (v : Vertex) :
    g.removeVertex? v = some (g.removeVertex v) := by
  unfold removeVertex? removeVertex
  cases found : g.vertices.get? v with
  | none => rfl
  | some node =>
      -- The vertex is still there once its edges are gone.
      have payload := vertexPayload?_dropEdges valid (node.outbound ++ node.inbound) v
      rw [vertexPayload?, vertexPayload?, found] at payload
      obtain ⟨node', found', -⟩ := Option.map_eq_some_iff.mp payload
      have rest := valid_dropEdges valid (node.outbound ++ node.inbound)
      dsimp only
      rw [foldlM_dropEdge?_eq valid, Option.bind_eq_bind, Option.bind_some,
        Arena.erase?_eq rest.vertices found']
      rfl

theorem removeVertices?_eq (valid : g.Valid) (vs : List Vertex) :
    g.removeVertices? vs = some (g.removeVertices vs) := by
  unfold removeVertices? removeVertices
  induction vs generalizing g with
  | nil => rfl
  | cons v vs ih =>
      rw [List.foldlM_cons, removeVertex?_eq valid, List.foldl_cons]
      exact ih (valid_removeVertex valid v)

end Graph

/-! ## Runs -/

namespace Mutation

/-- The changes of payloads look an entry up first, and never fail. -/
def perform? [Inhabited N] [Inhabited E] (g : Graph N E) : Mutation N E → Option (Reply × Graph N E)
  | .addVertex => (g.addVertexWith? default).map (·.map .vertex id)
  | .addVertexWith payload => (g.addVertexWith? payload).map (·.map .vertex id)
  | .removeVertex v => (g.removeVertex? v).map (·.map .flag id)
  | .removeVertices vs => (g.removeVertices? vs).map (.done, ·)
  | .addEdge s t => (g.addEdge? s t).map (·.map .edge id)
  | .addEdgeWith s t payload => (g.addEdgeWith? s t payload).map (·.map .edge id)
  | .removeEdge e => (g.dropEdge? e).map (.flag (g.containsEdge e), ·)
  | m => some (m.apply g)

end Mutation

namespace Graph

variable [Inhabited N] [Inhabited E] {g : Graph N E}

theorem perform?_eq (valid : g.Valid) (m : Mutation N E) : m.perform? g = some (m.apply g) := by
  cases m with
  | addVertex => simp [Mutation.perform?, addVertexWith?_eq valid, Mutation.apply, addVertex]
  | addVertexWith payload => simp [Mutation.perform?, addVertexWith?_eq valid, Mutation.apply]
  | removeVertex v => simp [Mutation.perform?, removeVertex?_eq valid, Mutation.apply]
  | removeVertices vs => simp [Mutation.perform?, removeVertices?_eq valid, Mutation.apply]
  | addEdge s t => simp [Mutation.perform?, addEdge?_eq valid, Mutation.apply]
  | addEdgeWith s t payload => simp [Mutation.perform?, addEdgeWith?_eq valid, Mutation.apply]
  | removeEdge e => simp [Mutation.perform?, dropEdge?_eq valid, Mutation.apply, removeEdge]
  | setVertex | modifyVertex | setEdge | modifyEdge | clear | copy => rfl

def after? (g : Graph N E) (ms : List (Mutation N E)) : Option (Graph N E) :=
  ms.foldlM (fun g m => return (← m.perform? g).2) g

/-- No change in a run fails. -/
theorem after?_eq (valid : g.Valid) (ms : List (Mutation N E)) :
    g.after? ms = some (g.after ms) := by
  unfold after? after
  induction ms generalizing g with
  | nil => rfl
  | cons m ms ih =>
      rw [List.foldlM_cons, perform?_eq valid, List.foldl_cons]
      exact ih (valid_apply valid m)

end Graph

end Provenance
