import Provenance.Proofs.Graph.Valid

/-! # What the operations do

For each operation: what is found after it, in terms of what was found before, and that it keeps a
graph valid.
-/

namespace Provenance.Graph

variable {N E : Type}

/-! ## Payloads -/

theorem get?_modifyVertex (g : Graph N E) (v : Vertex) (f : N → N) (w : Vertex) :
    (g.modifyVertex v f).vertices.get? w =
      if w = v then (g.vertices.get? v).map fun node => { node with payload := f node.payload }
      else g.vertices.get? w :=
  Arena.get?_modify _ _ _ _

theorem get?_modifyEdge (g : Graph N E) (e : Edge) (f : E → E) (e' : Edge) :
    (g.modifyEdge e f).edges.get? e' =
      if e' = e then (g.edges.get? e).map fun link => { link with payload := f link.payload }
      else g.edges.get? e' :=
  Arena.get?_modify _ _ _ _

@[simp]
theorem outbound_modifyVertex (g : Graph N E) (v : Vertex) (f : N → N) (w : Vertex) :
    (g.modifyVertex v f).outbound w = g.outbound w := by
  simp only [outbound_eq, get?_modifyVertex]
  by_cases same : w = v
  · subst same
    simp [Function.comp_def]
  · simp [same]

@[simp]
theorem inbound_modifyVertex (g : Graph N E) (v : Vertex) (f : N → N) (w : Vertex) :
    (g.modifyVertex v f).inbound w = g.inbound w := by
  simp only [inbound_eq, get?_modifyVertex]
  by_cases same : w = v
  · subst same
    simp [Function.comp_def]
  · simp [same]

theorem vertexPayload?_modifyVertex (g : Graph N E) (v : Vertex) (f : N → N) (w : Vertex) :
    (g.modifyVertex v f).vertexPayload? w =
      if w = v then (g.vertexPayload? v).map f else g.vertexPayload? w := by
  simp only [vertexPayload?, get?_modifyVertex]
  split <;> simp [Function.comp_def]

@[simp]
theorem vertexCount_modifyVertex (g : Graph N E) (v : Vertex) (f : N → N) :
    (g.modifyVertex v f).vertexCount = g.vertexCount := Arena.size_modify _ _ _

theorem valid_modifyVertex {g : Graph N E} (valid : g.Valid) (v : Vertex) (f : N → N) :
    (g.modifyVertex v f).Valid :=
  valid.of_same_edges (Arena.valid_modify valid.vertices v _) valid.edges
    (outbound_modifyVertex g v f) (inbound_modifyVertex g v f) (fun _ => rfl) rfl

theorem valid_modifyEdge {g : Graph N E} (valid : g.Valid) (e : Edge) (f : E → E) :
    (g.modifyEdge e f).Valid := by
  refine valid.of_same_edges valid.vertices (Arena.valid_modify valid.edges e _) (fun _ => rfl)
    (fun _ => rfl) (fun e' => ?_) rfl
  rw [get?_modifyEdge]
  by_cases same : e' = e
  · subst same
    simp [Function.comp_def, Link.ends]
    rfl
  · simp [same]

/-! ## New vertices -/

theorem addVertexWith_of_full {g : Graph N E} (full : g.vertices.isFull = true) (payload : N) :
    g.addVertexWith payload = (.null, g) := by simp [addVertexWith, full]

/-- The handle of a new vertex was not live before. -/
theorem addVertexWith_fresh {g : Graph N E} (valid : g.Valid) (room : g.vertices.isFull = false)
    (payload : N) : g.vertices.get? (g.addVertexWith payload).1 = none := by
  simpa [addVertexWith, room] using Arena.insert_fresh valid.vertices _

theorem Valid.null_dead {g : Graph N E} (valid : g.Valid) : g.containsVertex .null = false :=
  Arena.contains_eq_false.mpr valid.vertices.get?_null

/-- Neither was the null handle, which is given where there is no other. -/
theorem addVertexWith_dead {g : Graph N E} (valid : g.Valid) (payload : N) :
    g.containsVertex (g.addVertexWith payload).1 = false := by
  cases room : g.vertices.isFull with
  | true =>
      rw [addVertexWith_of_full room]
      exact valid.null_dead
  | false => exact Arena.contains_eq_false.mpr (addVertexWith_fresh valid room payload)

theorem get?_addVertexWith {g : Graph N E} (valid : g.Valid) (room : g.vertices.isFull = false)
    (payload : N) (v : Vertex) :
    (g.addVertexWith payload).2.vertices.get? v =
      if v = (g.addVertexWith payload).1 then some { payload } else g.vertices.get? v := by
  simpa [addVertexWith, room] using Arena.get?_insert valid.vertices _ v

theorem vertexPayload?_addVertexWith {g : Graph N E} (valid : g.Valid)
    (room : g.vertices.isFull = false) (payload : N) (v : Vertex) :
    (g.addVertexWith payload).2.vertexPayload? v =
      if v = (g.addVertexWith payload).1 then some payload else g.vertexPayload? v := by
  simp only [vertexPayload?, get?_addVertexWith valid room]
  split <;> rfl

theorem vertexCount_addVertexWith {g : Graph N E} (room : g.vertices.isFull = false)
    (payload : N) : (g.addVertexWith payload).2.vertexCount = g.vertexCount + 1 := by
  simpa [addVertexWith, room, vertexCount] using Arena.size_insert _ _

@[simp]
theorem direction_addVertexWith (g : Graph N E) (payload : N) :
    (g.addVertexWith payload).2.direction = g.direction := by
  unfold addVertexWith
  split <;> rfl

@[simp]
theorem edges_addVertexWith (g : Graph N E) (payload : N) :
    (g.addVertexWith payload).2.edges = g.edges := by
  unfold addVertexWith
  split <;> rfl

@[simp]
theorem between_addVertexWith (g : Graph N E) (payload : N) :
    (g.addVertexWith payload).2.between = g.between := by
  unfold addVertexWith
  split <;> rfl

theorem outbound_addVertexWith {g : Graph N E} (valid : g.Valid) (payload : N) (v : Vertex) :
    (g.addVertexWith payload).2.outbound v = g.outbound v := by
  cases room : g.vertices.isFull with
  | true => rw [addVertexWith_of_full room]
  | false =>
      simp only [outbound_eq, get?_addVertexWith valid room]
      split
      next same => simp [same, addVertexWith_fresh valid room]
      next => rfl

theorem inbound_addVertexWith {g : Graph N E} (valid : g.Valid) (payload : N) (v : Vertex) :
    (g.addVertexWith payload).2.inbound v = g.inbound v := by
  cases room : g.vertices.isFull with
  | true => rw [addVertexWith_of_full room]
  | false =>
      simp only [inbound_eq, get?_addVertexWith valid room]
      split
      next same => simp [same, addVertexWith_fresh valid room]
      next => rfl

theorem valid_addVertexWith {g : Graph N E} (valid : g.Valid) (payload : N) :
    (g.addVertexWith payload).2.Valid := by
  cases room : g.vertices.isFull with
  | true => simpa [addVertexWith_of_full room] using valid
  | false =>
      have vertices : (g.addVertexWith payload).2.vertices.Valid := by
        simpa [addVertexWith, room] using Arena.valid_insert valid.vertices room _
      exact valid.of_same_edges vertices (by simpa using valid.edges)
        (outbound_addVertexWith valid payload) (inbound_addVertexWith valid payload)
        (fun e => by simp) (by simp)

/-! ## Removed edges -/

theorem dropEdge_of_dead {g : Graph N E} {e : Edge} (dead : g.edges.get? e = none) :
    g.dropEdge e = g := by simp [dropEdge, dead]

theorem get?_edges_dropEdge (g : Graph N E) (e e' : Edge) :
    (g.dropEdge e).edges.get? e' = if e' = e then none else g.edges.get? e' := by
  unfold dropEdge
  split
  · exact Arena.get?_erase _ _ _
  next dead =>
    split
    next same => rw [same, dead]
    next => rfl

/-- In the lists that it does not stand in, dropping an edge changes nothing. -/
theorem get?_vertices_dropEdge {g : Graph N E} (valid : g.Valid) (e : Edge) (v : Vertex) :
    (g.dropEdge e).vertices.get? v =
      (g.vertices.get? v).map fun node => (node.dropOutbound e).dropInbound e := by
  have out : ∀ node, g.vertices.get? v = some node → g.source? e ≠ some v →
      node.dropOutbound e = node := fun node hv other => Node.dropOutbound_eq fun he =>
    other ((valid.mem_outbound e v).mp (by simpa [outbound_eq, hv] using he))
  have inn : ∀ node, g.vertices.get? v = some node → g.target? e ≠ some v →
      node.dropInbound e = node := fun node hv other => Node.dropInbound_eq fun he =>
    other ((valid.mem_inbound e v).mp (by simpa [inbound_eq, hv] using he))
  unfold dropEdge
  cases he : g.edges.get? e with
  | none =>
      cases hv : g.vertices.get? v with
      | none => rfl
      | some node => simp [out node hv (by simp [source?, he]), inn node hv (by simp [target?, he])]
  | some link =>
      have atSource : (g.vertices.modify link.source (·.dropOutbound e)).get? v =
          (g.vertices.get? v).map (·.dropOutbound e) :=
        Arena.get?_modify_map fun other node hv =>
          out node hv (by simpa [source?, he] using Ne.symm other)
      have atTarget : ((g.vertices.modify link.source (·.dropOutbound e)).modify link.target
          (·.dropInbound e)).get? v =
            ((g.vertices.modify link.source (·.dropOutbound e)).get? v).map (·.dropInbound e) := by
        refine Arena.get?_modify_map fun other changed hc => ?_
        rw [atSource] at hc
        obtain ⟨node, hv, rfl⟩ := Option.map_eq_some_iff.mp hc
        exact congrArg (Node.dropOutbound e)
          (inn node hv (by simpa [target?, he] using Ne.symm other))
      rw [atTarget, atSource, Option.map_map]
      rfl

theorem outbound_dropEdge {g : Graph N E} (valid : g.Valid) (e : Edge) (v : Vertex) :
    (g.dropEdge e).outbound v = (g.outbound v).filter (· != e) := by
  simp only [outbound_eq, get?_vertices_dropEdge valid]
  cases g.vertices.get? v <;> rfl

theorem inbound_dropEdge {g : Graph N E} (valid : g.Valid) (e : Edge) (v : Vertex) :
    (g.dropEdge e).inbound v = (g.inbound v).filter (· != e) := by
  simp only [inbound_eq, get?_vertices_dropEdge valid]
  cases g.vertices.get? v <;> rfl

theorem vertexPayload?_dropEdge {g : Graph N E} (valid : g.Valid) (e : Edge) (v : Vertex) :
    (g.dropEdge e).vertexPayload? v = g.vertexPayload? v := by
  simp only [vertexPayload?, get?_vertices_dropEdge valid]
  cases g.vertices.get? v <;> rfl

theorem vertexCount_dropEdge (g : Graph N E) (e : Edge) :
    (g.dropEdge e).vertexCount = g.vertexCount := by
  unfold dropEdge
  split
  · simp [vertexCount]
  · rfl

theorem edge?_dropEdge {g : Graph N E} (valid : g.Valid) (e : Edge) (s t : Vertex) :
    (g.dropEdge e).edge? s t = (g.edge? s t).filter (· != e) := by
  cases he : g.edges.get? e with
  | none =>
      rw [dropEdge_of_dead he]
      cases found : g.edge? s t with
      | none => rfl
      | some e' =>
          obtain ⟨payload, live⟩ := (valid.edge?_eq_some s t e').mp found
          have other : e' ≠ e := fun same => by simp [same, he] at live
          simp [Option.filter_some, other]
  | some link =>
      have found := valid.edge?_ends he
      simp only [edge?, dropEdge, he, Std.ExtTreeMap.getElem?_erase, Std.LawfulEqCmp.compare_eq_iff_eq]
      by_cases here : link.ends = (s, t)
      · obtain ⟨rfl, rfl⟩ := Prod.mk.inj here
        rw [edge?] at found
        simp [Link.ends, found, Option.filter_some]
      · rw [if_neg here]
        cases elsewhere : g.between[(s, t)]? with
        | none => rfl
        | some e' =>
            obtain ⟨payload, live⟩ := (valid.edge?_eq_some s t e').mp elsewhere
            have other : e' ≠ e := fun same => here (by
              rw [same, he] at live
              cases live
              rfl)
            simp [Option.filter_some, other]

theorem source?_dropEdge (g : Graph N E) (e e' : Edge) :
    (g.dropEdge e).source? e' = if e' = e then none else g.source? e' := by
  simp only [source?, get?_edges_dropEdge]
  split <;> rfl

theorem target?_dropEdge (g : Graph N E) (e e' : Edge) :
    (g.dropEdge e).target? e' = if e' = e then none else g.target? e' := by
  simp only [target?, get?_edges_dropEdge]
  split <;> rfl

theorem valid_dropEdge {g : Graph N E} (valid : g.Valid) (e : Edge) : (g.dropEdge e).Valid := by
  have vertices : (g.dropEdge e).vertices.Valid := by
    unfold dropEdge
    split
    · exact Arena.valid_modify (Arena.valid_modify valid.vertices _ _) _ _
    · exact valid.vertices
  have edges : (g.dropEdge e).edges.Valid := by
    unfold dropEdge
    split
    · exact Arena.valid_erase valid.edges e
    · exact valid.edges
  refine valid_of_lists vertices edges ?_ ?_ ?_ ?_ ?_
  · intro v
    rw [outbound_dropEdge valid]
    exact (valid.outbound_nodup v).filter _
  · intro e' v
    rw [outbound_dropEdge valid, source?_dropEdge, List.mem_filter, valid.mem_outbound]
    by_cases same : e' = e <;> simp [same]
  · intro v
    rw [inbound_dropEdge valid]
    exact (valid.inbound_nodup v).filter _
  · intro e' v
    rw [inbound_dropEdge valid, target?_dropEdge, List.mem_filter, valid.mem_inbound]
    by_cases same : e' = e <;> simp [same]
  · intro s t e'
    rw [edge?_dropEdge valid, Option.filter_eq_some_iff, valid.edge?_eq_some, get?_edges_dropEdge]
    by_cases same : e' = e <;> simp [same]

/-! ## Several removed edges -/

theorem valid_dropEdges {g : Graph N E} (valid : g.Valid) (es : List Edge) :
    (es.foldl dropEdge g).Valid := by
  induction es generalizing g with
  | nil => exact valid
  | cons e es ih => exact ih (valid_dropEdge valid e)

theorem get?_edges_dropEdges (g : Graph N E) (es : List Edge) (e : Edge) :
    (es.foldl dropEdge g).edges.get? e = if e ∈ es then none else g.edges.get? e := by
  induction es generalizing g with
  | nil => simp
  | cons e' es ih =>
      rw [List.foldl_cons, ih, get?_edges_dropEdge]
      by_cases same : e = e' <;> by_cases listed : e ∈ es <;> simp [same, listed]

theorem outbound_dropEdges {g : Graph N E} (valid : g.Valid) (es : List Edge) (v : Vertex) :
    (es.foldl dropEdge g).outbound v = (g.outbound v).filter (· ∉ es) := by
  induction es generalizing g with
  | nil => simp
  | cons e es ih =>
      rw [List.foldl_cons, ih (valid_dropEdge valid e), outbound_dropEdge valid, List.filter_filter]
      refine List.filter_congr fun e' _ => ?_
      by_cases same : e' = e <;> simp [same]

theorem inbound_dropEdges {g : Graph N E} (valid : g.Valid) (es : List Edge) (v : Vertex) :
    (es.foldl dropEdge g).inbound v = (g.inbound v).filter (· ∉ es) := by
  induction es generalizing g with
  | nil => simp
  | cons e es ih =>
      rw [List.foldl_cons, ih (valid_dropEdge valid e), inbound_dropEdge valid, List.filter_filter]
      refine List.filter_congr fun e' _ => ?_
      by_cases same : e' = e <;> simp [same]

theorem vertexPayload?_dropEdges {g : Graph N E} (valid : g.Valid) (es : List Edge) (v : Vertex) :
    (es.foldl dropEdge g).vertexPayload? v = g.vertexPayload? v := by
  induction es generalizing g with
  | nil => rfl
  | cons e es ih =>
      rw [List.foldl_cons, ih (valid_dropEdge valid e), vertexPayload?_dropEdge valid]

theorem vertexCount_dropEdges (g : Graph N E) (es : List Edge) :
    (es.foldl dropEdge g).vertexCount = g.vertexCount := by
  induction es generalizing g with
  | nil => rfl
  | cons e es ih => rw [List.foldl_cons, ih, vertexCount_dropEdge]

theorem edge?_dropEdges {g : Graph N E} (valid : g.Valid) (es : List Edge) (s t : Vertex) :
    (es.foldl dropEdge g).edge? s t = (g.edge? s t).filter (· ∉ es) := by
  induction es generalizing g with
  | nil => cases found : g.edge? s t <;> simp [Option.filter_some, found]
  | cons e es ih =>
      rw [List.foldl_cons, ih (valid_dropEdge valid e), edge?_dropEdge valid]
      cases g.edge? s t with
      | none => rfl
      | some e' => by_cases same : e' = e <;> simp [Option.filter_some, same]

theorem direction_dropEdges (g : Graph N E) (es : List Edge) :
    (es.foldl dropEdge g).direction = g.direction := by
  induction es generalizing g with
  | nil => rfl
  | cons e es ih =>
      rw [List.foldl_cons, ih]
      unfold dropEdge
      split <;> rfl

/-! ## Removed vertices -/

theorem removeVertex_of_dead {g : Graph N E} {v : Vertex} (dead : g.containsVertex v = false) :
    g.removeVertex v = (false, g) := by
  simp [removeVertex, Arena.contains_eq_false.mp dead]

theorem removeVertex_of_live {g : Graph N E} {v : Vertex} (live : g.containsVertex v = true) :
    g.removeVertex v =
      (true, let rest := (g.outbound v ++ g.inbound v).foldl dropEdge g
        { rest with vertices := rest.vertices.erase v }) := by
  obtain ⟨node, hv⟩ := containsVertex_iff.mp live
  simp [removeVertex, outbound_eq, inbound_eq, hv]

theorem outbound_erase (g : Graph N E) (v w : Vertex) :
    ({ g with vertices := g.vertices.erase v } : Graph N E).outbound w =
      if w = v then [] else g.outbound w := by
  simp only [outbound_eq, Arena.get?_erase]
  split <;> rfl

theorem inbound_erase (g : Graph N E) (v w : Vertex) :
    ({ g with vertices := g.vertices.erase v } : Graph N E).inbound w =
      if w = v then [] else g.inbound w := by
  simp only [inbound_eq, Arena.get?_erase]
  split <;> rfl

theorem removeVertex_fst (g : Graph N E) (v : Vertex) :
    (g.removeVertex v).1 = g.containsVertex v := by
  cases live : g.containsVertex v with
  | false => rw [removeVertex_of_dead live]
  | true => rw [removeVertex_of_live live]

theorem direction_removeVertex (g : Graph N E) (v : Vertex) :
    (g.removeVertex v).2.direction = g.direction := by
  cases live : g.containsVertex v with
  | false => rw [removeVertex_of_dead live]
  | true =>
      rw [removeVertex_of_live live]
      exact direction_dropEdges g _

theorem mem_incident {g : Graph N E} (valid : g.Valid) {e : Edge} {link : Link E} {v : Vertex}
    (h : g.edges.get? e = some link) :
    e ∈ g.outbound v ++ g.inbound v ↔ link.source = v ∨ link.target = v := by
  simp [valid.mem_outbound, valid.mem_inbound, source?, target?, h]

/-- No edge touches a dead vertex. -/
theorem Valid.not_touching_dead {g : Graph N E} (valid : g.Valid) {v : Vertex}
    (dead : g.containsVertex v = false) {e : Edge} {link : Link E}
    (h : g.edges.get? e = some link) : link.source ≠ v ∧ link.target ≠ v := by
  obtain ⟨source, target⟩ := valid.ends_live e link h
  constructor
  · rintro rfl
    simp [source] at dead
  · rintro rfl
    simp [target] at dead

theorem get?_edges_removeVertex {g : Graph N E} (valid : g.Valid) (v : Vertex) (e : Edge) :
    (g.removeVertex v).2.edges.get? e =
      (g.edges.get? e).filter fun link => link.source != v && link.target != v := by
  cases live : g.containsVertex v with
  | false =>
      rw [removeVertex_of_dead live]
      cases he : g.edges.get? e with
      | none => rfl
      | some link => simp [Option.filter_some, valid.not_touching_dead live he]
  | true =>
      rw [removeVertex_of_live live]
      simp only [get?_edges_dropEdges]
      cases he : g.edges.get? e with
      | none => simp
      | some link =>
          simp only [mem_incident valid he, Option.filter_some]
          by_cases source : link.source = v <;> by_cases target : link.target = v <;>
            simp [source, target]

theorem edge?_removeVertex {g : Graph N E} (valid : g.Valid) (v s t : Vertex) :
    (g.removeVertex v).2.edge? s t = if s = v ∨ t = v then none else g.edge? s t := by
  have after : (g.removeVertex v).2.edge? s t =
      (g.edge? s t).filter (· ∉ g.outbound v ++ g.inbound v) := by
    cases live : g.containsVertex v with
    | false =>
        rw [removeVertex_of_dead live]
        cases found : g.edge? s t with
        | none => rfl
        | some e =>
            obtain ⟨payload, he⟩ := (valid.edge?_eq_some s t e).mp found
            obtain ⟨source, target⟩ := valid.not_touching_dead live he
            have apart : e ∉ g.outbound v ++ g.inbound v := by
              rw [mem_incident valid he]
              exact not_or.mpr ⟨source, target⟩
            simp [Option.filter_some, -List.mem_append, apart]
    | true =>
        rw [removeVertex_of_live live]
        exact edge?_dropEdges valid _ s t
  rw [after]
  cases found : g.edge? s t with
  | none => simp
  | some e =>
      obtain ⟨payload, he⟩ := (valid.edge?_eq_some s t e).mp found
      simp only [Option.filter_some, mem_incident valid he]
      by_cases touching : s = v ∨ t = v <;> simp [touching]

theorem vertexPayload?_removeVertex {g : Graph N E} (valid : g.Valid) (v w : Vertex) :
    (g.removeVertex v).2.vertexPayload? w = if w = v then none else g.vertexPayload? w := by
  cases live : g.containsVertex v with
  | false =>
      rw [removeVertex_of_dead live]
      split
      next same => simp [same, vertexPayload?, Arena.contains_eq_false.mp live]
      next => rfl
  | true =>
      rw [removeVertex_of_live live]
      simp only [vertexPayload?, Arena.get?_erase]
      split
      · rfl
      · exact vertexPayload?_dropEdges valid _ w

theorem outbound_removeVertex {g : Graph N E} (valid : g.Valid) (v w : Vertex) :
    (g.removeVertex v).2.outbound w =
      if w = v then [] else (g.outbound w).filter fun e => g.target? e != some v := by
  cases live : g.containsVertex v with
  | false =>
      rw [removeVertex_of_dead live]
      split
      next same => simp [same, outbound_eq, Arena.contains_eq_false.mp live]
      next =>
        refine (List.filter_eq_self.mpr fun e he => ?_).symm
        obtain ⟨link, hl, -⟩ := source?_eq_some.mp ((valid.mem_outbound e w).mp he)
        simp [target?, hl, (valid.not_touching_dead live hl).2]
  | true =>
      rw [removeVertex_of_live live]
      rw [outbound_erase]
      split
      · rfl
      next other =>
        rw [outbound_dropEdges valid]
        refine List.filter_congr fun e he => ?_
        obtain ⟨link, hl, rfl⟩ := source?_eq_some.mp ((valid.mem_outbound e w).mp he)
        by_cases touching : link.target = v <;>
          simp [-List.mem_append, mem_incident valid hl, target?, hl, other, touching]

theorem inbound_removeVertex {g : Graph N E} (valid : g.Valid) (v w : Vertex) :
    (g.removeVertex v).2.inbound w =
      if w = v then [] else (g.inbound w).filter fun e => g.source? e != some v := by
  cases live : g.containsVertex v with
  | false =>
      rw [removeVertex_of_dead live]
      split
      next same => simp [same, inbound_eq, Arena.contains_eq_false.mp live]
      next =>
        refine (List.filter_eq_self.mpr fun e he => ?_).symm
        obtain ⟨link, hl, -⟩ := target?_eq_some.mp ((valid.mem_inbound e w).mp he)
        simp [source?, hl, (valid.not_touching_dead live hl).1]
  | true =>
      rw [removeVertex_of_live live]
      rw [inbound_erase]
      split
      · rfl
      next other =>
        rw [inbound_dropEdges valid]
        refine List.filter_congr fun e he => ?_
        obtain ⟨link, hl, rfl⟩ := target?_eq_some.mp ((valid.mem_inbound e w).mp he)
        by_cases touching : link.source = v <;>
          simp [-List.mem_append, mem_incident valid hl, source?, hl, other, touching]

theorem valid_removeVertex {g : Graph N E} (valid : g.Valid) (v : Vertex) :
    (g.removeVertex v).2.Valid := by
  have arenas : (g.removeVertex v).2.vertices.Valid ∧ (g.removeVertex v).2.edges.Valid := by
    cases live : g.containsVertex v with
    | false => simpa [removeVertex_of_dead live] using ⟨valid.vertices, valid.edges⟩
    | true =>
        rw [removeVertex_of_live live]
        have rest := valid_dropEdges valid (g.outbound v ++ g.inbound v)
        exact ⟨Arena.valid_erase rest.vertices v, rest.edges⟩
  refine valid_of_lists arenas.1 arenas.2 ?_ ?_ ?_ ?_ ?_
  · intro w
    rw [outbound_removeVertex valid]
    split
    · exact List.nodup_nil
    · exact (valid.outbound_nodup w).filter _
  · intro e w
    simp only [outbound_removeVertex valid, source?_eq_some, get?_edges_removeVertex valid,
      Option.filter_eq_some_iff, Bool.and_eq_true, bne_iff_ne]
    split
    next same =>
      simp only [List.not_mem_nil, false_iff, not_exists, not_and, same]
      rintro link ⟨-, apart⟩ rfl
      simp at apart
    next other =>
      simp only [List.mem_filter, valid.mem_outbound, source?_eq_some, bne_iff_ne]
      constructor
      · rintro ⟨⟨link, hl, rfl⟩, apart⟩
        exact ⟨link, ⟨hl, by simpa [target?, hl, other] using apart⟩, rfl⟩
      · rintro ⟨link, ⟨hl, apart⟩, rfl⟩
        exact ⟨⟨link, hl, rfl⟩, by simp [target?, hl, apart]⟩
  · intro w
    rw [inbound_removeVertex valid]
    split
    · exact List.nodup_nil
    · exact (valid.inbound_nodup w).filter _
  · intro e w
    simp only [inbound_removeVertex valid, target?_eq_some, get?_edges_removeVertex valid,
      Option.filter_eq_some_iff, Bool.and_eq_true, bne_iff_ne]
    split
    next same =>
      simp only [List.not_mem_nil, false_iff, not_exists, not_and, same]
      rintro link ⟨-, apart⟩ rfl
      simp at apart
    next other =>
      simp only [List.mem_filter, valid.mem_inbound, target?_eq_some, bne_iff_ne]
      constructor
      · rintro ⟨⟨link, hl, rfl⟩, apart⟩
        exact ⟨link, ⟨hl, by simpa [source?, hl, other] using apart⟩, rfl⟩
      · rintro ⟨link, ⟨hl, apart⟩, rfl⟩
        exact ⟨⟨link, hl, rfl⟩, by simp [source?, hl, apart]⟩
  · intro s t e
    simp only [edge?_removeVertex valid, get?_edges_removeVertex valid, Option.filter_eq_some_iff]
    by_cases touching : s = v ∨ t = v
    · simp only [if_pos touching, reduceCtorEq, false_iff, not_exists, not_and]
      intro payload _ kept
      simp only [Bool.and_eq_true, bne_iff_ne] at kept
      exact touching.elim kept.1 kept.2
    · obtain ⟨source, target⟩ := not_or.mp touching
      simp [valid.edge?_eq_some, source, target]

/-! ## New edges -/

theorem joinWith_of_full {g : Graph N E} (full : g.edges.isFull = true) (s t : Vertex)
    (payload : E) : g.joinWith s t payload = (.null, g) := by simp [joinWith, full]

/-- The handle of a new edge was not live before. -/
theorem joinWith_fresh {g : Graph N E} (valid : g.Valid) (room : g.edges.isFull = false)
    (s t : Vertex) (payload : E) : g.edges.get? (g.joinWith s t payload).1 = none := by
  simpa [joinWith, room] using Arena.insert_fresh valid.edges _

theorem get?_edges_joinWith {g : Graph N E} (valid : g.Valid) (room : g.edges.isFull = false)
    (s t : Vertex) (payload : E) (e : Edge) :
    (g.joinWith s t payload).2.edges.get? e =
      if e = (g.joinWith s t payload).1 then some ⟨s, t, payload⟩ else g.edges.get? e := by
  simpa [joinWith, room] using Arena.get?_insert valid.edges _ e

theorem edge?_joinWith {g : Graph N E} (room : g.edges.isFull = false) (s t : Vertex)
    (payload : E) (v w : Vertex) :
    (g.joinWith s t payload).2.edge? v w =
      if (v, w) = (s, t) then some (g.joinWith s t payload).1 else g.edge? v w := by
  simp only [joinWith, room, edge?, Std.ExtTreeMap.getElem?_insert,
    Std.LawfulEqCmp.compare_eq_iff_eq, Bool.false_eq_true, if_false, eq_comm (a := (v, w))]

/-- The nodes at both ends list the new edge last. -/
theorem get?_vertices_joinWith {g : Graph N E} (room : g.edges.isFull = false) (s t : Vertex)
    (payload : E) (v : Vertex) :
    (g.joinWith s t payload).2.vertices.get? v = (g.vertices.get? v).map fun node =>
      { node with
        outbound := node.outbound ++ if v = s then [(g.joinWith s t payload).1] else []
        inbound := node.inbound ++ if v = t then [(g.joinWith s t payload).1] else [] } := by
  simp only [joinWith, room, Bool.false_eq_true, if_false]
  rw [Arena.get?_modify]
  by_cases target : v = t
  · subst target
    rw [if_pos rfl, Arena.get?_modify]
    by_cases source : v = s
    · subst source
      simp [Node.addOutbound, Node.addInbound, Function.comp_def]
    · simp [Node.addInbound, source]
  · rw [if_neg target, Arena.get?_modify]
    by_cases source : v = s
    · subst source
      simp [Node.addOutbound, target]
    · simp [source, target]

theorem vertexPayload?_joinWith (g : Graph N E) (s t : Vertex) (payload : E) (v : Vertex) :
    (g.joinWith s t payload).2.vertexPayload? v = g.vertexPayload? v := by
  cases room : g.edges.isFull with
  | true => rw [joinWith_of_full room]
  | false =>
      rw [vertexPayload?, get?_vertices_joinWith room]
      cases hv : g.vertices.get? v <;> simp [vertexPayload?, hv]

@[simp]
theorem vertexCount_joinWith (g : Graph N E) (s t : Vertex) (payload : E) :
    (g.joinWith s t payload).2.vertexCount = g.vertexCount := by
  unfold joinWith
  split
  · rfl
  · simp [vertexCount]

@[simp]
theorem direction_joinWith (g : Graph N E) (s t : Vertex) (payload : E) :
    (g.joinWith s t payload).2.direction = g.direction := by
  unfold joinWith
  split <;> rfl

theorem outbound_joinWith {g : Graph N E} (room : g.edges.isFull = false) {s : Vertex}
    (live : g.containsVertex s = true) (t : Vertex) (payload : E) (v : Vertex) :
    (g.joinWith s t payload).2.outbound v =
      g.outbound v ++ if v = s then [(g.joinWith s t payload).1] else [] := by
  rw [outbound_eq, get?_vertices_joinWith room, outbound_eq]
  cases hv : g.vertices.get? v with
  | some node => rfl
  | none =>
      have other : v ≠ s := by
        rintro rfl
        simp [containsVertex, Arena.contains, hv] at live
      simp [other]

theorem inbound_joinWith {g : Graph N E} (room : g.edges.isFull = false) (s : Vertex) {t : Vertex}
    (live : g.containsVertex t = true) (payload : E) (v : Vertex) :
    (g.joinWith s t payload).2.inbound v =
      g.inbound v ++ if v = t then [(g.joinWith s t payload).1] else [] := by
  rw [inbound_eq, get?_vertices_joinWith room, inbound_eq]
  cases hv : g.vertices.get? v with
  | some node => rfl
  | none =>
      have other : v ≠ t := by
        rintro rfl
        simp [containsVertex, Arena.contains, hv] at live
      simp [other]

theorem source?_joinWith {g : Graph N E} (valid : g.Valid) (room : g.edges.isFull = false)
    (s t : Vertex) (payload : E) (e : Edge) :
    (g.joinWith s t payload).2.source? e =
      if e = (g.joinWith s t payload).1 then some s else g.source? e := by
  simp only [source?, get?_edges_joinWith valid room]
  split <;> rfl

theorem target?_joinWith {g : Graph N E} (valid : g.Valid) (room : g.edges.isFull = false)
    (s t : Vertex) (payload : E) (e : Edge) :
    (g.joinWith s t payload).2.target? e =
      if e = (g.joinWith s t payload).1 then some t else g.target? e := by
  simp only [target?, get?_edges_joinWith valid room]
  split <;> rfl

/-- A list that holds only live edges takes a new edge once. -/
theorem nodup_append_fresh {es : List Edge} {e : Edge} (nodup : es.Nodup) (fresh : e ∉ es)
    (p : Prop) [Decidable p] : (es ++ if p then [e] else []).Nodup := by
  split
  · simpa [List.nodup_append, nodup] using fun e' he' (same : e' = e) => fresh (same ▸ he')
  · simpa using nodup

theorem valid_joinWith {g : Graph N E} (valid : g.Valid) {s t : Vertex}
    (source : g.containsVertex s = true) (target : g.containsVertex t = true)
    (apart : g.edge? s t = none) (payload : E) : (g.joinWith s t payload).2.Valid := by
  cases room : g.edges.isFull with
  | true => simpa [joinWith_of_full room] using valid
  | false =>
      have fresh := joinWith_fresh valid room s t payload
      have arenas : (g.joinWith s t payload).2.vertices.Valid ∧
          (g.joinWith s t payload).2.edges.Valid := by
        simp only [joinWith, room, Bool.false_eq_true, if_false]
        exact ⟨Arena.valid_modify (Arena.valid_modify valid.vertices _ _) _ _,
          Arena.valid_insert valid.edges room _⟩
      refine valid_of_lists arenas.1 arenas.2 ?_ ?_ ?_ ?_ ?_
      · intro v
        rw [outbound_joinWith room source]
        exact nodup_append_fresh (valid.outbound_nodup v)
          (by simp [valid.mem_outbound, source?, fresh]) _
      · intro e v
        rw [outbound_joinWith room source, source?_joinWith valid room, List.mem_append,
          valid.mem_outbound]
        by_cases new : e = (g.joinWith s t payload).1
        · rcases eq_or_ne v s with here | here
          · simp [new, here]
          · simp [new, here, here.symm, source?, fresh]
        · by_cases here : v = s <;> simp [new, here]
      · intro v
        rw [inbound_joinWith room s target]
        exact nodup_append_fresh (valid.inbound_nodup v)
          (by simp [valid.mem_inbound, target?, fresh]) _
      · intro e v
        rw [inbound_joinWith room s target, target?_joinWith valid room, List.mem_append,
          valid.mem_inbound]
        by_cases new : e = (g.joinWith s t payload).1
        · rcases eq_or_ne v t with here | here
          · simp [new, here]
          · simp [new, here, here.symm, target?, fresh]
        · by_cases here : v = t <;> simp [new, here]
      · intro v w e
        have before := valid.edge?_eq_some v w e
        rw [edge?_joinWith room, get?_edges_joinWith valid room]
        by_cases here : (v, w) = (s, t)
        · obtain ⟨rfl, rfl⟩ := Prod.mk.inj here
          by_cases new : e = (g.joinWith v w payload).1
          · simp [new]
          · rw [apart] at before
            simpa [new, Ne.symm new] using before
        · have elsewhere : ¬ (s = v ∧ t = w) := fun same => here (by rw [same.1, same.2])
          by_cases new : e = (g.joinWith s t payload).1
          · rw [new, fresh] at before
            simpa [here, new, elsewhere] using before
          · simpa [here, new] using before

/-! ## Edges made or found -/

/-- The ends of an edge that is found are live. -/
theorem Valid.live_of_edge? {g : Graph N E} (valid : g.Valid) {s t : Vertex} {e : Edge}
    (found : g.edge? s t = some e) :
    g.containsVertex s = true ∧ g.containsVertex t = true ∧ g.containsEdge e = true := by
  obtain ⟨payload, he⟩ := (valid.edge?_eq_some s t e).mp found
  obtain ⟨source, target⟩ := valid.ends_live e _ he
  exact ⟨source, target, containsEdge_iff.mpr ⟨_, he⟩⟩

theorem addEdgeWith_of_dead {g : Graph N E} {s t : Vertex}
    (dead : (g.containsVertex s && g.containsVertex t) = false) (payload : E) :
    g.addEdgeWith s t payload = (.null, g) := by simp [addEdgeWith, dead]

theorem addEdgeWith_of_joined {g : Graph N E} (valid : g.Valid) {s t : Vertex} {e : Edge}
    (found : g.edge? s t = some e) (payload : E) :
    g.addEdgeWith s t payload = (e, g.modifyEdge e fun _ => payload) := by
  obtain ⟨source, target, -⟩ := valid.live_of_edge? found
  simp [addEdgeWith, source, target, found]

theorem addEdgeWith_of_apart {g : Graph N E} {s t : Vertex} (source : g.containsVertex s = true)
    (target : g.containsVertex t = true) (apart : g.edge? s t = none) (payload : E) :
    g.addEdgeWith s t payload = g.joinWith s t payload := by
  simp [addEdgeWith, source, target, apart]

/-- Joining vertices changes no vertex. -/
theorem addEdgeWith_vertices {g : Graph N E} (valid : g.Valid) (s t : Vertex) (payload : E) :
    (g.addEdgeWith s t payload).2.direction = g.direction ∧
      (g.addEdgeWith s t payload).2.vertexCount = g.vertexCount ∧
      ∀ v, (g.addEdgeWith s t payload).2.vertexPayload? v = g.vertexPayload? v := by
  cases live : g.containsVertex s && g.containsVertex t with
  | false =>
      rw [addEdgeWith_of_dead live]
      exact ⟨rfl, rfl, fun _ => rfl⟩
  | true =>
      obtain ⟨source, target⟩ := Bool.and_eq_true_iff.mp live
      cases found : g.edge? s t with
      | some e =>
          rw [addEdgeWith_of_joined valid found]
          exact ⟨rfl, rfl, fun _ => rfl⟩
      | none =>
          rw [addEdgeWith_of_apart source target found]
          exact ⟨direction_joinWith g s t payload, vertexCount_joinWith g s t payload,
            vertexPayload?_joinWith g s t payload⟩

theorem addEdge_of_dead [Inhabited E] {g : Graph N E} {s t : Vertex}
    (dead : (g.containsVertex s && g.containsVertex t) = false) :
    g.addEdge s t = (.null, g) := by simp [addEdge, dead]

theorem addEdge_of_joined [Inhabited E] {g : Graph N E} (valid : g.Valid) {s t : Vertex} {e : Edge}
    (found : g.edge? s t = some e) : g.addEdge s t = (e, g) := by
  obtain ⟨source, target, -⟩ := valid.live_of_edge? found
  simp [addEdge, source, target, found]

theorem addEdge_of_apart [Inhabited E] {g : Graph N E} {s t : Vertex}
    (source : g.containsVertex s = true) (target : g.containsVertex t = true)
    (apart : g.edge? s t = none) : g.addEdge s t = g.joinWith s t default := by
  simp [addEdge, source, target, apart]

theorem valid_addEdgeWith {g : Graph N E} (valid : g.Valid) (s t : Vertex) (payload : E) :
    (g.addEdgeWith s t payload).2.Valid := by
  cases live : g.containsVertex s && g.containsVertex t with
  | false => simpa [addEdgeWith_of_dead live] using valid
  | true =>
      obtain ⟨source, target⟩ := Bool.and_eq_true_iff.mp live
      cases found : g.edge? s t with
      | some e =>
          rw [addEdgeWith_of_joined valid found]
          exact valid_modifyEdge valid e fun _ => payload
      | none =>
          rw [addEdgeWith_of_apart source target found]
          exact valid_joinWith valid source target found payload

theorem valid_addEdge [Inhabited E] {g : Graph N E} (valid : g.Valid) (s t : Vertex) :
    (g.addEdge s t).2.Valid := by
  cases live : g.containsVertex s && g.containsVertex t with
  | false => simpa [addEdge_of_dead live] using valid
  | true =>
      obtain ⟨source, target⟩ := Bool.and_eq_true_iff.mp live
      cases found : g.edge? s t with
      | some e => simpa [addEdge_of_joined valid found] using valid
      | none =>
          rw [addEdge_of_apart source target found]
          exact valid_joinWith valid source target found default

theorem valid_removeVertices {g : Graph N E} (valid : g.Valid) (vs : List Vertex) :
    (g.removeVertices vs).Valid := by
  induction vs generalizing g with
  | nil => exact valid
  | cons v vs ih => exact ih (valid_removeVertex valid v)

end Provenance.Graph
