import Provenance.Graph.Dominance
import Provenance.Proofs.Graph.Joins
import Provenance.Proofs.Graph.Undisturbed

/-! # A vertex above all roots

From a vertex that is made a parent of every root a search meets all that the roots reach. What it
reaches only through a vertex of an undisturbed part is in that part, and stays as it is.
-/

namespace Provenance.Graph

variable {N E : Type} {inside : Vertex → Prop} {g g' r r' : Graph N E} {top top' v w : Vertex}

/-- The second graph is the first with one more vertex. On the way to the leaves this one leads to
the roots of the first. -/
structure Crowns (top : Vertex) (g r : Graph N E) : Prop where
  valid : r.Valid
  direction : r.direction = g.direction
  fresh : g.containsVertex top = false
  live_iff : ∀ v, r.containsVertex v = true ↔ v = top ∨ g.containsVertex v = true
  around_top : r.around (g.direction.way .leaves) top = g.roots
  around_other : ∀ v, v ≠ top →
    r.around (g.direction.way .leaves) v = g.around (g.direction.way .leaves) v

/-! ## Joining one vertex to many -/

theorem successors_addEdges [Inhabited E] (valid : g.Valid) (live : g.containsVertex top = true)
    (ts : List Vertex) (nodup : ts.Nodup)
    (apart : ∀ t ∈ ts, g.containsVertex t = true ∧ ¬ g.Joined top t)
    (room : g.edgeCount + ts.length ≤ Handle.nullIndex) (v : Vertex) :
    (ts.foldl (fun g t => (g.addEdge top t).2) g).successors v =
      g.successors v ++ if v = top then ts else [] := by
  induction ts generalizing g with
  | nil => simp
  | cons t ts ih =>
      obtain ⟨new, nodup⟩ := List.nodup_cons.mp nodup
      obtain ⟨⟨target, unjoined⟩, later⟩ := List.forall_mem_cons.mp apart
      rw [List.length_cons] at room
      have edge_room : g.edges.isFull = false := by
        refine Bool.eq_false_iff.mpr fun full => ?_
        have count : g.edgeCount = Handle.nullIndex := valid.edges.isFull_iff.mp full
        omega
      have none_found : g.edge? top t = none :=
        Option.not_isSome_iff_eq_none.mp unjoined
      have joins := joins_addEdge valid live target
      have count := edgeCount_joinWith edge_room top t (default : E)
      rw [List.foldl_cons]
      rw [addEdge_of_apart live target none_found] at joins ⊢
      rw [ih joins.valid ((joins.containsVertex top).trans live) nodup ?_ (by omega),
        successors_joinWith valid edge_room live]
      · by_cases here : v = top
        · simp [here]
        · simp [here]
      · intro u listed
        obtain ⟨live_u, unjoined_u⟩ := later u listed
        refine ⟨(joins.containsVertex u).trans live_u, fun joined => ?_⟩
        rcases joins.only top u joined with before | now
        · exact unjoined_u before
        · exact new ((Prod.mk.inj (List.mem_singleton.mp now)).2 ▸ listed)

/-! ## The new vertex -/

/-- The graph with one more vertex, which is made a parent of every root. -/
def crown [Inhabited N] [Inhabited E] (g : Graph N E) : Vertex × Graph N E :=
  let (top, r) := g.addVertex
  (top, g.roots.foldl
    (fun r root =>
      let (source, target) := g.direction.orient top root
      (r.addEdge source target).2) r)

theorem live_of_root {root : Vertex} (listed : root ∈ g.roots) : g.containsVertex root = true :=
  Arena.mem_handles.mp (List.mem_of_mem_filter listed)

section Crown

variable [Inhabited N] [Inhabited E]

theorem joins_crown (valid : g.Valid) (room : g.vertices.isFull = false) :
    Joins g.addVertex.2 g.crown.2 (g.roots.map (g.direction.orient g.addVertex.1 ·)) := by
  have live := containsVertex_addVertexWith valid room (default : N)
  have top_live := (live g.addVertex.1).mpr (.inl rfl)
  have joins := joins_addEdges (E := E) (valid_addVertexWith valid (default : N))
    (g.roots.map (g.direction.orient g.addVertex.1 ·)) ?_
  · rwa [List.foldl_map] at joins
  · intro s t listed
    obtain ⟨root, member, same⟩ := List.mem_map.mp listed
    have root_live := (live root).mpr (.inr (live_of_root member))
    cases side : g.direction with
    | parentToChild =>
        rw [side] at same
        obtain ⟨rfl, rfl⟩ := Prod.mk.inj same
        exact ⟨top_live, root_live⟩
    | childToParent =>
        rw [side] at same
        obtain ⟨rfl, rfl⟩ := Prod.mk.inj same
        exact ⟨root_live, top_live⟩

theorem joined_crown_iff (valid : g.Valid) (room : g.vertices.isFull = false)
    (edge_room : g.edgeCount + g.roots.length ≤ Handle.nullIndex) (s t : Vertex) :
    g.crown.2.Joined s t ↔
      g.Joined s t ∨ (s, t) ∈ g.roots.map (g.direction.orient g.addVertex.1 ·) := by
  have joins := joins_crown valid room
  have edges : g.addVertex.2.edgeCount = g.edgeCount :=
    congrArg Arena.size (edges_addVertexWith g default)
  rw [← joined_addVertexWith g (default : N)]
  refine ⟨joins.only s t, fun either => ?_⟩
  rcases either with before | new
  · exact joins.keeps s t before
  · refine joins.all (.inl ?_) s t new
    rwa [edges, List.length_map]

omit [Inhabited E] in
theorem ne_addVertex_of_joined (valid : g.Valid) {s t : Vertex} (joined : g.Joined s t) :
    s ≠ g.addVertex.1 ∧ t ≠ g.addVertex.1 := by
  have fresh : g.containsVertex g.addVertex.1 = false := addVertexWith_dead valid default
  obtain ⟨source, target⟩ := valid.live_of_joined joined
  constructor <;> rintro rfl
  · exact absurd source (Bool.eq_false_iff.mp fresh)
  · exact absurd target (Bool.eq_false_iff.mp fresh)

/-- A search along the edges meets the roots in the order in which they were joined to the new
vertex. -/
theorem successors_crown (valid : g.Valid) (room : g.vertices.isFull = false)
    (edge_room : g.edgeCount + g.roots.length ≤ Handle.nullIndex)
    (side : g.direction = .parentToChild) (v : Vertex) :
    g.crown.2.successors v = if v = g.addVertex.1 then g.roots else g.successors v := by
  have folded : g.crown.2 =
      g.roots.foldl (fun r root => (r.addEdge g.addVertex.1 root).2) g.addVertex.2 := by
    unfold crown
    rw [side]
    rfl
  have live := containsVertex_addVertexWith valid room (default : N)
  have apart : ∀ root ∈ g.roots, g.addVertex.2.containsVertex root = true ∧
      ¬ g.addVertex.2.Joined g.addVertex.1 root := by
    refine fun root listed => ⟨(live root).mpr (.inr (live_of_root listed)), fun joined => ?_⟩
    rw [addVertex, joined_addVertexWith] at joined
    exact (ne_addVertex_of_joined valid joined).1 rfl
  have edges : g.addVertex.2.edgeCount = g.edgeCount :=
    congrArg Arena.size (edges_addVertexWith g default)
  have before : g.addVertex.2.successors v = g.successors v :=
    successors_addVertexWith valid default v
  have listed := successors_addEdges (g := g.addVertex.2) (valid_addVertexWith valid default)
    ((live g.addVertex.1).mpr (.inl rfl)) g.roots (g.vertices.handles_nodup.filter _) apart
    (by rwa [← edges] at edge_room) v
  rw [folded, listed, before]
  by_cases here : v = g.addVertex.1
  · have no_successors : g.successors v = [] := List.eq_nil_iff_forall_not_mem.mpr fun w member =>
      (ne_addVertex_of_joined valid (valid.mem_successors.mp member)).1 here
    rw [if_pos here, no_successors, if_pos here, List.nil_append]
  · rw [if_neg here, if_neg here, List.append_nil]

/-- A search against the edges meets the roots in storage order, in which they are listed. -/
theorem around_against_crown (valid : g.Valid) (room : g.vertices.isFull = false)
    (edge_room : g.edgeCount + g.roots.length ≤ Handle.nullIndex)
    (side : g.direction = .childToParent) (v : Vertex) :
    g.crown.2.around .against v =
      if v = g.addVertex.1 then g.roots else g.around .against v := by
  have joined_iff := joined_crown_iff (E := E) valid room edge_room
  rw [side] at joined_iff
  have mem_iff : ∀ w, w ∈ g.crown.2.around .against v ↔
      g.Joined w v ∨ w ∈ g.roots ∧ v = g.addVertex.1 := by
    intro w
    rw [(joins_crown valid room).valid.mem_around .against, Passes, joined_iff]
    simp [Direction.orient, eq_comm]
  have sorted : (g.crown.2.around .against v).Pairwise (·.index < ·.index) :=
    sorted_filter_vertexList _ _
  by_cases here : v = g.addVertex.1
  · rw [if_pos here]
    refine Handle.eq_of_mem_iff sorted (sorted_filter_vertexList g _) fun w => ?_
    rw [mem_iff, or_iff_right fun joined => (ne_addVertex_of_joined valid joined).2 here,
      and_iff_left here]
  · rw [if_neg here]
    refine Handle.eq_of_mem_iff sorted (sorted_filter_vertexList g _) fun w => ?_
    rw [mem_iff, or_iff_left fun new => here new.2]
    exact (valid.mem_around .against).symm

theorem around_crown (valid : g.Valid) (room : g.vertices.isFull = false)
    (edge_room : g.edgeCount + g.roots.length ≤ Handle.nullIndex) (v : Vertex) :
    g.crown.2.around (g.direction.way .leaves) v =
      if v = g.addVertex.1 then g.roots else g.around (g.direction.way .leaves) v := by
  cases side : g.direction with
  | parentToChild => exact successors_crown valid room edge_room side v
  | childToParent => exact around_against_crown valid room edge_room side v

/-- As long as there are handles for them, the new vertex and all its edges are made. -/
theorem crowns_crown (valid : g.Valid) (vertex_room : g.vertexCount < Handle.nullIndex)
    (edge_room : g.edgeCount + g.roots.length ≤ Handle.nullIndex) :
    Crowns g.crown.1 g g.crown.2 := by
  have room : g.vertices.isFull = false :=
    Bool.eq_false_iff.mpr fun full =>
      Nat.ne_of_lt vertex_room (valid.vertices.isFull_iff.mp full)
  have joins := joins_crown (E := E) valid room
  have around := around_crown (E := E) valid room edge_room
  exact {
    valid := joins.valid
    direction := joins.direction.trans (direction_addVertexWith g default)
    fresh := addVertexWith_dead valid default
    live_iff := fun v => by
      rw [joins.containsVertex]
      exact containsVertex_addVertexWith valid room default v
    around_top := (around _).trans (if_pos rfl)
    around_other := fun v other => (around v).trans (if_neg other) }

end Crown

/-! ## What hangs below -/

/-- The part with the new vertex. -/
def WithTop (top : Vertex) (inside : Vertex → Prop) (v : Vertex) : Prop := v = top ∨ inside v

namespace Crowns

theorem ne_top (crowns : Crowns top g r) (live : g.containsVertex v = true) : v ≠ top := by
  rintro rfl
  exact absurd live (Bool.eq_false_iff.mp crowns.fresh)

/-- No search meets the new vertex. -/
theorem live_of_around (crowns : Crowns top g r) (valid : g.Valid)
    (listed : w ∈ r.around (g.direction.way .leaves) v) : g.containsVertex w = true := by
  by_cases here : v = top
  · rw [here, crowns.around_top] at listed
    exact live_of_root listed
  · rw [crowns.around_other v here, valid.mem_around] at listed
    exact (valid.live_of_passes listed).2

/-- Away from the new vertex a search goes where one of the first graph does. -/
theorem passes (crowns : Crowns top g r) (valid : g.Valid) {i j : Fin r.snapshot.size}
    (leads : Leads (r.snapshot.digraph.neighbors (g.direction.way .leaves)) i j) :
    r.snapshot.label j ≠ top ∧ (r.snapshot.label i ≠ top →
      g.Passes (g.direction.way .leaves) (r.snapshot.label i) (r.snapshot.label j)) := by
  have listed := (crowns.valid.mem_around _).mpr (crowns.valid.leads_iff.mp leads)
  refine ⟨crowns.ne_top (crowns.live_of_around valid listed), fun other => ?_⟩
  rwa [crowns.around_other _ other, valid.mem_around] at listed

theorem hangsFrom (crowns : Crowns top g r) (valid : g.Valid) (isolated : g.Isolated inside)
    {root : Fin r.snapshot.size} (label : r.snapshot.label root = top) :
    HangsFrom root (fun i => WithTop top inside (r.snapshot.label i))
      (r.snapshot.digraph.neighbors (g.direction.way .leaves)) where
  root_inside := .inl label
  shut u w leads there := by
    obtain ⟨below, passes⟩ := crowns.passes valid leads
    by_cases here : r.snapshot.label u = top
    · exact .inl here
    · exact .inr ((isolated.inside_iff (passes here)).mpr (there.resolve_left below))
  closed u w other here leads := by
    obtain ⟨-, passes⟩ := crowns.passes valid leads
    have off_top : r.snapshot.label u ≠ top := fun same => other (label_inj (same.trans label.symm))
    exact .inr ((isolated.inside_iff (passes off_top)).mp (here.resolve_left off_top))
  source u leads := (crowns.passes valid leads).1 label

open Classical in
/-- The part of the roots, or of the neighbours of a vertex. -/
theorem filter_around (crowns : Crowns top g r) (valid : g.Valid) (v : Vertex) :
    (r.around (g.direction.way .leaves) v).filter (WithTop top inside) =
      (r.around (g.direction.way .leaves) v).filter inside := by
  refine List.filter_congr fun w listed => ?_
  have other := crowns.ne_top (crowns.live_of_around valid listed)
  simp [WithTop, other]

end Crowns

open Classical in
/-- Around a vertex of the part there is the same in both graphs, the new vertex apart. -/
theorem Crowns.filter_around_eq (crowns : Crowns top g r) (crowns' : Crowns top' g' r')
    (undisturbed : Undisturbed inside g g') (valid : g.Valid) (isolated : g.Isolated inside) :
    (r'.around (g.direction.way .leaves) top').filter (WithTop top' inside) =
        (r.around (g.direction.way .leaves) top).filter (WithTop top inside) ∧
      ∀ v, inside v → (r'.around (g.direction.way .leaves) v).filter (WithTop top' inside) =
        (r.around (g.direction.way .leaves) v).filter (WithTop top inside) := by
  have filtered' : ∀ v, (r'.around (g'.direction.way .leaves) v).filter (WithTop top' inside) =
      (r'.around (g'.direction.way .leaves) v).filter inside :=
    crowns'.filter_around undisturbed.valid
  rw [undisturbed.direction] at filtered'
  have around_top' := crowns'.around_top
  have around_other' := crowns'.around_other
  rw [undisturbed.direction] at around_top' around_other'
  constructor
  · rw [filtered', crowns.filter_around valid, around_top', crowns.around_top]
    exact undisturbed.filter_extremes valid isolated .roots
  · intro v here
    have other := crowns.ne_top (isolated.live v here)
    have other' := crowns'.ne_top (undisturbed.live isolated here)
    rw [filtered', crowns.filter_around valid, around_other' v other', crowns.around_other v other,
      undisturbed.around valid _ here]

/-- The vertices of the part with the new vertex, in the other graph. -/
def retop (top top' v : Vertex) : Vertex := if v = top then top' else v

theorem retop_top : retop top top' top = top' := if_pos rfl

theorem retop_of_ne (other : v ≠ top) : retop top top' v = v := if_neg other

/-- The part keeps its vertices, and the new vertex of the other graph is none of them. -/
theorem Crowns.retop_inj (crowns : Crowns top g r) (crowns' : Crowns top' g' r')
    (undisturbed : Undisturbed inside g g') (isolated : g.Isolated inside)
    (first : WithTop top inside v) (second : WithTop top inside w)
    (same : retop top top' v = retop top top' w) : v = w := by
  have kept : ∀ {u}, inside u → retop top top' u = u := fun here =>
    retop_of_ne (crowns.ne_top (isolated.live _ here))
  have other : ∀ {u}, inside u → u ≠ top' := fun here =>
    crowns'.ne_top (undisturbed.live isolated here)
  rcases first with rfl | here
  · rcases second with rfl | there
    · rfl
    · rw [retop_top, kept there] at same
      exact absurd same.symm (other there)
  · rcases second with rfl | there
    · rw [retop_top, kept here] at same
      exact absurd same (other here)
    · rwa [kept here, kept there] at same

open Classical in
/-- The numbers of the part with the new vertex. -/
theorem Crowns.exists_carries (crowns : Crowns top g r) (crowns' : Crowns top' g' r')
    (undisturbed : Undisturbed inside g g') (valid : g.Valid) (isolated : g.Isolated inside) :
    ∃ f : Fin r.snapshot.size → Fin r'.snapshot.size,
      (∀ i, r.snapshot.label i = top → r'.snapshot.label (f i) = top') ∧
      (∀ i, inside (r.snapshot.label i) → r'.snapshot.label (f i) = r.snapshot.label i) ∧
      Carries (fun i => WithTop top inside (r.snapshot.label i)) f
        (restrict (fun i => WithTop top inside (r.snapshot.label i))
          (r.snapshot.digraph.neighbors (g.direction.way .leaves)))
        (restrict (fun i => WithTop top' inside (r'.snapshot.label i))
          (r'.snapshot.digraph.neighbors (g.direction.way .leaves))) := by
  have kept : ∀ {u}, inside u → retop top top' u = u := fun here =>
    retop_of_ne (crowns.ne_top (isolated.live _ here))
  have live : ∀ u, WithTop top inside u → r'.containsVertex (retop top top' u) = true := by
    rintro u (rfl | here)
    · exact (crowns'.live_iff _).mpr (.inl retop_top)
    · rw [kept here]
      exact (crowns'.live_iff u).mpr (.inr (undisturbed.live isolated here))
  obtain ⟨f, renumbers⟩ := exists_renumbers r live (.inl rfl)
  refine ⟨f, fun i at_top => ?_, fun i here => ?_, ?_⟩
  · rw [renumbers i (.inl at_top), at_top, retop_top]
  · rw [renumbers i (.inr here), kept here]
  obtain ⟨same_top, same⟩ := crowns.filter_around_eq crowns' undisturbed valid isolated
  have unmoved : ∀ u, ((r.around (g.direction.way .leaves) u).filter (WithTop top inside)).map
      (retop top top') = (r.around (g.direction.way .leaves) u).filter (WithTop top inside) := by
    intro u
    refine (List.map_congr_left fun w listed => ?_).trans (List.map_id _)
    exact retop_of_ne
      (crowns.ne_top (crowns.live_of_around valid (List.mem_of_mem_filter listed)))
  refine renumbers.carries
    (fun u w => crowns.retop_inj crowns' undisturbed isolated)
    (fun u => (r.around (g.direction.way .leaves) u).filter (WithTop top inside))
    (fun u => (r'.around (g.direction.way .leaves) u).filter (WithTop top' inside))
    (crowns.valid.map_restrict (WithTop top inside) _)
    (crowns'.valid.map_restrict (WithTop top' inside) _)
    (fun u w _ listed => of_decide_eq_true (List.mem_filter.mp listed).2) ?_
  rintro u (rfl | here)
  · rw [unmoved, retop_top]
    exact same_top
  · rw [unmoved, kept here]
    exact same u here

/-- What is reached from above only through a vertex of an undisturbed part is in that part, and is
the same, in the same order. -/
theorem Crowns.dominatedBy (crowns : Crowns top g r) (crowns' : Crowns top' g' r')
    (undisturbed : Undisturbed inside g g') (valid : g.Valid) (isolated : g.Isolated inside)
    (here : inside v) (order : SearchOrder) :
    r'.dominatedBy v top' order = r.dominatedBy v top order ∧
      ∀ u ∈ r.dominatedBy v top order, inside u := by
  classical
  obtain ⟨f, at_top, label, carries⟩ := crowns.exists_carries crowns' undisturbed valid isolated
  obtain ⟨root, root_label⟩ := exists_label ((crowns.live_iff top).mpr (.inl rfl))
  obtain ⟨a, rfl⟩ := exists_label ((crowns.live_iff v).mpr (.inr (isolated.live v here)))
  have off_top : r.snapshot.label a ≠ top := crowns.ne_top (isolated.live _ here)
  have off_root : a ≠ root := fun same => off_top (same ▸ root_label)
  have hangs := crowns.hangsFrom valid isolated root_label
  have hangs' := crowns'.hangsFrom undisturbed.valid (undisturbed.isolated valid isolated)
    (at_top root root_label)
  rw [undisturbed.direction] at hangs'
  have mapped : ∀ i, WithTop top inside (r.snapshot.label i) →
      WithTop top' inside (r'.snapshot.label (f i)) := by
    rintro i (top_label | within)
    · exact .inl (at_top i top_label)
    · exact .inr (label i within ▸ within)
  have within : ∀ i ∈ (order.search r.snapshot.digraph (g.direction.way .leaves) root).filter
      (· ∈ (r.snapshot.digraph.dominators (g.direction.way .leaves) root).below a),
      inside (r.snapshot.label i) := by
    intro i listed
    obtain ⟨found, below⟩ := List.mem_filter.mp listed
    have reached := Digraph.mem_search.mp found
    have dominates := (Digraph.mem_below_of_reached reached).mp (of_decide_eq_true below)
    refine (hangs.inside_of_dominated (.inr here) off_root reached dominates).resolve_left ?_
    intro top_label
    obtain rfl : i = root := label_inj (top_label.trans root_label.symm)
    exact off_root dominates.eq_root
  have moved := Digraph.dominated_map order hangs hangs' carries mapped (.inr here) off_root
  rw [Graph.dominatedBy, Graph.dominatedBy, crowns.direction, crowns'.direction,
    undisturbed.direction, number?_eq_some.mpr rfl, number?_eq_some.mpr root_label,
    number?_eq_some.mpr (label a here), number?_eq_some.mpr (at_top root root_label)]
  dsimp only
  rw [moved, List.map_map]
  refine ⟨List.map_congr_left fun i listed => label i (within i listed), ?_⟩
  exact List.forall_mem_map.mpr within

end Provenance.Graph
