import Provenance.Proofs.ArenaAges
import Provenance.Proofs.Graph.Reached

/-! # Stale handles

A step of a run that is not a clear turns exactly the slots that it empties. So the handles that it
issues are new ones, and a handle that has become stale is never found again.
-/

namespace Provenance

variable {N E : Type}

/-- The handle that a change answers with. -/
def Reply.handle? : (κ : Kind) → Reply → Option (Handle κ)
  | .vertex, .vertex v => some v
  | .edge, .edge e => some e
  | _, _ => none

namespace Graph

/-! ## Steps -/

/-- As `Arena.Turns`, of the vertices and of the edges. -/
structure Turns (g g' : Graph N E) : Prop where
  vertices : g.vertices.Turns g'.vertices
  edges : g.edges.Turns g'.edges

/-- As `Arena.Fades`, of the vertices and of the edges. -/
structure Fades (g g' : Graph N E) : Prop where
  vertices : g.vertices.Fades g'.vertices
  edges : g.edges.Fades g'.edges

theorem Fades.refl (g : Graph N E) : Fades g g := ⟨.refl _, .refl _⟩

theorem Fades.trans {g g' g'' : Graph N E} (first : Fades g g') (second : Fades g' g'') :
    Fades g g'' :=
  ⟨first.vertices.trans second.vertices, first.edges.trans second.edges⟩

theorem Fades.turns {g g' : Graph N E} (fades : Fades g g') : Turns g g' :=
  ⟨fades.vertices.turns, fades.edges.turns⟩

theorem fades_modifyVertex (g : Graph N E) (v : Vertex) (f : N → N) :
    Fades g (g.modifyVertex v f) :=
  ⟨Arena.fades_modify _ _ _, .refl _⟩

theorem fades_modifyEdge (g : Graph N E) (e : Edge) (f : E → E) : Fades g (g.modifyEdge e f) :=
  ⟨.refl _, Arena.fades_modify _ _ _⟩

theorem fades_dropEdge (g : Graph N E) (e : Edge) : Fades g (g.dropEdge e) := by
  unfold dropEdge
  split
  · exact ⟨(Arena.fades_modify _ _ _).trans (Arena.fades_modify _ _ _), Arena.fades_erase _ _⟩
  · exact .refl g

theorem fades_dropEdges (g : Graph N E) (es : List Edge) : Fades g (es.foldl dropEdge g) := by
  induction es generalizing g with
  | nil => exact .refl g
  | cons e es ih => exact (fades_dropEdge g e).trans (ih _)

theorem fades_removeVertex (g : Graph N E) (v : Vertex) : Fades g (g.removeVertex v).2 := by
  unfold removeVertex
  split
  · exact (fades_dropEdges g _).trans ⟨Arena.fades_erase _ _, .refl _⟩
  · exact .refl g

theorem fades_removeVertices (g : Graph N E) (vs : List Vertex) :
    Fades g (g.removeVertices vs) := by
  induction vs generalizing g with
  | nil => exact .refl g
  | cons v vs ih => exact (fades_removeVertex g v).trans (ih _)

theorem turns_addVertexWith {g : Graph N E} (valid : g.Valid) (payload : N) :
    Turns g (g.addVertexWith payload).2 := by
  unfold addVertexWith
  split
  · exact (Fades.refl g).turns
  · exact ⟨Arena.turns_insert valid.vertices _, (Arena.Fades.refl _).turns⟩

theorem turns_joinWith {g : Graph N E} (valid : g.Valid) (s t : Vertex) (payload : E) :
    Turns g (g.joinWith s t payload).2 := by
  unfold joinWith
  split
  · exact (Fades.refl g).turns
  · exact ⟨((Arena.fades_modify _ _ _).trans (Arena.fades_modify _ _ _)).turns,
      Arena.turns_insert valid.edges _⟩

theorem turns_addEdgeWith {g : Graph N E} (valid : g.Valid) (s t : Vertex) (payload : E) :
    Turns g (g.addEdgeWith s t payload).2 := by
  unfold addEdgeWith
  split
  · split
    · exact (fades_modifyEdge g _ fun _ => payload).turns
    · exact turns_joinWith valid s t payload
  · exact (Fades.refl g).turns

theorem turns_addEdge [Inhabited E] {g : Graph N E} (valid : g.Valid) (s t : Vertex) :
    Turns g (g.addEdge s t).2 := by
  unfold addEdge
  split
  · split
    · exact (Fades.refl g).turns
    · exact turns_joinWith valid s t default
  · exact (Fades.refl g).turns

variable [Inhabited N] [Inhabited E]

theorem turns_apply {g : Graph N E} (valid : g.Valid) {m : Mutation N E} (kept : m ≠ .clear) :
    Turns g (m.apply g).2 := by
  cases m with
  | addVertex => exact turns_addVertexWith valid default
  | addVertexWith payload => exact turns_addVertexWith valid payload
  | removeVertex v => exact (fades_removeVertex g v).turns
  | removeVertices vs => exact (fades_removeVertices g vs).turns
  | addEdge s t => exact turns_addEdge valid s t
  | addEdgeWith s t payload => exact turns_addEdgeWith valid s t payload
  | removeEdge e => exact (fades_dropEdge g e).turns
  | setVertex v payload => exact (fades_modifyVertex g v fun _ => payload).turns
  | modifyVertex v f => exact (fades_modifyVertex g v f).turns
  | setEdge e payload => exact (fades_modifyEdge g e fun _ => payload).turns
  | modifyEdge e f => exact (fades_modifyEdge g e f).turns
  | clear => exact absurd rfl kept
  | copy => exact (Fades.refl g).turns

/-! ## Issued handles -/

/-- A handle is live after a step and was not before it. -/
def Fresh {κ : Kind} {α : Type} (a a' : Arena κ α) (h : Handle κ) : Prop :=
  a.contains h = false ∧ a'.contains h = true

theorem fresh_insert {κ : Kind} {α : Type} {a : Arena κ α} (valid : a.Valid) (x : α) :
    Fresh a (a.insert x).2 (a.insert x).1 :=
  ⟨Arena.contains_eq_false.mpr (Arena.insert_fresh valid x), by simp [Arena.contains_insert valid]⟩

omit [Inhabited N] [Inhabited E] in
theorem fresh_addVertexWith {g : Graph N E} (valid : g.Valid) {payload : N}
    (grown : g.vertices.size < (g.addVertexWith payload).2.vertices.size) :
    Fresh g.vertices (g.addVertexWith payload).2.vertices (g.addVertexWith payload).1 := by
  unfold addVertexWith at grown ⊢
  split at grown
  · exact absurd grown (Nat.lt_irrefl _)
  · next room =>
      rw [if_neg room]
      exact fresh_insert valid.vertices _

omit [Inhabited N] [Inhabited E] in
theorem fresh_joinWith {g : Graph N E} (valid : g.Valid) {s t : Vertex} {payload : E}
    (grown : g.edges.size < (g.joinWith s t payload).2.edges.size) :
    Fresh g.edges (g.joinWith s t payload).2.edges (g.joinWith s t payload).1 := by
  unfold joinWith at grown ⊢
  split at grown
  · exact absurd grown (Nat.lt_irrefl _)
  · next room =>
      rw [if_neg room]
      exact fresh_insert valid.edges _

omit [Inhabited N] [Inhabited E] in
theorem fresh_addEdgeWith {g : Graph N E} (valid : g.Valid) {s t : Vertex} {payload : E}
    (grown : g.edges.size < (g.addEdgeWith s t payload).2.edges.size) :
    Fresh g.edges (g.addEdgeWith s t payload).2.edges (g.addEdgeWith s t payload).1 := by
  unfold addEdgeWith at grown ⊢
  split at grown
  next live =>
    rw [if_pos live]
    split at grown
    next found =>
      simp [modifyEdge] at grown
    next apart => exact fresh_joinWith valid grown
  next => exact absurd grown (Nat.lt_irrefl _)

omit [Inhabited N] in
theorem fresh_addEdge {g : Graph N E} (valid : g.Valid) {s t : Vertex}
    (grown : g.edges.size < (g.addEdge s t).2.edges.size) :
    Fresh g.edges (g.addEdge s t).2.edges (g.addEdge s t).1 := by
  unfold addEdge at grown ⊢
  split at grown
  next live =>
    rw [if_pos live]
    split at grown
    next found => exact absurd grown (Nat.lt_irrefl _)
    next apart => exact fresh_joinWith valid grown
  next => exact absurd grown (Nat.lt_irrefl _)

theorem fresh_vertex {g : Graph N E} (valid : g.Valid) {m : Mutation N E} {v : Vertex}
    (answer : v ∈ (m.apply g).1.handle? .vertex)
    (grown : g.vertices.size < (m.apply g).2.vertices.size) :
    Fresh g.vertices (m.apply g).2.vertices v := by
  cases m with
  | addVertex =>
      obtain rfl := Option.some.inj answer
      exact fresh_addVertexWith valid grown
  | addVertexWith payload =>
      obtain rfl := Option.some.inj answer
      exact fresh_addVertexWith valid grown
  | _ => cases answer

theorem fresh_edge {g : Graph N E} (valid : g.Valid) {m : Mutation N E} {e : Edge}
    (answer : e ∈ (m.apply g).1.handle? .edge)
    (grown : g.edges.size < (m.apply g).2.edges.size) : Fresh g.edges (m.apply g).2.edges e := by
  cases m with
  | addEdge s t =>
      obtain rfl := Option.some.inj answer
      exact fresh_addEdge valid grown
  | addEdgeWith s t payload =>
      obtain rfl := Option.some.inj answer
      exact fresh_addEdgeWith valid grown
  | _ => cases answer

/-! ## Runs -/

section Runs

variable {κ : Kind} {α : Type} (arena : Graph N E → Arena κ α)

/-- The number of steps of a run that take the entry of a slot away. -/
def frees (g : Graph N E) : List (Mutation N E) → Nat → Nat
  | [], _ => 0
  | m :: ms, i =>
      let g' := (m.apply g).2
      ((arena g).loses (arena g') i).toNat + frees g' ms i

/-- What the steps of a run answer with that make an entry. -/
def issued (g : Graph N E) : List (Mutation N E) → List (Handle κ)
  | [] => []
  | m :: ms =>
      let g' := (m.apply g).2
      let new := if (arena g).size < (arena g').size then ((m.apply g).1.handle? κ).toList else []
      new ++ issued g' ms

/-- What a step of a run does to an arena. -/
structure Tracked : Prop where
  turns : ∀ {g : Graph N E} {m : Mutation N E}, g.Valid → m ≠ .clear →
    (arena g).Turns (arena (m.apply g).2)
  fresh : ∀ {g : Graph N E} {m : Mutation N E} {h : Handle κ}, g.Valid → h ∈ (m.apply g).1.handle? κ →
    (arena g).size < (arena (m.apply g).2).size → Fresh (arena g) (arena (m.apply g).2) h

theorem tracked_vertices : Tracked (Graph.vertices : Graph N E → _) where
  turns valid kept := (turns_apply valid kept).vertices
  fresh valid answer grown := fresh_vertex valid answer grown

theorem tracked_edges : Tracked (Graph.edges : Graph N E → _) where
  turns valid kept := (turns_apply valid kept).edges
  fresh valid answer grown := fresh_edge valid answer grown

variable {arena}

theorem frees_append (g : Graph N E) (ms ms' : List (Mutation N E)) (i : Nat) :
    g.frees arena (ms ++ ms') i = g.frees arena ms i + (g.after ms).frees arena ms' i := by
  induction ms generalizing g with
  | nil => exact (Nat.zero_add _).symm
  | cons m ms ih =>
      rw [List.cons_append, frees, ih, frees, Nat.add_assoc]
      rfl

/-- A step empties a slot once at most. -/
theorem frees_le (g : Graph N E) (ms : List (Mutation N E)) (i : Nat) :
    g.frees arena ms i ≤ ms.length := by
  induction ms generalizing g with
  | nil => exact Nat.le_refl 0
  | cons m ms ih =>
      rw [frees, List.length_cons, Nat.add_comm]
      exact Nat.add_le_add (ih _) (Bool.toNat_le _)

theorem Tracked.ages (tracked : Tracked arena) {g : Graph N E} (valid : g.Valid)
    {ms : List (Mutation N E)} (kept : .clear ∉ ms) :
    Arena.Ages (g.frees arena ms) (arena g) (arena (g.after ms)) := by
  induction ms generalizing g with
  | nil => exact .refl _
  | cons m ms ih =>
      rw [List.mem_cons, not_or] at kept
      exact (tracked.turns valid (Ne.symm kept.1)).ages.trans (ih (valid_apply valid m) kept.2)

/-- A handle that has become stale is not found at any later time. -/
theorem Tracked.stale (tracked : Tracked arena) {g : Graph N E} (valid : g.Valid)
    {first second : List (Mutation N E)} (kept : .clear ∉ first ++ second)
    (few : ∀ i, g.frees arena (first ++ second) i < UInt32.size) {h : Handle κ}
    (live : (arena g).contains h = true) (lost : (arena (g.after first)).contains h = false) :
    (arena (g.after (first ++ second))).contains h = false := by
  rw [List.mem_append, not_or] at kept
  have few := few h.index
  rw [frees_append] at few
  rw [after_append]
  exact (tracked.ages valid kept.1).stale (tracked.ages (valid_after valid first) kept.2) live lost
    few

theorem Tracked.exists_issue (tracked : Tracked arena) {g : Graph N E} (valid : g.Valid)
    {ms : List (Mutation N E)} {h : Handle κ} (listed : h ∈ g.issued arena ms) :
    ∃ first m rest, ms = first ++ m :: rest ∧
      Fresh (arena (g.after first)) (arena (g.after (first ++ [m]))) h := by
  induction ms generalizing g with
  | nil => cases listed
  | cons m ms ih =>
      rw [issued, List.mem_append] at listed
      rcases listed with now | later
      · refine ⟨[], m, ms, rfl, ?_⟩
        split at now
        next grown => exact tracked.fresh valid (Option.mem_toList.mp now) grown
        next => cases now
      · obtain ⟨first, m', rest, rfl, fresh⟩ := ih (valid_apply valid m) later
        exact ⟨m :: first, m', rest, rfl, fresh⟩

theorem Tracked.not_issued (tracked : Tracked arena) {g : Graph N E} (valid : g.Valid)
    {ms : List (Mutation N E)} (kept : .clear ∉ ms)
    (few : ∀ i, g.frees arena ms i < UInt32.size) {h : Handle κ}
    (live : (arena g).contains h = true) : h ∉ g.issued arena ms := by
  intro listed
  obtain ⟨first, m, rest, rfl, fresh, again⟩ := tracked.exists_issue valid listed
  have split : first ++ m :: rest = (first ++ [m]) ++ rest := by simp
  rw [split, List.mem_append, not_or] at kept
  have lost := tracked.stale valid kept.1 (fun i => ?_) live fresh
  · rw [lost] at again
    cases again
  · have few := few i
    rw [split, frees_append] at few
    omega

theorem Tracked.nodup_issued (tracked : Tracked arena) {g : Graph N E} (valid : g.Valid)
    {ms : List (Mutation N E)} (kept : .clear ∉ ms)
    (few : ∀ i, g.frees arena ms i < UInt32.size) : (g.issued arena ms).Nodup := by
  induction ms generalizing g with
  | nil => exact List.nodup_nil
  | cons m ms ih =>
      have few' : ∀ i, (m.apply g).2.frees arena ms i < UInt32.size := fun i =>
        Nat.lt_of_le_of_lt (Nat.le_add_left _ _) (few i)
      rw [List.mem_cons, not_or] at kept
      have valid' := valid_apply valid m
      have later := ih valid' kept.2 few'
      rw [issued]
      split
      next grown =>
        cases answer : (m.apply g).1.handle? κ with
        | none => exact later
        | some h =>
            have fresh := tracked.fresh valid answer grown
            exact List.nodup_cons.mpr ⟨tracked.not_issued valid' kept.2 few' fresh.2, later⟩
      next => exact later

/-- The same, told by the times of a run. -/
theorem Tracked.stale_at (tracked : Tracked arena) {g : Graph N E} (valid : g.Valid)
    {ms : List (Mutation N E)} (kept : .clear ∉ ms)
    (few : ∀ i, g.frees arena ms i < UInt32.size) {i j k : Nat} (first : i ≤ j) (second : j ≤ k)
    {h : Handle κ} (live : (arena (g.after (ms.take i))).contains h = true)
    (lost : (arena (g.after (ms.take j))).contains h = false) :
    (arena (g.after (ms.take k))).contains h = false := by
  obtain ⟨a, rfl⟩ := Nat.exists_eq_add_of_le first
  obtain ⟨b, rfl⟩ := Nat.exists_eq_add_of_le second
  have whole : ms = ms.take i ++ ((ms.drop i).take a ++ (ms.drop (i + a)).take b) ++
      ms.drop (i + a + b) := by
    rw [← List.append_assoc, ← List.take_add, ← List.take_add, List.take_append_drop]
  rw [List.take_add, after_append] at lost
  rw [Nat.add_assoc, List.take_add, after_append, List.take_add, List.drop_drop]
  rw [whole, List.mem_append, List.mem_append, not_or, not_or] at kept
  refine tracked.stale (valid_after valid _) kept.1.2 (fun slot => ?_) live lost
  have few := few slot
  rw [whole, frees_append, frees_append] at few
  omega

end Runs

/-- In a run without a clear that empties no slot too often, no handle is issued twice, and one that
has become stale is never found again, whatever is added. -/
theorem stale_stay_stale (direction : Direction) {ms : List (Mutation N E)} (kept : .clear ∉ ms)
    (few : ∀ i, (empty direction).frees vertices ms i < UInt32.size)
    (few' : ∀ i, (empty direction).frees edges ms i < UInt32.size) :
    ((empty direction).issued vertices ms).Nodup ∧ ((empty direction).issued edges ms).Nodup ∧
      ∀ i j k, i ≤ j → j ≤ k →
        let at_ (time : Nat) := (empty direction).after (ms.take time)
        (∀ v, (at_ i).containsVertex v = true → (at_ j).containsVertex v = false →
          (at_ k).containsVertex v = false) ∧
        ∀ e, (at_ i).containsEdge e = true → (at_ j).containsEdge e = false →
          (at_ k).containsEdge e = false := by
  have valid := valid_empty (N := N) (E := E) direction
  refine ⟨tracked_vertices.nodup_issued valid kept few, tracked_edges.nodup_issued valid kept few',
    fun i j k first second => ⟨fun v live lost => ?_, fun e live lost => ?_⟩⟩
  · exact tracked_vertices.stale_at valid kept few first second live lost
  · exact tracked_edges.stale_at valid kept few' first second live lost

/-- The slot of a vertex is used again after its edge to itself and it are gone. -/
theorem stale_stay_stale_reused :
    let v : Vertex := ⟨0, 0⟩
    let ms : List (Mutation Unit Unit) :=
      [.addVertex, .addEdge v v, .removeVertex v, .addVertex, .addEdge ⟨0, 1⟩ ⟨0, 1⟩]
    ((empty .parentToChild).issued vertices ms = [⟨0, 0⟩, ⟨0, 1⟩] ∧
      (empty .parentToChild).issued edges ms = [⟨0, 0⟩, ⟨0, 1⟩]) ∧
    ((empty .parentToChild).issued vertices ms).Nodup ∧
      ((empty .parentToChild).after ms).containsVertex v = false := by
  intro v ms
  have short : ∀ {κ : Kind} {α : Type} (arena : Graph Unit Unit → Arena κ α) i,
      (empty .parentToChild).frees arena ms i < UInt32.size := fun arena i =>
    Nat.lt_of_le_of_lt (frees_le _ ms i) (by decide)
  have kept : .clear ∉ ms := by simp [ms]
  obtain ⟨vertices, -, times⟩ := stale_stay_stale .parentToChild kept (short _) (short _)
  have stale := (times 1 3 5 (by decide) (by decide)).1 v
  exact ⟨by decide, vertices, stale (by decide) (by decide)⟩

end Graph

end Provenance
