import Provenance.Graph.Search
import Provenance.Proofs.Digraph.Carrying
import Provenance.Proofs.Digraph.Dominators

/-! # Parts below a root

A search from a root meets the vertices of a part in the order in which it would meet them if there
were no others, as long as no other vertex leads into the part. So what the root reaches only
through a vertex of the part depends on the part alone.
-/

open Relation (ReflTransGen)

namespace Provenance

variable {n : Nat} {next : Fin n → List (Fin n)}

/-! ## Leaving out the rest -/

/-- The search that does not leave a part. -/
def restrict (inside : Fin n → Prop) [DecidablePred inside] (next : Fin n → List (Fin n))
    (u : Fin n) : List (Fin n) :=
  (next u).filter inside

/-- No vertex outside of a part leads into it. -/
def Shut (inside : Fin n → Prop) (next : Fin n → List (Fin n)) : Prop :=
  ∀ u w, Leads next u w → inside w → inside u

variable {inside : Fin n → Prop} [DecidablePred inside] {u w start : Fin n}
  {s s' : VertexSet n}

theorem leads_restrict : Leads (restrict inside next) u w ↔ Leads next u w ∧ inside w := by
  simp [Leads, restrict]

theorem Shut.way_iff (shut : Shut inside next) (there : inside w) :
    ReflTransGen (Leads (restrict inside next)) u w ↔ ReflTransGen (Leads next) u w := by
  constructor
  · exact ReflTransGen.mono (fun _ _ leads => (leads_restrict.mp leads).1) _ _
  · intro way
    induction way with
    | refl => exact .refl
    | tail _ leads ih => exact (ih (shut _ _ leads there)).tail (leads_restrict.mpr ⟨leads, there⟩)

theorem Shut.restrict_eq_nil (shut : Shut inside next) (outside : ¬ inside u) :
    restrict inside next u = [] :=
  List.filter_eq_nil_iff.mpr fun w listed there =>
    outside (shut u w listed (of_decide_eq_true there))

/-- Two sets have the same members in a part. -/
def SameWithin (inside : Fin n → Prop) (s s' : VertexSet n) : Prop :=
  ∀ v, inside v → (v ∈ s' ↔ v ∈ s)

omit [DecidablePred inside] in
theorem SameWithin.insert (same : SameWithin inside s s') (v : Fin n) :
    SameWithin inside (s.insert v) (s'.insert v) := by
  intro w there
  rw [VertexSet.mem_insert, VertexSet.mem_insert, same w there]

omit [DecidablePred inside] in
theorem SameWithin.insert_outside (same : SameWithin inside s s') {v : Fin n}
    (outside : ¬ inside v) : SameWithin inside (s.insert v) s' := by
  intro w there
  have other : w ≠ v := fun equal => outside (equal ▸ there)
  rw [VertexSet.mem_insert, or_iff_right other, same w there]

/-! ## Queues -/

theorem filter_mark (same : SameWithin inside s s') (vs : List (Fin n)) :
    (s.mark vs).1.filter inside = (s'.mark (vs.filter inside)).1 := by
  induction vs generalizing s s' with
  | nil => rfl
  | cons v vs ih =>
      rw [VertexSet.mark]
      by_cases here : inside v
      · rw [List.filter_cons_of_pos (by simpa using here), VertexSet.mark]
        by_cases old : v ∈ s
        · rw [if_pos old, if_pos ((same v here).mpr old), ih same]
        · rw [if_neg old, if_neg (mt (same v here).mp old)]
          dsimp only
          rw [List.filter_cons_of_pos (by simpa using here), ih (same.insert v)]
      · rw [List.filter_cons_of_neg (by simpa using here)]
        by_cases old : v ∈ s
        · rw [if_pos old, ih same]
        · rw [if_neg old, List.filter_cons_of_neg (by simpa using here),
            ih (same.insert_outside here)]

theorem SameWithin.mark (same : SameWithin inside s s') (vs : List (Fin n)) :
    SameWithin inside (s.mark vs).2 (s'.mark (vs.filter inside)).2 := by
  intro v here
  rw [VertexSet.mem_marked, VertexSet.mem_marked, VertexSet.mem_mark, VertexSet.mem_mark,
    List.mem_filter, decide_eq_true here, same v here]
  simp

theorem Shut.filter_flood (shut : Shut inside next) {seen seen' : VertexSet n}
    (same : SameWithin inside seen seen') (queue : List (Fin n)) :
    (flood next seen queue).1.filter inside =
      (flood (restrict inside next) seen' (queue.filter inside)).1 := by
  induction seen, queue using flood.induct next generalizing seen' with
  | case1 seen => rw [flood_nil, List.filter_nil, flood_nil]
  | case2 seen u queue ih =>
      have fresh := filter_mark same (next u)
      have later := ih (same.mark (next u))
      rw [List.filter_append, fresh] at later
      rw [flood_cons]
      by_cases here : inside u
      · rw [List.filter_cons_of_pos (by simpa using here), later,
          List.filter_cons_of_pos (by simpa using here), flood_cons]
        rfl
      · -- outside of the part no vertex of it is met
        have nothing : (next u).filter inside = [] := shut.restrict_eq_nil here
        rw [nothing, VertexSet.mark, List.append_nil] at later
        rw [List.filter_cons_of_neg (by simpa using here), later,
          List.filter_cons_of_neg (by simpa using here)]

theorem Shut.filter_discover (shut : Shut inside next) (here : inside start) :
    (discover next start).filter inside = discover (restrict inside next) start := by
  have same : SameWithin inside (.ofList [start]) (.ofList [start]) := fun _ _ => .rfl
  have found := shut.filter_flood same [start]
  rwa [List.filter_cons_of_pos (by simpa using here)] at found

/-! ## Walks -/

/-- What is left of a stack if the vertices outside of a part are left out. -/
def restrictFrames (inside : Fin n → Prop) [DecidablePred inside] :
    List (Frame n) → List (Frame n)
  | [] => []
  | (u, ws) :: frames =>
      if inside u then (u, ws.filter inside) :: restrictFrames inside frames
      else restrictFrames inside frames

/-- A frame lists a vertex of the part only if its own vertex is one. -/
def ShutFrames (inside : Fin n → Prop) (frames : List (Frame n)) : Prop :=
  ∀ frame ∈ frames, ∀ w ∈ frame.2, inside w → inside frame.1

theorem Shut.filter_walkFrom (shut : Shut inside next) {frames : List (Frame n)}
    (shut_frames : ShutFrames inside frames) (same : SameWithin inside s s') :
    ((walkFrom next s frames).filterMap Event.entered?).filter inside =
      (walkFrom (restrict inside next) s' (restrictFrames inside frames)).filterMap
        Event.entered? := by
  fun_induction walkFrom next s frames generalizing s' with
  | case1 => simp [restrictFrames, walkFrom]
  | case2 seen u frames ih =>
      obtain ⟨-, below⟩ := List.forall_mem_cons.mp shut_frames
      rw [List.filterMap_cons_none rfl, ih below same, restrictFrames]
      by_cases here : inside u
      · rw [if_pos here, List.filter_nil, walkFrom, List.filterMap_cons_none rfl]
      · rw [if_neg here]
  | case3 seen u w ws frames marked ih =>
      obtain ⟨top, below⟩ := List.forall_mem_cons.mp shut_frames
      obtain ⟨first, later⟩ := List.forall_mem_cons.mp top
      rw [ih (List.forall_mem_cons.mpr ⟨later, below⟩) same, restrictFrames, restrictFrames]
      by_cases there : inside w
      · rw [if_pos (first there), if_pos (first there),
          List.filter_cons_of_pos (by simpa using there), walkFrom,
          if_pos ((same w there).mpr marked)]
      · rw [List.filter_cons_of_neg (by simpa using there)]
  | case4 seen u w ws frames new ih =>
      obtain ⟨top, below⟩ := List.forall_mem_cons.mp shut_frames
      obtain ⟨first, later⟩ := List.forall_mem_cons.mp top
      have entered : ShutFrames inside ((w, next w) :: (u, ws) :: frames) :=
        List.forall_mem_cons.mpr ⟨shut w, List.forall_mem_cons.mpr ⟨later, below⟩⟩
      rw [List.filterMap_cons_some (f := Event.entered?) (b := w) rfl]
      by_cases there : inside w
      · rw [List.filter_cons_of_pos (by simpa using there), ih entered (same.insert w),
          restrictFrames, restrictFrames, restrictFrames, if_pos there, if_pos (first there),
          if_pos (first there), List.filter_cons_of_pos (by simpa using there), walkFrom,
          if_neg (mt (same w there).mp new),
          List.filterMap_cons_some (f := Event.entered?) (b := w) rfl]
        rfl
      · rw [List.filter_cons_of_neg (by simpa using there),
          ih entered (same.insert_outside there), restrictFrames, restrictFrames, restrictFrames,
          if_neg there, List.filter_cons_of_neg (by simpa using there)]

theorem Shut.filter_walk (shut : Shut inside next) (here : inside start) :
    ((walk next start).filterMap Event.entered?).filter inside =
      (walk (restrict inside next) start).filterMap Event.entered? := by
  have alone : ShutFrames inside [(start, next start)] :=
    List.forall_mem_singleton.mpr (shut start)
  have found := shut.filter_walkFrom alone (s := .ofList [start]) fun _ _ => .rfl
  rw [restrictFrames, if_pos here, restrictFrames] at found
  rw [walk, walk, List.filterMap_cons_some (f := Event.entered?) (b := start) rfl,
    List.filterMap_cons_some (f := Event.entered?) (b := start) rfl,
    List.filter_cons_of_pos (by simpa using here), found]
  rfl

/-! ## Dominance -/

/-- The search that enters a vertex on no account. -/
def avoid (x : Fin n) (next : Fin n → List (Fin n)) (u : Fin n) : List (Fin n) :=
  (next u).filter (· ≠ x)

theorem leads_avoid {x : Fin n} : Leads (avoid x next) u w ↔ Leads next u w ∧ w ≠ x := by
  simp [Leads, avoid]

theorem dominates_iff {root x v : Fin n} :
    Dominates next root x v ↔ (x ≠ root → ¬ ReflTransGen (Leads (avoid x next)) root v) := by
  have same : Leads (avoid x next) = fun u w => Leads next u w ∧ w ≠ x := by
    funext u w
    exact propext leads_avoid
  rw [Dominates, same]

theorem Shut.dominates_iff (shut : Shut inside next) {root x v : Fin n} (here : inside v) :
    Dominates (restrict inside next) root x v ↔ Dominates next root x v := by
  have shut_avoid : Shut inside (avoid x next) :=
    fun u w leads there => shut u w (leads_avoid.mp leads).1 there
  have swap : avoid x (restrict inside next) = restrict inside (avoid x next) := by
    funext u
    exact List.filter_comm _ _ _
  rw [Provenance.dominates_iff, Provenance.dominates_iff, swap, shut_avoid.way_iff here]

variable {n' : Nat} {f : Fin n → Fin n'} {next' : Fin n' → List (Fin n')}

omit [DecidablePred inside] in
theorem Carries.avoid (carries : Carries inside f next next') {x : Fin n} (here : inside x) :
    Carries inside f (avoid x next) (Provenance.avoid (f x) next') where
  inj := carries.inj
  closed there listed := carries.closed there (List.mem_filter.mp listed).1
  next_eq := by
    intro i there
    rw [Provenance.avoid, carries.next_eq there, List.filter_map, Provenance.avoid]
    refine congrArg (List.map f) (List.filter_congr fun j listed => ?_)
    simp [carries.apply_eq_iff (carries.closed there listed) here]

omit [DecidablePred inside] in
theorem Carries.dominates_iff (carries : Carries inside f next next') {root x v : Fin n}
    (root_inside : inside root) (first : inside x) (second : inside v) :
    Dominates next' (f root) (f x) (f v) ↔ Dominates next root x v := by
  rw [Provenance.dominates_iff, Provenance.dominates_iff, ne_eq,
    carries.apply_eq_iff first root_inside,
    (carries.avoid first).way_map_iff root_inside second]

/-! ## What hangs on a root -/

/-- A part of the vertices that can be reached from a root. Only the root leads out of it, and none
leads to the root. -/
structure HangsFrom (root : Fin n) (inside : Fin n → Prop) (next : Fin n → List (Fin n)) :
    Prop where
  root_inside : inside root
  shut : Shut inside next
  closed : ∀ u w, u ≠ root → inside u → Leads next u w → inside w
  source : ∀ u, ¬ Leads next u root

omit [DecidablePred inside] in
/-- What the root reaches only through a vertex of the part is in the part. -/
theorem HangsFrom.inside_of_dominated {root x v : Fin n} (hangs : HangsFrom root inside next)
    (here : inside x) (other : x ≠ root) (reached : ReflTransGen (Leads next) root v)
    (dominates : Dominates next root x v) : inside v := by
  have either : ReflTransGen (Leads (avoid x next)) root v ∨ v ≠ root ∧ inside v := by
    clear dominates
    induction reached with
    | refl => exact .inl .refl
    | @tail u w _ leads ih =>
        have off_root : w ≠ root := fun same => hangs.source u (same ▸ leads)
        by_cases same : w = x
        · exact .inr ⟨off_root, same ▸ here⟩
        rcases ih with around | ⟨below, within⟩
        · exact .inl (around.tail (leads_avoid.mpr ⟨leads, same⟩))
        · exact .inr ⟨off_root, hangs.closed u w below within leads⟩
  exact (either.resolve_left (dominates_iff.mp dominates other)).2

/-- The members of a set that lies in the part are found in the part. -/
theorem filter_mem_eq (sub : ∀ v ∈ s, inside v) (vs : List (Fin n)) :
    vs.filter (· ∈ s) = (vs.filter inside).filter (· ∈ s) := by
  rw [List.filter_filter]
  refine List.filter_congr fun v _ => ?_
  by_cases member : v ∈ s
  · simp [member, sub v member]
  · simp [member]

namespace Digraph

variable {d : Digraph n} {d' : Digraph n'} {way : Way} {root a : Fin n}
  {inside' : Fin n' → Prop} [DecidablePred inside']

theorem mem_search {order : SearchOrder} {v : Fin n} :
    v ∈ order.search d way root ↔ ReflTransGen (Leads (d.neighbors way)) root v := by
  cases order with
  | breadthFirst => exact mem_discover
  | depthFirst => exact mem_depthFirst

omit [DecidablePred inside] in
theorem search_map (order : SearchOrder)
    (carries : Carries inside f (d.neighbors way) (d'.neighbors way)) (here : inside root) :
    order.search d' way (f root) = (order.search d way root).map f := by
  cases order with
  | breadthFirst => exact carries.discover_map here
  | depthFirst =>
      rw [SearchOrder.search, SearchOrder.search, depthFirst, depthFirst, carries.walk_map here,
        Carries.entered_map]

theorem filter_search (order : SearchOrder) (shut : Shut inside (d.neighbors way))
    (shut' : Shut inside' (d'.neighbors way))
    (carries : Carries inside f (restrict inside (d.neighbors way))
      (restrict inside' (d'.neighbors way)))
    (here : inside root) (here' : inside' (f root)) :
    (order.search d' way (f root)).filter inside' =
      ((order.search d way root).filter inside).map f := by
  cases order with
  | breadthFirst =>
      have first : (d.breadthFirst way root).filter inside = _ := shut.filter_discover here
      have second : (d'.breadthFirst way (f root)).filter inside' = _ :=
        shut'.filter_discover here'
      rw [SearchOrder.search, SearchOrder.search, first, second, carries.discover_map here]
  | depthFirst =>
      have first : (d.depthFirst way root).filter inside = _ := shut.filter_walk here
      have second : (d'.depthFirst way (f root)).filter inside' = _ := shut'.filter_walk here'
      rw [SearchOrder.search, SearchOrder.search, first, second, carries.walk_map here,
        Carries.entered_map]

/-- What hangs on a root by a part of its own is found by the numbers of that part alone. -/
theorem dominated_map (order : SearchOrder) (hangs : HangsFrom root inside (d.neighbors way))
    (hangs' : HangsFrom (f root) inside' (d'.neighbors way))
    (carries : Carries inside f (restrict inside (d.neighbors way))
      (restrict inside' (d'.neighbors way)))
    (mapped : ∀ i, inside i → inside' (f i)) (here : inside a) (other : a ≠ root) :
    (order.search d' way (f root)).filter (· ∈ (d'.dominators way (f root)).below (f a)) =
      ((order.search d way root).filter (· ∈ (d.dominators way root).below a)).map f := by
  have other' : f a ≠ f root := mt (carries.inj here hangs.root_inside) other
  have within : ∀ v, v ∈ (d.dominators way root).below a → inside v := by
    intro v below
    rcases mem_below.mp below with rfl | ⟨reached, dominates⟩
    · exact here
    · exact hangs.inside_of_dominated here other reached dominates
  have within' : ∀ v, v ∈ (d'.dominators way (f root)).below (f a) → inside' v := by
    intro v below
    rcases mem_below.mp below with rfl | ⟨reached, dominates⟩
    · exact mapped a here
    · exact hangs'.inside_of_dominated (mapped a here) other' reached dominates
  have below_iff : ∀ v, inside v → (f v ∈ (d'.dominators way (f root)).below (f a) ↔
      v ∈ (d.dominators way root).below a) := by
    intro v there
    rw [mem_below, mem_below, carries.apply_eq_iff there here, ← hangs.shut.way_iff there,
      ← hangs'.shut.way_iff (mapped v there), ← hangs.shut.dominates_iff there,
      ← hangs'.shut.dominates_iff (mapped v there),
      carries.way_map_iff hangs.root_inside there,
      carries.dominates_iff hangs.root_inside here there]
  rw [filter_mem_eq within, filter_mem_eq within',
    filter_search order hangs.shut hangs'.shut carries hangs.root_inside hangs'.root_inside,
    List.filter_map]
  refine congrArg (List.map f) (List.filter_congr fun v listed => ?_)
  have there : inside v := of_decide_eq_true (List.mem_filter.mp listed).2
  simp [below_iff v there]

end Digraph

end Provenance
