import Provenance.Proofs.Digraph.Layers
import Provenance.Proofs.Digraph.Routes

/-! # Searches of a part

A search that never leaves a part of the vertices depends on that part alone. Where the part is
found again under other numbers, among other vertices, the search does the same under these numbers.
-/

open Relation (ReflTransGen)

namespace Provenance

variable {n n' : Nat} {inside : Fin n → Prop} {f : Fin n → Fin n'}

/-- The numbers of a part in another digraph. A search of that leads from the part to where the
search of the first leads, in the same order, and neither leads out of the part. -/
structure Carries (inside : Fin n → Prop) (f : Fin n → Fin n') (next : Fin n → List (Fin n))
    (next' : Fin n' → List (Fin n')) : Prop where
  inj : ∀ {i j}, inside i → inside j → f i = f j → i = j
  closed : ∀ {i j}, inside i → j ∈ next i → inside j
  next_eq : ∀ {i}, inside i → next' (f i) = (next i).map f

/-- Two sets have the same members in a part. -/
def Agrees (inside : Fin n → Prop) (f : Fin n → Fin n') (s : VertexSet n) (s' : VertexSet n') :
    Prop :=
  ∀ i, inside i → (f i ∈ s' ↔ i ∈ s)

theorem agrees_empty : Agrees inside f ∅ ∅ := fun i _ => by simp

namespace Carries

variable {next : Fin n → List (Fin n)} {next' : Fin n' → List (Fin n')} {i j start : Fin n}
  {s : VertexSet n} {s' : VertexSet n'}

theorem apply_eq_iff (carries : Carries inside f next next') (first : inside i)
    (second : inside j) : f i = f j ↔ i = j :=
  ⟨carries.inj first second, congrArg f⟩

theorem insert (carries : Carries inside f next next') (agrees : Agrees inside f s s')
    (within : inside i) : Agrees inside f (s.insert i) (s'.insert (f i)) := by
  intro j here
  rw [VertexSet.mem_insert, VertexSet.mem_insert, carries.apply_eq_iff here within, agrees j here]

/-! ## Ways -/

theorem leads_iff (carries : Carries inside f next next') (first : inside i) (second : inside j) :
    Leads next' (f i) (f j) ↔ Leads next i j := by
  rw [Leads, carries.next_eq first, List.mem_map]
  constructor
  · rintro ⟨k, listed, same⟩
    rwa [← carries.inj (carries.closed first listed) second same]
  · exact fun listed => ⟨j, listed, rfl⟩

/-- What is reached from a part is in the part. -/
theorem inside_of_way (carries : Carries inside f next next') (within : inside start)
    (way : ReflTransGen (Leads next) start i) : inside i := by
  induction way with
  | refl => exact within
  | tail _ leads ih => exact carries.closed ih leads

theorem way_iff (carries : Carries inside f next next') (within : inside start) {v : Fin n'} :
    ReflTransGen (Leads next') (f start) v ↔
      ∃ i, ReflTransGen (Leads next) start i ∧ f i = v := by
  constructor
  · intro way
    induction way with
    | refl => exact ⟨start, .refl, rfl⟩
    | tail _ leads ih =>
        obtain ⟨i, way, rfl⟩ := ih
        rw [Leads, carries.next_eq (carries.inside_of_way within way)] at leads
        obtain ⟨j, listed, rfl⟩ := List.mem_map.mp leads
        exact ⟨j, way.tail listed, rfl⟩
  · rintro ⟨i, way, rfl⟩
    induction way with
    | refl => exact .refl
    | tail way leads ih =>
        have here := carries.inside_of_way within way
        exact ih.tail ((carries.leads_iff here (carries.closed here leads)).mpr leads)

theorem way_map_iff (carries : Carries inside f next next') (first : inside start)
    (second : inside i) :
    ReflTransGen (Leads next') (f start) (f i) ↔ ReflTransGen (Leads next) start i := by
  rw [carries.way_iff first]
  constructor
  · rintro ⟨j, way, same⟩
    rwa [← carries.inj (carries.inside_of_way first way) second same]
  · exact fun way => ⟨i, way, rfl⟩

/-! ## Queues -/

theorem mark_map (carries : Carries inside f next next') {vs : List (Fin n)}
    (within : ∀ v ∈ vs, inside v) (agrees : Agrees inside f s s') :
    (s'.mark (vs.map f)).1 = (s.mark vs).1.map f ∧
      Agrees inside f (s.mark vs).2 (s'.mark (vs.map f)).2 := by
  induction vs generalizing s s' with
  | nil => exact ⟨rfl, agrees⟩
  | cons v vs ih =>
      obtain ⟨here, rest⟩ := List.forall_mem_cons.mp within
      rw [List.map_cons, VertexSet.mark, VertexSet.mark]
      by_cases old : v ∈ s
      · rw [if_pos old, if_pos ((agrees v here).mpr old)]
        exact ih rest agrees
      · rw [if_neg old, if_neg (mt (agrees v here).mp old)]
        obtain ⟨fresh, marked⟩ := ih rest (carries.insert agrees here)
        exact ⟨congrArg (f v :: ·) fresh, marked⟩

theorem flood_map (carries : Carries inside f next next') {seen : VertexSet n}
    {seen' : VertexSet n'} (agrees : Agrees inside f seen seen') {queue : List (Fin n)}
    (within : ∀ v ∈ queue, inside v) :
    (flood next' seen' (queue.map f)).1 = (flood next seen queue).1.map f := by
  induction seen, queue using flood.induct next generalizing seen' with
  | case1 seen => rw [List.map_nil, flood_nil, flood_nil, List.map_nil]
  | case2 seen u queue ih =>
      obtain ⟨here, behind⟩ := List.forall_mem_cons.mp within
      have targets : ∀ v ∈ next u, inside v := fun v leads => carries.closed here leads
      obtain ⟨fresh, marked⟩ := carries.mark_map targets agrees
      rw [← carries.next_eq here] at fresh marked
      have later := ih marked fun v listed => (List.mem_append.mp listed).elim (behind v)
        fun new => targets v (VertexSet.mem_mark.mp new).1
      rw [List.map_append, ← fresh] at later
      rw [flood_cons, List.map_cons, flood_cons, later, List.map_cons]

theorem agrees_singleton (carries : Carries inside f next next') (within : inside start) :
    Agrees inside f (.ofList [start]) (.ofList [f start]) :=
  carries.insert agrees_empty within

theorem discover_map (carries : Carries inside f next next') (within : inside start) :
    discover next' (f start) = (discover next start).map f :=
  carries.flood_map (carries.agrees_singleton within) (List.forall_mem_singleton.mpr within)

/-! ## Frames -/

/-- A stack of frames in other numbers. -/
def frames (f : Fin n → Fin n') (frames : List (Frame n)) : List (Frame n') :=
  frames.map fun frame => (f frame.1, frame.2.map f)

theorem frames_leave (f : Fin n → Fin n') (u : Fin n) (stack : List (Frame n)) :
    frames f ((u, []) :: stack) = (f u, []) :: frames f stack := rfl

theorem frames_look (f : Fin n → Fin n') (u w : Fin n) (ws : List (Fin n))
    (stack : List (Frame n)) :
    frames f ((u, w :: ws) :: stack) = (f u, f w :: ws.map f) :: frames f stack := rfl

/-- An event in other numbers. -/
def event (f : Fin n → Fin n') : Event n → Event n'
  | .enter v => .enter (f v)
  | .leave v => .leave (f v)

theorem entered_map (f : Fin n → Fin n') (events : List (Event n)) :
    (events.map (event f)).filterMap Event.entered? =
      (events.filterMap Event.entered?).map f := by
  rw [List.filterMap_map, List.map_filterMap]
  refine List.filterMap_congr fun e _ => ?_
  cases e <;> rfl

/-- All vertices on a stack, and those that its frames have not looked at, are in a part. -/
def Within (inside : Fin n → Prop) (frames : List (Frame n)) : Prop :=
  ∀ frame ∈ frames, inside frame.1 ∧ ∀ w ∈ frame.2, inside w

theorem Within.leave {u : Fin n} {frames : List (Frame n)}
    (within : Within inside ((u, []) :: frames)) : Within inside frames :=
  fun frame listed => within frame (List.mem_cons_of_mem _ listed)

theorem Within.skip {u w : Fin n} {ws : List (Fin n)} {frames : List (Frame n)}
    (within : Within inside ((u, w :: ws) :: frames)) :
    inside w ∧ Within inside ((u, ws) :: frames) := by
  obtain ⟨⟨here, all⟩, rest⟩ := List.forall_mem_cons.mp within
  obtain ⟨first, later⟩ := List.forall_mem_cons.mp all
  exact ⟨first, List.forall_mem_cons.mpr ⟨⟨here, later⟩, rest⟩⟩

theorem within_enter (carries : Carries inside f next next') {frames : List (Frame n)}
    (here : inside i) (within : Within inside frames) :
    Within inside ((i, next i) :: frames) :=
  List.forall_mem_cons.mpr ⟨⟨here, fun _ => carries.closed here⟩, within⟩

theorem walkFrom_map (carries : Carries inside f next next') {seen : VertexSet n}
    {seen' : VertexSet n'} (agrees : Agrees inside f seen seen') {stack : List (Frame n)}
    (within : Within inside stack) :
    walkFrom next' seen' (frames f stack) = (walkFrom next seen stack).map (event f) := by
  match stack with
  | [] => simp [frames, walkFrom]
  | (u, []) :: stack =>
      have rest := walkFrom_map carries agrees within.leave
      rw [walkFrom, List.map_cons, ← rest, frames_leave, walkFrom]
      rfl
  | (u, w :: ws) :: stack =>
      obtain ⟨here, later⟩ := within.skip
      rw [walkFrom, frames_look, walkFrom]
      by_cases old : w ∈ seen
      · rw [if_pos old, if_pos ((agrees w here).mpr old)]
        exact walkFrom_map carries agrees later
      · have rest := walkFrom_map carries (carries.insert agrees here)
          (carries.within_enter here later)
        rw [if_neg old, if_neg (mt (agrees w here).mp old), List.map_cons, ← rest,
          carries.next_eq here]
        rfl
termination_by stepsLeft next seen stack
decreasing_by
  · exact stepsLeft_leave
  · exact stepsLeft_skip
  · exact stepsLeft_enter ‹_›

theorem walk_map (carries : Carries inside f next next') (within : inside start) :
    walk next' (f start) = (walk next start).map (event f) := by
  have alone : Within inside [(start, next start)] :=
    carries.within_enter within fun _ listed => absurd listed List.not_mem_nil
  have found := carries.walkFrom_map (carries.agrees_singleton within) alone
  rw [walk, walk, List.map_cons, ← found, carries.next_eq within]
  rfl

theorem closeFrom?_map (carries : Carries inside f next next') {seen closed : VertexSet n}
    {seen' closed' : VertexSet n'} (agrees : Agrees inside f seen seen')
    (agree_closed : Agrees inside f closed closed') (done : List (Fin n))
    {stack : List (Frame n)} (within : Within inside stack) :
    closeFrom? next' seen' closed' (done.map f) (frames f stack) =
      (closeFrom? next seen closed done stack).map (·.map f) := by
  match stack with
  | [] => simp [frames, closeFrom?]
  | (u, []) :: stack =>
      have here : inside u := (List.forall_mem_cons.mp within).1.1
      rw [closeFrom?, frames_leave, closeFrom?]
      exact closeFrom?_map carries agrees (carries.insert agree_closed here) (u :: done)
        within.leave
  | (u, w :: ws) :: stack =>
      obtain ⟨here, later⟩ := within.skip
      rw [closeFrom?, frames_look, closeFrom?]
      by_cases shut : w ∈ closed
      · rw [if_pos shut, if_pos ((agree_closed w here).mpr shut)]
        exact closeFrom?_map carries agrees agree_closed done later
      · rw [if_neg shut, if_neg (mt (agree_closed w here).mp shut)]
        by_cases old : w ∈ seen
        · rw [if_pos old, if_pos ((agrees w here).mpr old)]
          rfl
        · rw [if_neg old, if_neg (mt (agrees w here).mp old), carries.next_eq here]
          exact closeFrom?_map carries (carries.insert agrees here) agree_closed done
            (carries.within_enter here later)
termination_by stepsLeft next seen stack
decreasing_by
  · exact stepsLeft_leave
  · exact stepsLeft_skip
  · exact stepsLeft_enter ‹_›

end Carries

end Provenance
