import Provenance.Digraph.Walk
import Provenance.Proofs.Digraph.Ways

/-! # Depth-first search

The frames of a stack are joined from the bottom to the top, and a vertex is left once all of its
neighbours have been. So meeting a vertex of the stack again closes a cycle, and without that every
vertex that was left stands before its neighbours. With or without cycles the walk enters what can
be reached, each vertex from one that it leaves later.
-/

open Relation (TransGen ReflTransGen)

namespace Provenance

variable {n : Nat} {next : Fin n → List (Fin n)}

/-! ## What is entered is left -/

/-- A walk leaves the vertices on its stack and those that it enters. -/
theorem left_perm (next : Fin n → List (Fin n)) (seen : VertexSet n) (frames : List (Frame n)) :
    List.Perm ((walkFrom next seen frames).filterMap Event.left?)
      (frames.map Prod.fst ++ (walkFrom next seen frames).filterMap Event.entered?) := by
  fun_induction walkFrom next seen frames with
  | case1 => exact .refl _
  | case2 seen u frames ih => exact ih.cons u
  | case3 seen u w ws frames marked ih => exact ih
  | case4 seen u w ws frames new ih =>
      apply ih.trans
      exact List.perm_middle.symm

/-! ## What is entered -/

theorem entered_new (next : Fin n → List (Fin n)) (seen : VertexSet n) (frames : List (Frame n)) :
    ∀ v ∈ (walkFrom next seen frames).filterMap Event.entered?, v ∉ seen := by
  fun_induction walkFrom next seen frames with
  | case1 => simp
  | case2 seen u frames ih => exact ih
  | case3 seen u w ws frames marked ih => exact ih
  | case4 seen u w ws frames new ih =>
      intro v entered
      rcases List.mem_cons.mp entered with rfl | later
      · exact new
      · exact fun marked => ih v later (VertexSet.mem_insert.mpr (.inr marked))

theorem nodup_entered (next : Fin n → List (Fin n)) (seen : VertexSet n)
    (frames : List (Frame n)) : ((walkFrom next seen frames).filterMap Event.entered?).Nodup := by
  fun_induction walkFrom next seen frames with
  | case1 => exact List.nodup_nil
  | case2 seen u frames ih => exact ih
  | case3 seen u w ws frames marked ih => exact ih
  | case4 seen u w ws frames new ih =>
      refine List.nodup_cons.mpr ⟨?_, ih⟩
      intro again
      exact entered_new next _ _ w again (VertexSet.mem_insert.mpr (.inl rfl))

/-- The vertices that a stack holds and has not looked at stand in a relation to theirs. -/
def Listed (related : Fin n → Fin n → Prop) (frames : List (Frame n)) : Prop :=
  ∀ frame ∈ frames, ∀ w ∈ frame.2, related frame.1 w

namespace Listed

variable {related : Fin n → Fin n → Prop} {u w : Fin n} {ws : List (Fin n)}
  {frames : List (Frame n)}

theorem below {frame : Frame n} (listed : Listed related (frame :: frames)) :
    Listed related frames :=
  fun frame stacked => listed frame (List.mem_cons_of_mem _ stacked)

theorem top (listed : Listed related ((u, w :: ws) :: frames)) : related u w :=
  listed (u, w :: ws) List.mem_cons_self w List.mem_cons_self

theorem cons (listed : Listed related frames) (here : ∀ w ∈ ws, related u w) :
    Listed related ((u, ws) :: frames) := by
  intro frame stacked w left
  rcases List.mem_cons.mp stacked with rfl | below
  · exact here w left
  · exact listed frame below w left

theorem skip (listed : Listed related ((u, w :: ws) :: frames)) :
    Listed related ((u, ws) :: frames) :=
  listed.below.cons fun x left =>
    listed (u, w :: ws) List.mem_cons_self x (List.mem_cons_of_mem w left)

end Listed

/-- What is entered can be reached from the lists of the stack. -/
theorem entered_of_closed {Reached : Fin n → Prop} {seen : VertexSet n} {frames : List (Frame n)}
    (closed : ∀ u w, Reached u → Leads next u w → Reached w)
    (listed : Listed (fun _ => Reached) frames) :
    ∀ v ∈ (walkFrom next seen frames).filterMap Event.entered?, Reached v := by
  fun_induction walkFrom next seen frames with
  | case1 => simp
  | case2 seen u frames ih => exact ih listed.below
  | case3 seen u w ws frames marked ih => exact ih listed.skip
  | case4 seen u w ws frames new ih =>
      intro v entered
      rcases List.mem_cons.mp entered with rfl | later
      · exact listed.top
      · exact ih (listed.skip.cons fun x leads => closed w x listed.top leads) v later

/-- Nothing that the lists of the stack or an entered vertex lead to is left out. -/
theorem entered_complete (next : Fin n → List (Fin n)) (seen : VertexSet n)
    (frames : List (Frame n)) :
    let entered := (walkFrom next seen frames).filterMap Event.entered?
    Listed (fun _ w => w ∈ seen ∨ w ∈ entered) frames ∧
      ∀ v ∈ entered, ∀ w, Leads next v w → w ∈ seen ∨ w ∈ entered := by
  fun_induction walkFrom next seen frames with
  | case1 => simp [Listed]
  | case2 seen u frames ih => exact ⟨ih.1.cons (by simp), ih.2⟩
  | case3 seen u w ws frames marked ih =>
      refine ⟨ih.1.below.cons fun x left => ?_, ih.2⟩
      rcases List.mem_cons.mp left with rfl | later
      · exact .inl marked
      · exact ih.1 (u, ws) List.mem_cons_self x later
  | case4 seen u w ws frames new ih =>
      intro entered
      obtain ⟨stacked, closed⟩ := ih
      have found : ∀ x, (x ∈ seen.insert w ∨ x ∈ (walkFrom next (seen.insert w)
          ((w, next w) :: (u, ws) :: frames)).filterMap Event.entered?) → x ∈ seen ∨ x ∈ entered := by
        intro x either
        rw [VertexSet.mem_insert] at either
        rcases either with (rfl | marked) | later
        · exact .inr List.mem_cons_self
        · exact .inl marked
        · exact .inr (List.mem_cons_of_mem w later)
      refine ⟨Listed.cons (fun frame below x left => ?_) fun x left => ?_, fun v here x leads => ?_⟩
      · exact found x (stacked.below.below frame below x left)
      · rcases List.mem_cons.mp left with rfl | later
        · exact .inr List.mem_cons_self
        · exact found x (stacked.below (u, ws) List.mem_cons_self x later)
      · apply found
        rcases List.mem_cons.mp here with rfl | later
        · exact stacked (v, next v) List.mem_cons_self x leads
        · exact closed v later x leads

/-- The vertices of the stack are left from the top to the bottom. -/
theorem stack_sublist (next : Fin n → List (Fin n)) (seen : VertexSet n)
    (frames : List (Frame n)) :
    List.Sublist (frames.map Prod.fst) ((walkFrom next seen frames).filterMap Event.left?) := by
  fun_induction walkFrom next seen frames with
  | case1 => exact .slnil
  | case2 seen u frames ih => exact ih.cons_cons u
  | case3 seen u w ws frames marked ih => exact ih
  | case4 seen u w ws frames new ih => exact (List.sublist_cons_self w _).trans ih

/-- A vertex is entered from one that is left after it. -/
theorem entered_from {seen : VertexSet n} {frames : List (Frame n)}
    (listed : Listed (Leads next) frames) :
    ∀ v ∈ (walkFrom next seen frames).filterMap Event.entered?, ∃ u, Leads next u v ∧
      List.Sublist [v, u] ((walkFrom next seen frames).filterMap Event.left?) := by
  fun_induction walkFrom next seen frames with
  | case1 => simp
  | case2 seen u frames ih =>
      intro v entered
      obtain ⟨x, leads, before⟩ := ih listed.below v entered
      exact ⟨x, leads, before.cons u⟩
  | case3 seen u w ws frames marked ih => exact ih listed.skip
  | case4 seen u w ws frames new ih =>
      intro v entered
      rcases List.mem_cons.mp entered with rfl | later
      · have stacked := stack_sublist next (seen.insert v) ((v, next v) :: (u, ws) :: frames)
        refine ⟨u, listed.top, List.Sublist.trans ?_ stacked⟩
        exact ((List.nil_sublist _).cons_cons u).cons_cons v
      · exact ih (listed.skip.cons fun x leads => leads) v later

/-! ## Lists that point ahead -/

/-- The neighbours of every vertex of a list come after it. -/
def Ahead (next : Fin n → List (Fin n)) : List (Fin n) → Prop
  | [] => True
  | u :: rest => (∀ w, Leads next u w → w ∈ rest) ∧ Ahead next rest

namespace Ahead

variable {order : List (Fin n)}

theorem mem (ahead : Ahead next order) {u w : Fin n} (listed : u ∈ order) (leads : Leads next u w) :
    w ∈ order := by
  induction order with
  | nil => cases listed
  | cons v rest ih =>
      rcases List.mem_cons.mp listed with rfl | later
      · exact List.mem_cons_of_mem _ (ahead.1 w leads)
      · exact List.mem_cons_of_mem _ (ih ahead.2 later)

theorem idxOf_lt (ahead : Ahead next order) (nodup : order.Nodup) {u w : Fin n}
    (listed : u ∈ order) (leads : Leads next u w) : order.idxOf u < order.idxOf w := by
  induction order with
  | nil => cases listed
  | cons v rest ih =>
      obtain ⟨new, nodup⟩ := List.nodup_cons.mp nodup
      have other : ∀ {x}, x ∈ rest → v ≠ x := fun later same => new (same ▸ later)
      rcases List.mem_cons.mp listed with rfl | later
      · rw [List.idxOf_cons_self, List.idxOf_cons_ne _ (other (ahead.1 w leads))]
        exact Nat.succ_pos _
      · rw [List.idxOf_cons_ne _ (other later), List.idxOf_cons_ne _ (other (ahead.2.mem later leads))]
        exact Nat.succ_lt_succ (ih ahead.2 nodup later)

theorem mem_of_way (ahead : Ahead next order) {u w : Fin n} (listed : u ∈ order)
    (way : ReflTransGen (Leads next) u w) : w ∈ order := by
  induction way with
  | refl => exact listed
  | tail _ leads ih => exact ahead.mem ih leads

theorem acyclic (ahead : Ahead next order) (nodup : order.Nodup) {u : Fin n} (listed : u ∈ order) :
    ¬ TransGen (Leads next) u u := by
  have later : ∀ {w}, TransGen (Leads next) u w → order.idxOf u < order.idxOf w := by
    intro w way
    induction way with
    | single leads => exact ahead.idxOf_lt nodup listed leads
    | tail way leads ih =>
        have here := ahead.mem_of_way listed way.to_reflTransGen
        exact Nat.lt_trans ih (ahead.idxOf_lt nodup here leads)
  intro cycle
  exact Nat.lt_irrefl _ (later cycle)

end Ahead

/-! ## The walk that closes vertices -/

/-- No cycle can be reached. -/
def Clear {α : Type} (r : α → α → Prop) (a : α) : Prop := ∀ v, ReflTransGen r a v → ¬ TransGen r v v

theorem Clear.no_way_back {α : Type} {r : α → α → Prop} {a b : α} (clear : Clear r a)
    (apart : a ≠ b) (forth : ReflTransGen r a b) (back : ReflTransGen r b a) : False := by
  have way := (Relation.reflTransGen_iff_eq_or_transGen.mp forth).resolve_left apart.symm
  exact clear a .refl (way.trans_left back)

/-- The frames of a stack below a vertex. Each leads to the one above it, and those neighbours that
have not been looked at are listed in the frame. -/
def Looking (next : Fin n → List (Fin n)) (done : List (Fin n)) :
    Option (Fin n) → List (Frame n) → Prop
  | _, [] => True
  | above, (u, ws) :: frames =>
      (∀ w, Leads next u w → w ∈ ws ∨ w ∈ done ∨ w ∈ above) ∧ (∀ w ∈ ws, Leads next u w) ∧
        (∀ w ∈ above, Leads next u w) ∧ Looking next done (some u) frames

theorem Looking.mono {done done' : List (Fin n)} {above above' : Option (Fin n)}
    {frames : List (Frame n)} (looking : Looking next done above frames) (more : done ⊆ done')
    (passed : ∀ w ∈ above, w ∈ done' ∨ w ∈ above') (kept : ∀ w ∈ above', w ∈ above) :
    Looking next done' above' frames := by
  induction frames generalizing above above' with
  | nil => trivial
  | cons frame frames ih =>
      obtain ⟨looked, listed, joined, below⟩ := looking
      refine ⟨?_, listed, fun w up => joined w (kept w up), ?_⟩
      · intro w leads
        rcases looked w leads with left | closed | up
        · exact .inl left
        · exact .inr (.inl (more closed))
        · exact .inr (passed w up)
      · exact ih below (fun w up => .inr up) fun w up => up

/-- Every vertex of a stack leads to the one on top. -/
theorem Looking.way_to_top {done : List (Fin n)} {above : Option (Fin n)} {u : Fin n}
    {ws : List (Fin n)} {frames : List (Frame n)}
    (looking : Looking next done above ((u, ws) :: frames)) {v : Fin n}
    (listed : v ∈ ((u, ws) :: frames).map Prod.fst) : ReflTransGen (Leads next) v u := by
  induction frames generalizing u ws above with
  | nil =>
      obtain rfl : v = u := by simpa using listed
      exact .refl
  | cons frame frames ih =>
      obtain ⟨-, -, -, below⟩ := looking
      rcases List.mem_cons.mp listed with rfl | deeper
      · exact .refl
      · exact (ih below deeper).tail (below.2.2.1 u rfl)

/-- A stage of the walk from a vertex: what has been seen is on the stack or done. -/
structure Closing (next : Fin n → List (Fin n)) (start : Fin n) (seen closed : VertexSet n)
    (done : List (Fin n)) (frames : List (Frame n)) : Prop where
  mem_closed : ∀ v, v ∈ closed ↔ v ∈ done
  mem_seen : ∀ v, v ∈ seen ↔ v ∈ frames.map Prod.fst ∨ v ∈ done
  nodup : (frames.map Prod.fst ++ done).Nodup
  ahead : Ahead next done
  looking : Looking next done none frames
  reached : ∀ v ∈ seen, ReflTransGen (Leads next) start v
  started : start ∈ seen

namespace Closing

variable {start u w : Fin n} {seen closed : VertexSet n} {done : List (Fin n)}
  {ws : List (Fin n)} {frames : List (Frame n)}

theorem init (next : Fin n → List (Fin n)) (start : Fin n) :
    Closing next start (VertexSet.ofList [start]) ∅ [] [(start, next start)] where
  mem_closed v := by simp
  mem_seen v := by simp
  nodup := by simp
  ahead := trivial
  looking := ⟨fun w leads => .inl leads, fun w listed => listed, by simp, trivial⟩
  reached v marked := by
    obtain rfl : v = start := by simpa using marked
    exact .refl
  started := by simp

theorem leave (closing : Closing next start seen closed done ((u, []) :: frames)) :
    Closing next start seen (closed.insert u) (u :: done) frames := by
  have perm : List.Perm (frames.map Prod.fst ++ u :: done)
      (((u, []) :: frames).map Prod.fst ++ done) := List.perm_middle
  obtain ⟨looked, -, -, below⟩ := closing.looking
  refine ⟨?_, ?_, ?_, ⟨?_, closing.ahead⟩, ?_, closing.reached, closing.started⟩
  · intro v
    rw [VertexSet.mem_insert, List.mem_cons, closing.mem_closed]
  · intro v
    rw [closing.mem_seen, ← List.mem_append, ← List.mem_append]
    exact perm.mem_iff.symm
  · exact perm.nodup_iff.mpr closing.nodup
  · intro w leads
    rcases looked w leads with left | closed | up
    · cases left
    · exact closed
    · cases up
  · apply below.mono (List.subset_cons_self u done)
    · intro w up
      obtain rfl := Option.some.inj up
      exact .inl List.mem_cons_self
    · intro w up
      cases up

theorem skip (closing : Closing next start seen closed done ((u, w :: ws) :: frames))
    (passed : w ∈ closed) : Closing next start seen closed done ((u, ws) :: frames) := by
  obtain ⟨looked, listed, joined, below⟩ := closing.looking
  refine { closing with looking := ⟨?_, ?_, joined, below⟩ }
  · intro x leads
    rcases looked x leads with left | closed | up
    · rcases List.mem_cons.mp left with rfl | later
      · exact .inr (.inl ((closing.mem_closed x).mp passed))
      · exact .inl later
    · exact .inr (.inl closed)
    · exact .inr (.inr up)
  · exact fun x later => listed x (List.mem_cons_of_mem w later)

theorem enter (closing : Closing next start seen closed done ((u, w :: ws) :: frames))
    (new : w ∉ seen) :
    Closing next start (seen.insert w) closed done ((w, next w) :: (u, ws) :: frames) := by
  obtain ⟨looked, listed, joined, below⟩ := closing.looking
  have leads : Leads next u w := listed w List.mem_cons_self
  refine ⟨closing.mem_closed, ?_, ?_, closing.ahead, ⟨?_, ?_, ?_, ?_, ?_, ?_, below⟩, ?_, ?_⟩
  · intro v
    simp only [VertexSet.mem_insert, closing.mem_seen, List.map_cons, List.mem_cons, or_assoc]
  · refine List.nodup_cons.mpr ⟨?_, closing.nodup⟩
    intro old
    exact new ((closing.mem_seen w).mpr (List.mem_append.mp old))
  · exact fun x leads => .inl leads
  · exact fun x listed => listed
  · simp
  · intro x leads
    rcases looked x leads with left | closed | up
    · rcases List.mem_cons.mp left with rfl | later
      · exact .inr (.inr rfl)
      · exact .inl later
    · exact .inr (.inl closed)
    · cases up
  · exact fun x later => listed x (List.mem_cons_of_mem w later)
  · intro x up
    obtain rfl := Option.some.inj up
    exact leads
  · intro v marked
    rcases VertexSet.mem_insert.mp marked with rfl | before
    · have top := (closing.mem_seen u).mpr (.inl List.mem_cons_self)
      exact (closing.reached u top).tail leads
    · exact closing.reached v before
  · exact VertexSet.mem_insert.mpr (.inr closing.started)

/-- A vertex that is met while it is on the stack lies on a cycle. -/
theorem cycle (closing : Closing next start seen closed done ((u, w :: ws) :: frames))
    (open_ : w ∉ closed) (met : w ∈ seen) :
    ReflTransGen (Leads next) start w ∧ TransGen (Leads next) w w := by
  have leads : Leads next u w := closing.looking.2.1 w List.mem_cons_self
  refine ⟨closing.reached w met, ?_⟩
  rcases (closing.mem_seen w).mp met with stacked | left
  · exact .tail' (closing.looking.way_to_top stacked) leads
  · exact absurd ((closing.mem_closed w).mpr left) open_

end Closing

/-- The vertices that can be reached from a vertex, each before its neighbours. -/
structure ReachOrder (next : Fin n → List (Fin n)) (start : Fin n) (order : List (Fin n)) :
    Prop where
  nodup : order.Nodup
  ahead : Ahead next order
  mem_iff : ∀ v, v ∈ order ↔ ReflTransGen (Leads next) start v

theorem Closing.reachOrder {start : Fin n} {seen closed : VertexSet n} {done : List (Fin n)}
    (closing : Closing next start seen closed done []) : ReachOrder next start done := by
  have mem_done : ∀ v, v ∈ seen ↔ v ∈ done := by simpa using closing.mem_seen
  refine ⟨closing.nodup, closing.ahead, ?_⟩
  intro v
  constructor
  · exact fun left => closing.reached v ((mem_done v).mpr left)
  · exact closing.ahead.mem_of_way ((mem_done start).mp closing.started)

theorem Closing.result {start : Fin n} {seen closed : VertexSet n} {done : List (Fin n)}
    {frames : List (Frame n)} (closing : Closing next start seen closed done frames) :
    match closeFrom? next seen closed done frames with
    | some order => ReachOrder next start order
    | none => ∃ v, ReflTransGen (Leads next) start v ∧ TransGen (Leads next) v v := by
  fun_induction closeFrom? next seen closed done frames with
  | case1 seen closed done => exact closing.reachOrder
  | case2 seen closed done u frames ih => exact ih closing.leave
  | case3 seen closed done u w ws frames passed ih => exact ih (closing.skip passed)
  | case4 seen closed done u w ws frames unclosed met => exact ⟨w, closing.cycle unclosed met⟩
  | case5 seen closed done u w ws frames _ new ih => exact ih (closing.enter new)

namespace Digraph

variable {d : Digraph n} {way : Way} {start : Fin n}

theorem mem_depthFirst {v : Fin n} :
    v ∈ d.depthFirst way start ↔ ReflTransGen (Leads (d.neighbors way)) start v := by
  have split : d.depthFirst way start = start :: (walkFrom (d.neighbors way)
      (VertexSet.ofList [start]) [(start, d.neighbors way start)]).filterMap Event.entered? := rfl
  rw [split]
  constructor
  · intro entered
    rcases List.mem_cons.mp entered with rfl | later
    · exact .refl
    · refine entered_of_closed (fun u w way leads => way.tail leads) ?_ v later
      exact Listed.cons (fun _ none => nomatch none) fun w leads => .single leads
  · intro reached
    have complete := entered_complete (d.neighbors way) (VertexSet.ofList [start])
      [(start, d.neighbors way start)]
    simp only [VertexSet.mem_ofList, ← List.mem_append, List.singleton_append] at complete
    induction reached with
    | refl => exact List.mem_cons_self
    | tail _ leads ih =>
        rcases List.mem_cons.mp ih with rfl | later
        · exact complete.1 _ List.mem_cons_self _ leads
        · exact complete.2 _ later _ leads

theorem nodup_depthFirst : (d.depthFirst way start).Nodup := by
  refine List.nodup_cons.mpr ⟨?_, nodup_entered _ _ _⟩
  intro again
  exact entered_new _ _ _ start again (by simp)

theorem finishing_perm : List.Perm (d.finishing way start) (d.depthFirst way start) :=
  left_perm (d.neighbors way) (VertexSet.ofList [start]) [(start, d.neighbors way start)]

theorem Opposite.depthFirst_perm {d' : Digraph n} (opposite : Opposite d d') (way : Way)
    (start : Fin n) : List.Perm (d'.depthFirst way.flip start) (d.depthFirst way start) := by
  refine (List.perm_ext_iff_of_nodup nodup_depthFirst nodup_depthFirst).mpr fun v => ?_
  rw [mem_depthFirst, mem_depthFirst, opposite.leads_flip]

/-- The walk enters every other vertex from one that it leaves later. -/
theorem finishing_from {v : Fin n} (listed : v ∈ d.finishing way start) (other : v ≠ start) :
    ∃ u, Leads (d.neighbors way) u v ∧ List.Sublist [v, u] (d.finishing way start) := by
  refine entered_from ?_ v ?_
  · exact Listed.cons (fun _ none => nomatch none) fun w leads => leads
  · have entered := (finishing_perm.mem_iff).mp listed
    exact (List.mem_cons.mp entered).resolve_left other

theorem reachableOrder?_eq_some {order : List (Fin n)}
    (found : d.reachableOrder? way start = some order) :
    ReachOrder (d.neighbors way) start order := by
  have result := (Closing.init (d.neighbors way) start).result
  rw [show closeFrom? _ _ _ _ _ = some order from found] at result
  exact result

theorem reachableOrder?_isSome_iff :
    (d.reachableOrder? way start).isSome ↔ Clear (Leads (d.neighbors way)) start := by
  constructor
  · intro found v reached
    obtain ⟨order, found⟩ := Option.isSome_iff_exists.mp found
    have ordered := reachableOrder?_eq_some found
    exact ordered.ahead.acyclic ordered.nodup ((ordered.mem_iff v).mpr reached)
  · intro acyclic
    cases found : d.reachableOrder? way start with
    | some order => rfl
    | none =>
        have result := (Closing.init (d.neighbors way) start).result
        rw [show closeFrom? _ _ _ _ _ = none from found] at result
        obtain ⟨v, reached, cycle⟩ := result
        exact absurd cycle (acyclic v reached)

end Digraph

end Provenance
