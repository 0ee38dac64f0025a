import Provenance.Digraph.Cycles
import Provenance.Proofs.Digraph.Walk

/-! # Strong groups

The stack of the walk falls into parts, one for each frame: what stands on the vertex of a frame, up
to the vertex of the next one, belongs together with it. When the walk comes back from a vertex, its
part either joins the part below it, because something on the stack below has been seen from it, or
is a whole group, because nothing has been seen from it that is not in the part or in a group
already.
-/

open Relation (TransGen ReflTransGen)

namespace Provenance

variable {n : Nat} {d : Digraph n} {u v w p : Fin n}

namespace Digraph

/-- Each of two vertices can be reached from the other. -/
def Mutual (d : Digraph n) (u w : Fin n) : Prop :=
  ReflTransGen d.Edge u w ∧ ReflTransGen d.Edge w u

theorem Mutual.symm (mutual_ : d.Mutual u w) : d.Mutual w u := ⟨mutual_.2, mutual_.1⟩

theorem Mutual.trans (first : d.Mutual u v) (second : d.Mutual v w) : d.Mutual u w :=
  ⟨first.1.trans second.1, second.2.trans first.2⟩

/-- A list holds a vertex together with all that it belongs to, each once. -/
structure Knot (d : Digraph n) (group : List (Fin n)) : Prop where
  nodup : group.Nodup
  mem_iff : ∃ v, ∀ w, w ∈ group ↔ d.Mutual v w

end Digraph

namespace Tarjan

variable {t t' : Tarjan n} {frames : List (Frame n)} {ws part rest stack : List (Fin n)} {low : Nat}

/-! ## The stack -/

/-- The number of a vertex that has been entered. -/
def number (t : Tarjan n) (v : Fin n) : Nat := (t.indices.get v).getD 0

/-- The stack and the groups hold what has been entered, each vertex once. Numbers sink from the top
of the stack on. -/
structure Orderly (t : Tarjan n) : Prop where
  marked : ∀ v, v ∈ t.onStack ↔ v ∈ t.stack
  entered : ∀ v, (t.indices.get v).isSome ↔ v ∈ t.stack ∨ v ∈ t.groups.flatten
  nodup : (t.stack ++ t.groups.flatten).Nodup
  sorted : t.stack.Pairwise fun u w => t.number w < t.number u
  fewer : ∀ v ∈ t.stack, t.number v < t.count

theorem number_visit_self (t : Tarjan n) (v : Fin n) : (t.visit v).number v = t.count := by
  simp [number, visit]

theorem number_visit_of_ne (t : Tarjan n) (other : w ≠ v) : (t.visit v).number w = t.number w := by
  simp [number, visit, Ne.symm other]

theorem lowlink_visit_of_ne (t : Tarjan n) (other : w ≠ v) :
    (t.visit v).lowlink.get w = t.lowlink.get w := by
  simp [visit, Ne.symm other]

theorem popped_append (new : v ∉ part) (rest : List (Fin n)) :
    popped v (part ++ v :: rest) = (part ++ [v], rest) := by
  induction part with
  | nil => simp [popped]
  | cons w part ih =>
      obtain ⟨other, new⟩ := not_or.mp (mt List.mem_cons.mpr new)
      rw [List.cons_append, popped, if_neg (Ne.symm other), ih new]
      rfl

theorem mem_foldl_erase {s : VertexSet n} {vs : List (Fin n)} :
    v ∈ vs.foldl VertexSet.erase s ↔ v ∉ vs ∧ v ∈ s := by
  induction vs generalizing s with
  | nil => simp
  | cons w vs ih =>
      rw [List.foldl_cons, ih, VertexSet.mem_erase, List.mem_cons, not_or]
      exact and_left_comm.trans and_assoc.symm

namespace Orderly

theorem initial : Orderly ({} : Tarjan n) where
  marked v := by simp
  entered v := by simp
  nodup := List.nodup_nil
  sorted := .nil
  fewer v listed := nomatch listed

theorem ne_of_new (orderly : t.Orderly) (new : t.indices.get w = none) (listed : u ∈ t.stack) :
    u ≠ w := by
  rintro rfl
  have entered := (orderly.entered u).mpr (.inl listed)
  rw [new] at entered
  cases entered

theorem visit (orderly : t.Orderly) (new : t.indices.get w = none) : (t.visit w).Orderly := by
  have apart : ¬ (w ∈ t.stack ∨ w ∈ t.groups.flatten) := by
    rw [← orderly.entered, new]
    exact Bool.false_ne_true
  have same : ∀ u ∈ t.stack, (t.visit w).number u = t.number u := fun u listed =>
    t.number_visit_of_ne (orderly.ne_of_new new listed)
  constructor
  · intro v
    rw [Tarjan.visit, VertexSet.mem_insert, orderly.marked, List.mem_cons]
  · intro v
    simp only [Tarjan.visit, VertexMap.get_set, List.mem_cons]
    split
    next here => simp [here]
    next other => rw [orderly.entered, or_assoc, or_iff_right (Ne.symm other)]
  · exact List.nodup_cons.mpr ⟨mt List.mem_append.mp apart, orderly.nodup⟩
  · refine List.pairwise_cons.mpr ⟨fun u listed => ?_, orderly.sorted.imp_of_mem ?_⟩
    · rw [same u listed, number_visit_self]
      exact orderly.fewer u listed
    · intro x y x_listed y_listed less
      rwa [same x x_listed, same y y_listed]
  · refine List.forall_mem_cons.mpr ⟨?_, fun u listed => ?_⟩
    · rw [number_visit_self]
      exact Nat.lt_succ_self _
    · rw [same u listed]
      exact Nat.lt_succ_of_lt (orderly.fewer u listed)

theorem lower (orderly : t.Orderly) (v : Fin n) (low : Nat) : (t.lower v low).Orderly :=
  ⟨orderly.marked, orderly.entered, orderly.nodup, orderly.sorted, orderly.fewer⟩

/-- What stands on a vertex has greater numbers, and what stands below it smaller ones. -/
theorem split (orderly : t.Orderly) (parts : t.stack = part ++ v :: rest) :
    (∀ u ∈ part, t.number v < t.number u) ∧ ∀ u ∈ rest, t.number u < t.number v := by
  have sorted := orderly.sorted
  rw [parts, List.pairwise_append, List.pairwise_cons] at sorted
  exact ⟨fun u listed => sorted.2.2 u listed v List.mem_cons_self, sorted.2.1.1⟩

theorem not_mem_part (orderly : t.Orderly) (parts : t.stack = part ++ v :: rest) : v ∉ part :=
  fun listed => Nat.lt_irrefl _ ((orderly.split parts).1 v listed)

theorem popComponent_eq (orderly : t.Orderly) (parts : t.stack = part ++ v :: rest) :
    t.popComponent v =
      { t with
        stack := rest
        onStack := (part ++ [v]).foldl VertexSet.erase t.onStack
        groups := t.groups ++ [part ++ [v]] } := by
  rw [Tarjan.popComponent, parts, popped_append (orderly.not_mem_part parts)]

theorem popComponent (orderly : t.Orderly) (parts : t.stack = part ++ v :: rest) :
    (t.popComponent v).Orderly := by
  have below : rest.Sublist t.stack := parts ▸ (List.sublist_cons_self v rest).trans
    (List.sublist_append_right part _)
  have flat : (t.groups ++ [part ++ [v]]).flatten = t.groups.flatten ++ (part ++ [v]) := by simp
  have apart := (List.nodup_append.mp orderly.nodup).1
  have nodup := orderly.nodup
  rw [parts] at apart nodup
  rw [orderly.popComponent_eq parts]
  constructor
  · intro u
    dsimp only
    rw [mem_foldl_erase, orderly.marked, parts]
    have cut : (part ++ [v] ++ rest).Nodup := by simpa using apart
    constructor
    · rintro ⟨off, listed⟩
      have either : u ∈ part ++ [v] ++ rest := by simpa using listed
      exact (List.mem_append.mp either).resolve_left off
    · intro listed
      refine ⟨fun popped => (List.nodup_append.mp cut).2.2 u popped u listed rfl, ?_⟩
      exact List.mem_append_right part (List.mem_cons_of_mem v listed)
  · intro u
    dsimp only
    rw [orderly.entered, parts, flat]
    simp only [List.mem_append, List.mem_cons, List.not_mem_nil, or_false]
    tauto
  · dsimp only
    rw [flat]
    refine (List.Perm.nodup_iff ?_).mp nodup
    have moved : List.Perm (part ++ v :: rest) (rest ++ (part ++ [v])) := by
      rw [List.append_cons]
      exact List.perm_append_comm
    have turned : List.Perm (part ++ [v] ++ t.groups.flatten) (t.groups.flatten ++ (part ++ [v])) :=
      List.perm_append_comm
    exact (moved.append_right _).trans
      ((List.append_assoc rest (part ++ [v]) _) ▸ turned.append_left rest)
  · exact orderly.sorted.sublist below
  · exact fun u listed => orderly.fewer u (below.subset listed)

end Orderly

/-! ## Parts of the stack -/

/-- A vertex is in a group already, or its number is no less than `low`. -/
def Met (t : Tarjan n) (low : Nat) (w : Fin n) : Prop :=
  w ∈ t.groups.flatten ∨ (t.indices.get w).isSome ∧ low ≤ t.number w

theorem Met.lower {low' : Nat} (met : t.Met low w) (le : low' ≤ low) : t.Met low' w :=
  met.imp_right fun ⟨entered, less⟩ => ⟨entered, Nat.le_trans le less⟩

/-- What is known of the part that stands on `v`, with `ws` to be looked at from `v` and `rest`
below it. The lowlink is the number of a vertex below that can be reached, or of `v` itself, and
nothing with a smaller number has been seen from `v` or its part. -/
structure Segment (d : Digraph n) (t : Tarjan n) (v : Fin n) (ws part rest : List (Fin n)) :
    Prop where
  ahead : ∀ w ∈ ws, d.Edge v w
  together : ∀ u ∈ part, d.Mutual u v
  back : ∃ u ∈ v :: rest, t.number u = t.lowlink.get v ∧ ReflTransGen d.Edge v u
  met : ∀ u ∈ v :: part, ∀ w, d.Edge u w → u = v ∧ w ∈ ws ∨ t.Met (t.lowlink.get v) w

/-- A stack made of one part for each frame. The vertex of a frame is a successor of that of the
next frame, from which it has been entered. -/
inductive Built (d : Digraph n) (t : Tarjan n) : List (Frame n) → List (Fin n) → Prop where
  | nil : Built d t [] []
  | cons {v : Fin n} {ws part rest : List (Fin n)} {frames : List (Frame n)}
      (segment : Segment d t v ws part rest)
      (joined : ∀ frame ∈ frames.head?, d.Edge frame.1 v) (below : Built d t frames rest) :
      Built d t ((v, ws) :: frames) (part ++ v :: rest)

namespace Built

theorem eq_nil (built : Built d t [] stack) : stack = [] := by
  cases built
  rfl

/-- A step that changes no number and no lowlink on the stack, and forgets nothing that has been
met, keeps the parts. -/
theorem keep (built : Built d t frames stack) (number : ∀ u ∈ stack, t'.number u = t.number u)
    (lowlink : ∀ u ∈ stack, t'.lowlink.get u = t.lowlink.get u)
    (met : ∀ low w, t.Met low w → t'.Met low w) : Built d t' frames stack := by
  induction built with
  | nil => exact .nil
  | @cons v ws part rest frames segment joined _ ih =>
      obtain ⟨-, number'⟩ := List.forall_mem_append.mp number
      obtain ⟨-, lowlink'⟩ := List.forall_mem_append.mp lowlink
      have same := (List.forall_mem_cons.mp lowlink').1
      refine .cons ⟨segment.ahead, segment.together, ?_, fun u listed w edge => ?_⟩ joined
        (ih (List.forall_mem_cons.mp number').2 (List.forall_mem_cons.mp lowlink').2)
      · obtain ⟨u, listed, found, way⟩ := segment.back
        exact ⟨u, listed, by rw [number' u listed, found, same], way⟩
      · rw [same]
        exact (segment.met u listed w edge).imp_right (met _ w)

/-- The next vertex to be looked at has been met. -/
theorem skip (built : Built d t ((v, w :: ws) :: frames) stack)
    (met : t.Met (t.lowlink.get v) w) : Built d t ((v, ws) :: frames) stack := by
  cases built with
  | cons segment joined below =>
    refine .cons ⟨fun x listed => segment.ahead x (List.mem_cons_of_mem w listed),
      segment.together, segment.back, fun u listed x edge => ?_⟩ joined below
    rcases segment.met u listed x edge with ⟨same, left⟩ | met'
    · rcases List.mem_cons.mp left with rfl | later
      · exact .inr met
      · exact .inl ⟨same, later⟩
    · exact .inr met'

/-- Everything on the stack leads to the vertex of the top frame. -/
theorem way_to_top (built : Built d t ((v, ws) :: frames) stack) (listed : u ∈ stack) :
    ReflTransGen d.Edge u v := by
  generalize top : (v, ws) :: frames = all at built
  induction built generalizing v ws frames with
  | nil => cases top
  | @cons v ws part rest frames segment joined below ih =>
    cases top
    rcases List.mem_append.mp listed with here | here
    · exact (segment.together u here).1
    rcases List.mem_cons.mp here with rfl | later
    · exact .refl
    cases frames with
    | nil => exact absurd (below.eq_nil ▸ later) List.not_mem_nil
    | cons frame frames => exact (ih later rfl).tail (joined frame rfl)

theorem exists_parts (built : Built d t ((v, ws) :: frames) stack) :
    ∃ part rest, stack = part ++ v :: rest ∧ Segment d t v ws part rest ∧
      (∀ frame ∈ frames.head?, d.Edge frame.1 v) ∧ Built d t frames rest := by
  cases built with
  | cons segment joined below => exact ⟨_, _, rfl, segment, joined, below⟩

theorem mem_stack (built : Built d t ((v, ws) :: frames) stack) : v ∈ stack := by
  obtain ⟨part, rest, rfl, -⟩ := built.exists_parts
  exact List.mem_append_right part List.mem_cons_self

theorem lowlink_le (built : Built d t ((v, ws) :: frames) stack)
    (sorted : stack.Pairwise fun u w => t.number w < t.number u) :
    t.lowlink.get v ≤ t.number v := by
  obtain ⟨part, rest, rfl, segment, -⟩ := built.exists_parts
  obtain ⟨u, listed, found, -⟩ := segment.back
  rw [← found]
  rcases List.mem_cons.mp listed with rfl | below
  · exact Nat.le_refl _
  · have smaller := (List.pairwise_cons.mp (List.pairwise_append.mp sorted).2.1).1
    exact Nat.le_of_lt (smaller u below)

/-- The vertex of the top frame takes the number of a vertex into account that it leads to. -/
theorem lower (built : Built d t ((v, ws) :: frames) stack)
    (sorted : stack.Pairwise fun u w => t.number w < t.number u) (listed : u ∈ stack)
    (way : ReflTransGen d.Edge v u) :
    Built d (t.lower v (t.number u)) ((v, ws) :: frames) stack := by
  have le := built.lowlink_le sorted
  obtain ⟨part, rest, rfl, segment, joined, below⟩ := built.exists_parts
  obtain ⟨-, sorted_rest, above⟩ := List.pairwise_append.mp sorted
  obtain ⟨smaller, -⟩ := List.pairwise_cons.mp sorted_rest
  have lowered : (t.lower v (t.number u)).lowlink.get v = min (t.lowlink.get v) (t.number u) := by
    simp [Tarjan.lower]
  refine .cons ⟨segment.ahead, segment.together, ?_, fun x listed w edge => ?_⟩ joined
    (below.keep (fun _ _ => rfl) (fun x later => ?_) fun _ _ met => met)
  · rw [lowered]
    rcases Nat.le_total (t.lowlink.get v) (t.number u) with least | less
    · rw [Nat.min_eq_left least]
      exact segment.back
    · -- its number is no greater than that of `v`, so it does not stand on `v`
      rw [Nat.min_eq_right less]
      refine ⟨u, (List.mem_append.mp listed).resolve_left fun on_top => ?_, rfl, way⟩
      have greater := above u on_top v List.mem_cons_self
      omega
  · rw [lowered]
    exact (segment.met x listed w edge).imp_right (·.lower (Nat.min_le_left _ _))
  · have other : v ≠ x := by
      rintro rfl
      exact Nat.lt_irrefl _ (smaller v later)
    simp [Tarjan.lower, other]

/-- What belongs together with the vertex of the top frame joins its part. -/
theorem extend (built : Built d t ((v, ws) :: frames) stack) {top : List (Fin n)}
    (together : ∀ u ∈ top, d.Mutual u v)
    (met : ∀ u ∈ top, ∀ w, d.Edge u w → t.Met (t.lowlink.get v) w) :
    Built d t ((v, ws) :: frames) (top ++ stack) := by
  obtain ⟨part, rest, rfl, segment, joined, below⟩ := built.exists_parts
  rw [← List.append_assoc]
  refine .cons ⟨segment.ahead, List.forall_mem_append.mpr ⟨together, segment.together⟩,
    segment.back, fun u listed w edge => ?_⟩ joined below
  rcases List.mem_cons.mp listed with rfl | listed
  · exact segment.met u List.mem_cons_self w edge
  rcases List.mem_append.mp listed with on_top | old
  · exact .inr (met u on_top w edge)
  · exact segment.met u (List.mem_cons_of_mem v old) w edge

end Built

/-! ## Steps -/

/-- What every step of the walk keeps. -/
structure Walking (d : Digraph n) (t : Tarjan n) (frames : List (Frame n)) : Prop where
  orderly : t.Orderly
  closed : ∀ u ∈ t.groups.flatten, ∀ w, d.Edge u w → w ∈ t.groups.flatten
  knots : ∀ group ∈ t.groups, d.Knot group
  built : Built d t frames t.stack

namespace Walking

theorem initial (d : Digraph n) : Walking d {} [] where
  orderly := .initial
  closed _ listed := nomatch listed
  knots _ listed := nomatch listed
  built := .nil

theorem skip (walking : Walking d t ((v, w :: ws) :: frames))
    (met : t.Met (t.lowlink.get v) w) : Walking d t ((v, ws) :: frames) :=
  ⟨walking.orderly, walking.closed, walking.knots, walking.built.skip met⟩

theorem edge (walking : Walking d t ((v, w :: ws) :: frames)) : d.Edge v w := by
  obtain ⟨_, _, _, segment, _⟩ := walking.built.exists_parts
  exact segment.ahead w List.mem_cons_self

theorem keep_visit (walking : Walking d t frames) (new : t.indices.get w = none) :
    Built d (t.visit w) frames t.stack := by
  have other : ∀ u ∈ t.stack, u ≠ w := fun u listed => walking.orderly.ne_of_new new listed
  refine walking.built.keep (fun u listed => t.number_visit_of_ne (other u listed))
    (fun u listed => t.lowlink_visit_of_ne (other u listed))
    fun low x met => met.imp_right fun ⟨entered, le⟩ => ?_
  · have apart : x ≠ w := by
      rintro rfl
      rw [new] at entered
      cases entered
    rw [t.number_visit_of_ne apart]
    exact ⟨by simpa [visit, apart.symm] using entered, le⟩

/-- A new vertex is entered from the vertex of the top frame, if there is one. -/
theorem enter (walking : Walking d t frames) (new : t.indices.get w = none)
    {frames' : List (Frame n)} (below : Built d (t.visit w) frames' t.stack)
    (joined : ∀ frame ∈ frames'.head?, d.Edge frame.1 w) :
    Walking d (t.visit w) ((w, d.neighbors .along w) :: frames') where
  orderly := walking.orderly.visit new
  closed := walking.closed
  knots := walking.knots
  built := by
    have lowest : (t.visit w).number w = (t.visit w).lowlink.get w := by simp [number, visit]
    have segment : Segment d (t.visit w) w (d.neighbors .along w) [] t.stack := by
      refine ⟨fun x listed => listed, by simp, ?_, fun u own x edge => ?_⟩
      · exact ⟨w, List.mem_cons_self, lowest, .refl⟩
      · obtain rfl := List.mem_singleton.mp own
        exact .inl ⟨rfl, edge⟩
    exact .cons segment joined below

theorem enter_next (walking : Walking d t ((v, w :: ws) :: frames))
    (new : t.indices.get w = none) :
    Walking d (t.visit w) ((w, d.neighbors .along w) :: (v, ws) :: frames) := by
  have listed : v ∈ t.stack := walking.built.mem_stack
  have other : w ≠ v := (walking.orderly.ne_of_new new listed).symm
  have met : (t.visit w).Met ((t.visit w).lowlink.get v) w := by
    have le := walking.built.lowlink_le walking.orderly.sorted
    have less := walking.orderly.fewer v listed
    refine .inr ⟨by simp [visit], ?_⟩
    rw [number_visit_self, t.lowlink_visit_of_ne other.symm]
    omega
  refine walking.enter new ((walking.keep_visit new).skip met) ?_
  intro frame top
  obtain rfl := Option.some.inj top
  exact walking.edge

theorem lower_next {i : Nat} (walking : Walking d t ((v, w :: ws) :: frames))
    (index : t.indices.get w = some i) (marked : w ∈ t.onStack) :
    Walking d (t.lower v i) ((v, ws) :: frames) := by
  have listed : w ∈ t.stack := (walking.orderly.marked w).mp marked
  have known : t.number w = i := by simp [number, index]
  have lowered := walking.built.lower walking.orderly.sorted listed (.single walking.edge)
  rw [known] at lowered
  refine skip ⟨walking.orderly.lower v i, walking.closed, walking.knots, lowered⟩ (.inr ⟨?_, ?_⟩)
  · exact Option.isSome_of_eq_some index
  · have same : (t.lower v i).number w = i := known
    rw [same]
    simp [lower]

/-- A vertex that has been entered and is not on the stack is in a group. -/
theorem skip_next {i : Nat} (walking : Walking d t ((v, w :: ws) :: frames))
    (index : t.indices.get w = some i) (unmarked : w ∉ t.onStack) :
    Walking d t ((v, ws) :: frames) := by
  have entered := (walking.orderly.entered w).mp (Option.isSome_of_eq_some index)
  exact walking.skip (.inl (entered.resolve_left ((walking.orderly.marked w).not.mp unmarked)))

/-! ## Coming back -/

theorem index_eq (walking : Walking d t frames) (listed : v ∈ t.stack) :
    t.indices.get v = some (t.number v) := by
  obtain ⟨i, index⟩ := Option.isSome_iff_exists.mp ((walking.orderly.entered v).mpr (.inl listed))
  rw [number, index]
  rfl

/-- Nothing that a closed set leads to is outside of it. -/
theorem mem_of_way {vs : List (Fin n)} (closed : ∀ u ∈ vs, ∀ w, d.Edge u w → w ∈ vs)
    (listed : u ∈ vs) (way : ReflTransGen d.Edge u w) : w ∈ vs := by
  induction way with
  | refl => exact listed
  | tail _ edge ih => exact closed _ ih _ edge

/-- The part of a vertex from which nothing below has been seen is a whole group. -/
theorem pop (walking : Walking d t ((v, []) :: frames)) (lowest : t.lowlink.get v = t.number v) :
    Walking d (t.popComponent v) frames := by
  have orderly := walking.orderly
  obtain ⟨part, rest, parts, segment, -, below⟩ := walking.built.exists_parts
  have popped := orderly.popComponent parts
  have cut := orderly.popComponent_eq parts
  have flat : (t.popComponent v).groups.flatten = t.groups.flatten ++ (part ++ [v]) := by
    rw [cut]
    simp
  have closed : ∀ u ∈ (t.popComponent v).groups.flatten, ∀ w, d.Edge u w →
      w ∈ (t.popComponent v).groups.flatten := by
    intro u listed w edge
    rw [flat] at listed ⊢
    rcases List.mem_append.mp listed with old | own
    · exact List.mem_append_left _ (walking.closed u old w edge)
    have mem : u ∈ v :: part := by simpa [or_comm] using own
    rcases segment.met u mem w edge with ⟨-, none_left⟩ | old | ⟨entered, le⟩
    · cases none_left
    · exact List.mem_append_left _ old
    rcases (orderly.entered w).mp entered with stacked | old
    · rw [parts, List.append_cons] at stacked
      rcases List.mem_append.mp stacked with here | lower
      · exact List.mem_append_right _ here
      · have smaller := (orderly.split parts).2 w lower
        omega
    · exact List.mem_append_left _ old
  refine ⟨popped, closed, ?_, ?_⟩
  · have apart := (List.nodup_append.mp orderly.nodup).2.2
    intro group listed
    rw [cut] at listed
    rcases List.mem_append.mp listed with old | new
    · exact walking.knots group old
    obtain rfl := List.mem_singleton.mp new
    have nodup := (List.nodup_append.mp (flat ▸ (List.nodup_append.mp popped.nodup).2.1)).2.1
    refine ⟨nodup, v, fun w => ⟨fun member => ?_, fun ⟨forth, back⟩ => ?_⟩⟩
    · rcases List.mem_append.mp member with here | here
      · exact (segment.together w here).symm
      · obtain rfl := List.mem_singleton.mp here
        exact ⟨.refl, .refl⟩
    · have top : v ∈ (t.popComponent v).groups.flatten := by simp [flat]
      have reached := mem_of_way closed top forth
      rw [flat] at reached
      -- an earlier group would hold `v` as well
      refine (List.mem_append.mp reached).resolve_left fun old => ?_
      exact apart v walking.built.mem_stack v (mem_of_way walking.closed old back) rfl
  · rw [cut]
    refine below.keep (fun _ _ => rfl) (fun _ _ => rfl) fun low w met => ?_
    exact met.imp_left fun old => by simp [old]

/-- Nothing is handed on by a vertex from which nothing below has been seen. -/
theorem handOn_eq (walking : Walking d t ((v, []) :: frames))
    (lowest : t.lowlink.get v = t.number v) : t.handOn v frames = t := by
  obtain ⟨part, rest, parts, -, -, below⟩ := walking.built.exists_parts
  cases frames with
  | nil => rfl
  | cons frame frames =>
      obtain ⟨p, ps⟩ := frame
      have sorted := walking.orderly.sorted
      rw [parts, List.pairwise_append, List.pairwise_cons] at sorted
      have le := below.lowlink_le sorted.2.1.2
      have less := sorted.2.1.1 p below.mem_stack
      have least : t.lowlink.get p ≤ t.lowlink.get v := by omega
      rw [handOn, Tarjan.lower, Nat.min_eq_left least, VertexMap.set_get_self]

/-- The part of a vertex from which something below has been seen joins the next part. -/
theorem join {ps : List (Fin n)} (walking : Walking d t ((v, []) :: (p, ps) :: frames))
    (back : t.lowlink.get v ≠ t.number v) :
    Walking d (t.lower p (t.lowlink.get v)) ((p, ps) :: frames) := by
  obtain ⟨part, rest, parts, segment, joined, below⟩ := walking.built.exists_parts
  obtain ⟨u, listed, found, way⟩ := segment.back
  have behind : u ∈ rest := by
    refine (List.mem_cons.mp listed).resolve_left ?_
    rintro rfl
    exact back found.symm
  have edge : d.Edge p v := joined (p, ps) rfl
  have sorted := walking.orderly.sorted
  rw [parts, List.pairwise_append, List.pairwise_cons] at sorted
  have lowered := below.lower sorted.2.1.2 behind (.head edge way)
  rw [found] at lowered
  have around : d.Mutual v p := ⟨way.trans (below.way_to_top behind), .single edge⟩
  have together : ∀ w ∈ part ++ [v], d.Mutual w p := by
    intro w member
    rcases List.mem_append.mp member with here | here
    · exact (segment.together w here).trans around
    · exact List.mem_singleton.mp here ▸ around
  have le : (t.lower p (t.lowlink.get v)).lowlink.get p ≤ t.lowlink.get v := by
    simp [Tarjan.lower]
  have met : ∀ w ∈ part ++ [v], ∀ x, d.Edge w x →
      (t.lower p (t.lowlink.get v)).Met ((t.lower p (t.lowlink.get v)).lowlink.get p) x := by
    intro w member x leads
    have own : w ∈ v :: part := by simpa [or_comm] using member
    rcases segment.met w own x leads with ⟨-, none_left⟩ | met
    · cases none_left
    · exact Met.lower met le
  refine ⟨walking.orderly.lower p _, walking.closed, walking.knots, ?_⟩
  have extended := lowered.extend together met
  rw [← List.append_cons, ← parts] at extended
  exact extended

theorem leave (walking : Walking d t ((v, []) :: frames)) :
    Walking d ((t.handOn v frames).complete v) frames := by
  have index := walking.index_eq walking.built.mem_stack
  by_cases lowest : t.lowlink.get v = t.number v
  · rw [walking.handOn_eq lowest, complete, index, if_pos (congrArg some lowest)]
    exact walking.pop lowest
  obtain ⟨part, rest, parts, segment, -, below⟩ := walking.built.exists_parts
  cases frames with
  | nil =>
      obtain ⟨u, listed, found, -⟩ := segment.back
      rw [below.eq_nil, List.mem_singleton] at listed
      exact absurd (listed ▸ found).symm lowest
  | cons frame frames =>
      obtain ⟨p, ps⟩ := frame
      have less := (walking.orderly.split parts).2 p below.mem_stack
      have other : p ≠ v := by
        rintro rfl
        exact Nat.lt_irrefl _ less
      have kept : (t.handOn v ((p, ps) :: frames)).lowlink.get v = t.lowlink.get v := by
        simp [handOn, Tarjan.lower, other]
      rw [complete, indices_handOn, index, kept, if_neg (mt Option.some.inj lowest)]
      exact walking.join lowest

/-! ## Runs -/

/-- A walk that comes to its end leaves nothing on the stack. -/
theorem connect (walking : Walking d t frames) :
    Walking d (connect (d.neighbors .along) t frames) [] := by
  fun_induction Tarjan.connect (d.neighbors .along) t frames with
  | case1 t => exact walking
  | case2 t v frames ih => exact ih walking.leave
  | case3 t v w ws frames new ih => exact ih (walking.enter_next new)
  | case4 t v w ws frames i index marked ih => exact ih (walking.lower_next index marked)
  | case5 t v w ws frames i index unmarked ih => exact ih (walking.skip_next index unmarked)

theorem start (walking : Walking d t []) (v : Fin n) :
    Walking d (t.start (d.neighbors .along) v) [] := by
  unfold Tarjan.start
  split
  next new =>
    have new' := Option.isNone_iff_eq_none.mp new
    have none_before : ∀ frame ∈ ([] : List (Frame n)).head?, d.Edge frame.1 v := by simp
    exact connect (walking.enter new' (walking.keep_visit new') none_before)
  next => exact walking

end Walking

theorem isSome_visit (entered : v = w ∨ (t.indices.get v).isSome) :
    ((t.visit w).indices.get v).isSome := by
  simp only [visit, VertexMap.get_set]
  split
  next => rfl
  next other => exact entered.resolve_left (Ne.symm other)

theorem isSome_connect {next : Fin n → List (Fin n)} (entered : (t.indices.get v).isSome) :
    ((connect next t frames).indices.get v).isSome := by
  fun_induction connect next t frames with
  | case1 t => exact entered
  | case2 t u frames ih => exact ih (by simpa using entered)
  | case3 t u w ws frames new ih => exact ih (isSome_visit (.inr entered))
  | case4 t u w ws frames i index marked ih => exact ih entered
  | case5 t u w ws frames i index unmarked ih => exact ih entered

/-- Later walks forget no vertex, and a walk from a vertex enters it. -/
theorem isSome_start {next : Fin n → List (Fin n)} (u : Fin n)
    (entered : v = u ∨ (t.indices.get v).isSome) : ((t.start next u).indices.get v).isSome := by
  unfold start
  split
  next new => exact isSome_connect (isSome_visit entered)
  next old =>
    rcases entered with rfl | entered
    · exact Option.isSome_iff_ne_none.mpr fun new => old (Option.isNone_iff_eq_none.mpr new)
    · exact entered

theorem walking_foldl (walking : Walking d t []) (vs : List (Fin n)) :
    Walking d (vs.foldl (start (d.neighbors .along)) t) [] ∧
      ∀ v, v ∈ vs ∨ (t.indices.get v).isSome →
        ((vs.foldl (start (d.neighbors .along)) t).indices.get v).isSome := by
  induction vs generalizing t with
  | nil => exact ⟨walking, fun v entered => entered.resolve_left List.not_mem_nil⟩
  | cons u vs ih =>
      obtain ⟨later, all⟩ := ih (walking.start u)
      refine ⟨later, fun v entered => all v ?_⟩
      rw [List.mem_cons, or_assoc, or_left_comm] at entered
      exact entered.imp_right (isSome_start u)

end Tarjan

namespace Digraph

/-- Every vertex is in one group, once, and a group is a vertex with all that it belongs to. -/
theorem strongGroups_spec (d : Digraph n) :
    (∀ group ∈ d.strongGroups, d.Knot group) ∧ d.strongGroups.flatten.Nodup ∧
      ∀ v, v ∈ d.strongGroups.flatten := by
  obtain ⟨walking, all⟩ :=
    Tarjan.walking_foldl (Tarjan.Walking.initial d) (List.finRange n)
  have nodup := walking.orderly.nodup
  have entered := fun v => (walking.orderly.entered v).mp (all v (.inl (List.mem_finRange v)))
  rw [walking.built.eq_nil] at nodup entered
  exact ⟨walking.knots, nodup, fun v => (entered v).resolve_left List.not_mem_nil⟩

end Digraph

end Provenance
