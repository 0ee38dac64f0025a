import Provenance.Digraph.Routes
import Provenance.Proofs.Digraph.Walk

/-! # Shortest and longest routes

Once a vertex has been passed, no route to one of its neighbours by way of it improves on what is
known. So in the end the distances are those of the best walks, and which walks there are is all
that they depend on.
-/

open Relation (TransGen ReflTransGen)

namespace Provenance

/-- A walk of a given number of steps. -/
inductive Steps {α : Type} (r : α → α → Prop) (a : α) : Nat → α → Prop where
  | refl : Steps r a 0 a
  | tail {k : Nat} {b c : α} (before : Steps r a k b) (step : r b c) : Steps r a (k + 1) c

theorem Steps.way {α : Type} {r : α → α → Prop} {k : Nat} {a b : α} (steps : Steps r a k b) :
    ReflTransGen r a b := by
  induction steps with
  | refl => exact .refl
  | tail _ step ih => exact ih.tail step

theorem Steps.head {α : Type} {r : α → α → Prop} {k : Nat} {a b c : α} (step : r a b)
    (after : Steps r b k c) : Steps r a (k + 1) c := by
  induction after with
  | refl => exact .tail .refl step
  | tail _ last ih => exact ih.tail last

theorem Steps.swap {α : Type} {r : α → α → Prop} {k : Nat} {a b : α} (steps : Steps r a k b) :
    Steps (Function.swap r) b k a := by
  induction steps with
  | refl => exact .refl
  | tail _ step ih => exact .head step ih

theorem exists_steps {α : Type} {r : α → α → Prop} {a b : α} (way : ReflTransGen r a b) :
    ∃ k, Steps r a k b := by
  induction way with
  | refl => exact ⟨0, .refl⟩
  | tail _ step ih =>
      obtain ⟨k, steps⟩ := ih
      exact ⟨k + 1, steps.tail step⟩

namespace Extent

variable {extent : Extent} {c d e : Nat}

theorem improves_self (extent : Extent) (d : Nat) : extent.improves d d = false := by
  cases extent <;> simp [improves]

theorem improves_trans (not_better : extent.improves c e = false)
    (better : extent.improves d e = true) : extent.improves c d = false := by
  cases extent <;> simp only [improves, decide_eq_true_eq, decide_eq_false_iff_not] at * <;> omega

theorem improves_succ (first : extent.improves c d = false)
    (second : extent.improves (d + 1) e = false) : extent.improves (c + 1) e = false := by
  cases extent <;> simp only [improves, decide_eq_false_iff_not] at * <;> omega

theorem eq_of_improves (left : extent.improves d e = false) (right : extent.improves e d = false) :
    d = e := by
  cases extent <;> simp only [improves, decide_eq_false_iff_not] at * <;> omega

end Extent

variable {n : Nat} {next : Fin n → List (Fin n)} {extent : Extent}

namespace Routes

variable {routes : Routes n} {v w : Fin n} {milestone : Milestone n}

theorem distance?_eq_some {d : Nat} :
    routes.distance? v = some d ↔ ∃ previous, routes.get v = some ⟨d, previous⟩ := by
  rw [distance?, Option.map_eq_some_iff]
  constructor
  · intro ⟨⟨e, previous⟩, found, same⟩
    exact ⟨previous, by rw [found, ← same]⟩
  · intro ⟨previous, found⟩
    exact ⟨_, found, rfl⟩

theorem reaches_iff : routes.reaches v = true ↔ ∃ d, routes.distance? v = some d := by
  rw [reaches, ← Option.isSome_map (f := Milestone.distance), ← distance?,
    Option.isSome_iff_exists]

/-- The vertex has been reached, and a route of the given length would not improve on that. -/
def AsGood (extent : Extent) (routes : Routes n) (v : Fin n) (length : Nat) : Prop :=
  ∃ d, routes.distance? v = some d ∧ extent.improves length d = false

/-! ## Offers -/

theorem get_offer (extent : Extent) (milestone : Milestone n) (routes : Routes n) (v w : Fin n) :
    (offer extent milestone routes w).get v = routes.get v ∨
      v = w ∧ (offer extent milestone routes w).get v = some milestone := by
  unfold offer
  split
  · rw [VertexMap.get_set]
    grind
  · split
    · rw [VertexMap.get_set]
      grind
    · exact .inl rfl

theorem asGood_offer_self : AsGood extent (offer extent milestone routes w) w milestone.distance := by
  unfold AsGood distance? offer
  split
  next => simp [extent.improves_self]
  next found known =>
    split
    next => simp [extent.improves_self]
    next worse => simpa [known] using worse

theorem asGood_offer {length : Nat} (good : AsGood extent routes v length) :
    AsGood extent (offer extent milestone routes w) v length := by
  obtain ⟨d, known, good⟩ := good
  obtain ⟨previous, found⟩ := distance?_eq_some.mp known
  unfold AsGood distance? offer
  by_cases same : w = v
  · subst same
    rw [found]
    dsimp only
    split
    next better => exact ⟨milestone.distance, by simp, extent.improves_trans good better⟩
    next => exact ⟨d, by simp [found], good⟩
  · split
    next => exact ⟨d, by simp [same, found], good⟩
    next =>
      split
      next => exact ⟨d, by simp [same, found], good⟩
      next => exact ⟨d, by simp [found], good⟩

theorem get_offers {ws : List (Fin n)} :
    (ws.foldl (offer extent milestone) routes).get v = routes.get v ∨
      v ∈ ws ∧ (ws.foldl (offer extent milestone) routes).get v = some milestone := by
  induction ws generalizing routes with
  | nil => exact .inl rfl
  | cons w ws ih =>
      rcases @ih (offer extent milestone routes w) with kept | ⟨listed, taken⟩
      · rcases get_offer extent milestone routes v w with before | ⟨same, taken⟩
        · exact .inl (kept.trans before)
        · exact .inr ⟨same ▸ List.mem_cons_self, kept.trans taken⟩
      · exact .inr ⟨List.mem_cons_of_mem w listed, taken⟩

theorem asGood_offers {ws : List (Fin n)} {length : Nat} (good : AsGood extent routes v length) :
    AsGood extent (ws.foldl (offer extent milestone) routes) v length := by
  induction ws generalizing routes with
  | nil => exact good
  | cons w ws ih => exact ih (asGood_offer good)

theorem asGood_offers_of_mem {ws : List (Fin n)} (listed : v ∈ ws) :
    AsGood extent (ws.foldl (offer extent milestone) routes) v milestone.distance := by
  induction ws generalizing routes with
  | nil => cases listed
  | cons w ws ih =>
      rw [List.foldl_cons]
      rcases List.mem_cons.mp listed with rfl | later
      · exact asGood_offers asGood_offer_self
      · exact ih later

end Routes

/-! ## Settling -/

/-- What is known of the routes from a vertex while those in `rest` have not been passed. -/
structure Settling (next : Fin n → List (Fin n)) (extent : Extent) (start : Fin n)
    (rest : List (Fin n)) (routes : Routes n) : Prop where
  started : routes.get start = some ⟨0, none⟩
  origin : ∀ v d, routes.get v = some ⟨d, none⟩ → v = start
  previous : ∀ v d u, routes.get v = some ⟨d, some u⟩ →
    u ∉ rest ∧ Leads next u v ∧ ∃ e, routes.distance? u = some e ∧ d = e + 1
  onward : ∀ u d, u ∉ rest → routes.distance? u = some d →
    ∀ w, Leads next u w → routes.AsGood extent w (d + 1)

namespace Settling

variable {start : Fin n} {rest : List (Fin n)} {routes : Routes n}

theorem init {order : List (Fin n)} (listed : start ∈ order) :
    Settling next extent start order (Routes.init start) := by
  have get_init : ∀ v milestone, (Routes.init start).get v = some milestone →
      v = start ∧ milestone = ⟨0, none⟩ := by
    intro v milestone found
    rw [Routes.init, VertexMap.get_set, VertexMap.get_const] at found
    split at found
    next same => exact ⟨same.symm, (Option.some.inj found).symm⟩
    next => cases found
  refine ⟨?_, ?_, ?_, ?_⟩
  · simp [Routes.init]
  · exact fun v d found => (get_init v _ found).1
  · intro v d u found
    have at_start := (get_init v _ found).2
    cases at_start
  · intro u d passed known
    obtain ⟨previous, found⟩ := Routes.distance?_eq_some.mp known
    exact absurd ((get_init u _ found).1 ▸ listed) passed

/-- What passing one vertex does: it changes nothing but at its neighbours, which come later. -/
theorem pass {u : Fin n} (settling : Settling next extent start (u :: rest) routes)
    (ahead : ∀ w, Leads next u w → w ∈ rest) (new : u ∉ rest) (away : ¬ Leads next u start) :
    Settling next extent start rest (routes.extend next extent u) := by
  unfold Routes.extend
  cases here : routes.get u with
  | none =>
      refine ⟨settling.started, settling.origin, ?_, ?_⟩
      · intro v d x found
        obtain ⟨passed, known⟩ := settling.previous v d x found
        exact ⟨fun later => passed (List.mem_cons_of_mem u later), known⟩
      · intro x d passed known w leads
        by_cases same : x = u
        · subst same
          simp [Routes.distance?, here] at known
        · exact settling.onward x d (by simp [same, passed]) known w leads
  | some found =>
      obtain ⟨d, previous⟩ := found
      dsimp only
      generalize after : (next u).foldl (Routes.offer extent ⟨d + 1, some u⟩) routes = routes'
      have changed : ∀ v, routes'.get v = routes.get v ∨
          Leads next u v ∧ routes'.get v = some ⟨d + 1, some u⟩ := by
        intro v
        rw [← after]
        exact Routes.get_offers
      have kept : ∀ v, ¬ Leads next u v → routes'.get v = routes.get v := by
        intro v apart
        rcases changed v with kept | ⟨leads, -⟩
        · exact kept
        · exact absurd leads apart
      have kept_distance : ∀ v, v ∉ rest → routes'.distance? v = routes.distance? v := by
        intro v passed
        rw [Routes.distance?, Routes.distance?, kept v fun leads => passed (ahead v leads)]
      have here' : routes.distance? u = some d := Routes.distance?_eq_some.mpr ⟨previous, here⟩
      refine ⟨?_, ?_, ?_, ?_⟩
      · rw [kept start away]
        exact settling.started
      · intro v e found
        rcases changed v with same | ⟨-, taken⟩
        · exact settling.origin v e (same ▸ found)
        · rw [taken] at found
          cases found
      · intro v e x found
        rcases changed v with same | ⟨leads, taken⟩
        · obtain ⟨passed, leads, known⟩ := settling.previous v e x (same ▸ found)
          have passed : x ∉ rest := fun later => passed (List.mem_cons_of_mem u later)
          rw [kept_distance x passed]
          exact ⟨passed, leads, known⟩
        · rw [taken] at found
          cases found
          exact ⟨new, leads, d, (kept_distance u new).trans here', rfl⟩
      · intro x e passed known w leads
        rw [kept_distance x passed] at known
        rw [← after]
        by_cases same : x = u
        · subst same
          obtain rfl : d = e := Option.some.inj (here'.symm.trans known)
          exact Routes.asGood_offers_of_mem leads
        · exact Routes.asGood_offers (settling.onward x e (by simp [same, passed]) known w leads)

theorem finish (settling : Settling next extent start rest routes) (ahead : Ahead next rest)
    (nodup : rest.Nodup) (away : ∀ u ∈ rest, ¬ Leads next u start) :
    Settling next extent start [] (rest.foldl (Routes.extend next extent) routes) := by
  induction rest generalizing routes with
  | nil => exact settling
  | cons u rest ih =>
      obtain ⟨new, nodup⟩ := List.nodup_cons.mp nodup
      have passed := settling.pass ahead.1 new (away u List.mem_cons_self)
      exact ih passed ahead.2 nodup fun v later => away v (List.mem_cons_of_mem u later)

/-! ## Links back -/

theorem previous?_start (settling : Settling next extent start rest routes) :
    routes.previous? start = none := by
  rw [Routes.previous?, settling.started]
  rfl

/-- Only the start is no step away. -/
theorem eq_start (settling : Settling next extent start rest routes) {v : Fin n}
    (known : routes.distance? v = some 0) : v = start := by
  obtain ⟨previous, found⟩ := Routes.distance?_eq_some.mp known
  cases previous with
  | none => exact settling.origin v 0 found
  | some u =>
      obtain ⟨-, -, e, -, bad⟩ := settling.previous v 0 u found
      omega

/-- Before any other vertex that has been reached there is one that is nearer by one step. -/
theorem exists_previous (settling : Settling next extent start rest routes) {v : Fin n} {d : Nat}
    (known : routes.distance? v = some (d + 1)) :
    ∃ u, routes.previous? v = some u ∧ routes.distance? u = some d ∧ Leads next u v := by
  obtain ⟨previous, found⟩ := Routes.distance?_eq_some.mp known
  cases previous with
  | none =>
      have at_start := settling.started
      rw [← settling.origin v _ found, found] at at_start
      cases at_start
  | some u =>
      obtain ⟨-, leads, e, before, same⟩ := settling.previous v _ u found
      obtain rfl : d = e := by omega
      exact ⟨u, by rw [Routes.previous?, found]; rfl, before, leads⟩

/-- A link leads to a vertex from one that is nearer by one step. -/
theorem of_previous? (settling : Settling next extent start rest routes) {u v : Fin n}
    (link : routes.previous? v = some u) :
    Leads next u v ∧ ∃ d, routes.distance? u = some d ∧ routes.distance? v = some (d + 1) := by
  obtain ⟨⟨e, previous⟩, found, rfl⟩ := Option.bind_eq_some_iff.mp link
  obtain ⟨-, leads, d, before, rfl⟩ := settling.previous v e u found
  exact ⟨leads, d, before, Routes.distance?_eq_some.mpr ⟨_, found⟩⟩

/-! ## Distances -/

theorem steps (settled : Settling next extent start [] routes) {v : Fin n} {d : Nat}
    (known : routes.distance? v = some d) : Steps (Leads next) start d v := by
  induction d generalizing v with
  | zero => exact settled.eq_start known ▸ .refl
  | succ d ih =>
      obtain ⟨u, -, before, leads⟩ := settled.exists_previous known
      exact (ih before).tail leads

theorem asGood (settled : Settling next extent start [] routes) {v : Fin n} {k : Nat}
    (steps : Steps (Leads next) start k v) : routes.AsGood extent v k := by
  induction steps with
  | refl =>
      exact ⟨0, Routes.distance?_eq_some.mpr ⟨none, settled.started⟩, extent.improves_self 0⟩
  | @tail k u w before leads ih =>
      obtain ⟨d, known, good⟩ := ih
      obtain ⟨e, known', good'⟩ := settled.onward u d List.not_mem_nil known w leads
      exact ⟨e, known', extent.improves_succ good good'⟩

/-- The distance of a vertex is the length of a walk to it on which none improves. -/
theorem distance?_eq_some (settled : Settling next extent start [] routes) {v : Fin n} {d : Nat} :
    routes.distance? v = some d ↔
      Steps (Leads next) start d v ∧
        ∀ k, Steps (Leads next) start k v → extent.improves k d = false := by
  constructor
  · intro known
    refine ⟨settled.steps known, ?_⟩
    intro k steps
    obtain ⟨e, known', good⟩ := settled.asGood steps
    rwa [Option.some.inj (known.symm.trans known')]
  · intro ⟨steps, best⟩
    obtain ⟨e, known, good⟩ := settled.asGood steps
    rwa [extent.eq_of_improves good (best e (settled.steps known))]

theorem reaches_iff (settled : Settling next extent start [] routes) {v : Fin n} :
    routes.reaches v = true ↔ ReflTransGen (Leads next) start v := by
  rw [Routes.reaches_iff]
  constructor
  · intro ⟨d, known⟩
    exact (settled.steps known).way
  · intro way
    obtain ⟨k, steps⟩ := exists_steps way
    obtain ⟨d, known, -⟩ := settled.asGood steps
    exact ⟨d, known⟩

/-- Searches that lead the same way find the same distances. -/
theorem distance?_congr {next' : Fin n → List (Fin n)} {routes' : Routes n}
    (settled : Settling next extent start [] routes)
    (settled' : Settling next' extent start [] routes') (same : Leads next' = Leads next) :
    routes'.distance? = routes.distance? := by
  funext v
  apply Option.ext
  intro d
  rw [settled.distance?_eq_some, settled'.distance?_eq_some, same]

end Settling

/-! ## Chains -/

namespace Routes

variable {routes : Routes n} {u v : Fin n} {steps : Nat}

theorem back_of_origin (origin : routes.previous? v = none) : routes.back steps v = [v] := by
  cases steps with
  | zero => rfl
  | succ steps => rw [back, origin]

theorem back_of_previous (link : routes.previous? v = some u) :
    routes.back (steps + 1) v = v :: routes.back steps u := by
  rw [back, link]

theorem head?_back (routes : Routes n) (steps : Nat) (v : Fin n) :
    (routes.back steps v).head? = some v := by
  cases steps with
  | zero => rfl
  | succ steps =>
      rw [back]
      split <;> rfl

end Routes

namespace Settling

variable {start v : Fin n} {routes : Routes n} {steps d : Nat}

/-- On the way back the distances count down to zero. -/
theorem map_distance?_back (settled : Settling next extent start [] routes)
    (known : routes.distance? v = some d) (enough : d ≤ steps) :
    (routes.back steps v).map routes.distance? = (List.range (d + 1)).reverse.map some := by
  induction d generalizing steps v with
  | zero =>
      obtain rfl := settled.eq_start known
      rw [Routes.back_of_origin settled.previous?_start, List.map_singleton, known]
      rfl
  | succ d ih =>
      obtain ⟨u, link, before, -⟩ := settled.exists_previous known
      obtain ⟨steps, rfl⟩ := Nat.exists_eq_succ_of_ne_zero (n := steps) (by omega)
      rw [Routes.back_of_previous link, List.map_cons, known,
        ih before (Nat.le_of_succ_le_succ enough), List.range_succ (n := d + 1),
        List.reverse_append]
      rfl

theorem length_back (settled : Settling next extent start [] routes)
    (known : routes.distance? v = some d) (enough : d ≤ steps) :
    (routes.back steps v).length = d + 1 := by
  simpa using congrArg List.length (settled.map_distance?_back known enough)

theorem nodup_back (settled : Settling next extent start [] routes)
    (known : routes.distance? v = some d) (enough : d ≤ steps) : (routes.back steps v).Nodup := by
  apply List.Nodup.of_map routes.distance?
  rw [settled.map_distance?_back known enough]
  exact (List.nodup_reverse.mpr List.nodup_range).map (Option.some_injective Nat)

theorem getLast?_back (settled : Settling next extent start [] routes)
    (known : routes.distance? v = some d) (enough : d ≤ steps) :
    (routes.back steps v).getLast? = some start := by
  have last := congrArg List.getLast? (settled.map_distance?_back known enough)
  rw [List.getLast?_map, List.getLast?_map, List.getLast?_reverse, List.head?_range,
    if_neg (Nat.succ_ne_zero d), Option.map_some] at last
  obtain ⟨u, found, here⟩ := Option.map_eq_some_iff.mp last
  rw [found, settled.eq_start here]

end Settling

theorem Routes.head?_chainTo (routes : Routes n) (v : Fin n) :
    (routes.chainTo v).head? = some v := routes.head?_back n v

/-- A walk that never comes back takes fewer steps than there are vertices. -/
theorem ReachOrder.steps_lt {start : Fin n} {order : List (Fin n)}
    (ordered : ReachOrder next start order) {v : Fin n} {k : Nat}
    (steps : Steps (Leads next) start k v) : k < n := by
  have along : order.idxOf start + k ≤ order.idxOf v := by
    induction steps with
    | refl => exact Nat.le_refl _
    | @tail k u w before leads ih =>
        have listed := (ordered.mem_iff u).mpr before.way
        have later := ordered.ahead.idxOf_lt ordered.nodup listed leads
        omega
  have inside := List.idxOf_lt_length_of_mem ((ordered.mem_iff v).mpr steps.way)
  have short := ordered.nodup.length_le_card
  rw [Fintype.card_fin] at short
  omega

namespace Digraph

variable {d : Digraph n} {way : Way} {start : Fin n}

theorem routes?_eq_some {routes : Routes n} (found : d.routes? way extent start = some routes) :
    Settling (d.neighbors way) extent start [] routes ∧
      ∃ order, ReachOrder (d.neighbors way) start order := by
  obtain ⟨order, listed, rfl⟩ := Option.map_eq_some_iff.mp found
  have ordered := reachableOrder?_eq_some listed
  have here := (ordered.mem_iff start).mpr .refl
  refine ⟨(Settling.init here).finish ordered.ahead ordered.nodup ?_, order, ordered⟩
  intro u listed back
  exact ordered.ahead.acyclic ordered.nodup here (.tail' ((ordered.mem_iff u).mp listed) back)

theorem routes?_isSome_iff :
    (d.routes? way extent start).isSome ↔ Clear (Leads (d.neighbors way)) start := by
  rw [routes?, Option.isSome_map, reachableOrder?_isSome_iff]

/-- Against turned edges the distances are the same. -/
theorem Opposite.routes? {d' : Digraph n} (opposite : Opposite d d') (way : Way) (extent : Extent)
    (start : Fin n) :
    (d'.routes? way.flip extent start).map Routes.distance? =
      (d.routes? way extent start).map Routes.distance? := by
  have leads := opposite.leads_flip way
  have found : (d'.routes? way.flip extent start).isSome = (d.routes? way extent start).isSome := by
    rw [Bool.eq_iff_iff, routes?_isSome_iff, routes?_isSome_iff, leads]
  cases here : d.routes? way extent start with
  | none =>
      rw [here, Option.isSome_none, Option.isSome_eq_false_iff, Option.isNone_iff_eq_none] at found
      rw [found]
  | some routes =>
      rw [here, Option.isSome_some] at found
      obtain ⟨routes', here'⟩ := Option.isSome_iff_exists.mp found
      have same := (routes?_eq_some here).1.distance?_congr (routes?_eq_some here').1 leads
      rw [here', Option.map_some, Option.map_some, same]

/-- The chain to a vertex leads back to the start and has as many steps as the vertex is away. -/
theorem chainTo_spec {routes : Routes n} (found : d.routes? way extent start = some routes)
    {v : Fin n} {k : Nat} (known : routes.distance? v = some k) :
    (routes.chainTo v).length = k + 1 ∧ (routes.chainTo v).head? = some v ∧
      (routes.chainTo v).getLast? = some start := by
  obtain ⟨settled, order, ordered⟩ := routes?_eq_some found
  have short := ordered.steps_lt (settled.steps known)
  exact ⟨settled.length_back known (by omega), routes.head?_chainTo v,
    settled.getLast?_back known (by omega)⟩

end Digraph

/-! ## The farthest vertex -/

namespace Routes

variable {routes routes' : Routes n}

theorem farthest?_congr (same : routes'.distance? = routes.distance?) :
    routes'.farthest? = routes.farthest? := by
  have step : routes'.farther = routes.farther := by
    funext best v
    unfold farther
    rw [same]
  rw [farthest?, farthest?, step]

theorem farthest?_eq_some {v : Fin n} (found : routes.farthest? = some v) :
    ∃ d, routes.distance? v = some d := by
  have known : ∀ (vs : List (Fin n)) (best : Option (Fin n × Nat)),
      (∀ p ∈ best, routes.distance? p.1 = some p.2) →
        ∀ p ∈ vs.foldl routes.farther best, routes.distance? p.1 = some p.2 := by
    intro vs
    induction vs with
    | nil => exact fun best known => known
    | cons w vs ih =>
        intro best known
        apply ih
        intro p taken
        unfold farther at taken
        split at taken <;> grind
  obtain ⟨⟨w, d⟩, best, rfl⟩ := Option.map_eq_some_iff.mp found
  exact ⟨d, known _ none (by simp) (w, d) best⟩

end Routes

end Provenance
