import Mathlib.Data.List.Sort
import Provenance.Proofs.Digraph.Carrying
import Provenance.Proofs.Graph.Paths

/-! # Routes in a part

The routes from a vertex of a part are the same under other numbers: the milestones, the chains back
to the start, and the farthest vertex, as long as the other numbers are in the same order.
-/

open Relation (ReflTransGen)

namespace Provenance

variable {n n' : Nat} {inside : Fin n → Prop} {f : Fin n → Fin n'}

/-- A milestone in other numbers. -/
def Milestone.carry (f : Fin n → Fin n') (milestone : Milestone n) : Milestone n' where
  distance := milestone.distance
  previous := milestone.previous.map f

/-- What two routes say of a part is the same. -/
def Routes.Carried (inside : Fin n → Prop) (f : Fin n → Fin n') (routes : Routes n)
    (routes' : Routes n') : Prop :=
  ∀ i, inside i → routes'.get (f i) = (routes.get i).map (Milestone.carry f)

namespace Routes.Carried

variable {routes : Routes n} {routes' : Routes n'} {i : Fin n}

theorem distance? (carried : Carried inside f routes routes') (here : inside i) :
    routes'.distance? (f i) = routes.distance? i := by
  rw [Routes.distance?, Routes.distance?, carried i here, Option.map_map]
  rfl

theorem previous? (carried : Carried inside f routes routes') (here : inside i) :
    routes'.previous? (f i) = (routes.previous? i).map f := by
  rw [Routes.previous?, Routes.previous?, carried i here]
  cases routes.get i <;> rfl

theorem reaches (carried : Carried inside f routes routes') (here : inside i) :
    routes'.reaches (f i) = routes.reaches i := by
  rw [Routes.reaches, Routes.reaches, carried i here, Option.isSome_map]

end Routes.Carried

/-- What lies on the way back can be reached from the start. -/
theorem Settling.way_of_mem_back {next : Fin n → List (Fin n)} {extent : Extent} {start : Fin n}
    {routes : Routes n} (settled : Settling next extent start [] routes) {steps : Nat}
    {v : Fin n} (reached : ReflTransGen (Leads next) start v) {u : Fin n}
    (listed : u ∈ routes.back steps v) : ReflTransGen (Leads next) start u := by
  induction steps generalizing v with
  | zero => exact List.mem_singleton.mp listed ▸ reached
  | succ steps ih =>
      rw [Routes.back] at listed
      split at listed
      · exact List.mem_singleton.mp listed ▸ reached
      next w link =>
        obtain ⟨-, e, before, -⟩ := settled.of_previous? link
        rcases List.mem_cons.mp listed with rfl | later
        · exact reached
        · exact ih (settled.steps before).way later

namespace Carries

variable {next : Fin n → List (Fin n)} {next' : Fin n' → List (Fin n')} {extent : Extent}
  {routes : Routes n} {routes' : Routes n'} {i start : Fin n}

theorem set (carries : Carries inside f next next')
    (carried : Routes.Carried inside f routes routes') (here : inside i)
    (milestone : Milestone n) :
    Routes.Carried inside f (routes.set i (some milestone))
      (routes'.set (f i) (some (milestone.carry f))) := by
  intro j there
  rw [VertexMap.get_set, VertexMap.get_set, carried j there]
  simp only [carries.apply_eq_iff here there]
  split <;> rfl

theorem offer (carries : Carries inside f next next')
    (carried : Routes.Carried inside f routes routes') (here : inside i)
    (milestone : Milestone n) :
    Routes.Carried inside f (routes.offer extent milestone i)
      (routes'.offer extent (milestone.carry f) (f i)) := by
  unfold Routes.offer
  rw [carried i here]
  cases routes.get i with
  | none => exact carries.set carried here milestone
  | some found =>
      have same : extent.improves (milestone.carry f).distance (found.carry f).distance =
          extent.improves milestone.distance found.distance := rfl
      dsimp only [Option.map_some]
      rw [same]
      by_cases better : extent.improves milestone.distance found.distance = true
      · rw [if_pos better, if_pos better]
        exact carries.set carried here milestone
      · rw [if_neg better, if_neg better]
        exact carried

theorem extend (carries : Carries inside f next next')
    (carried : Routes.Carried inside f routes routes') (here : inside i) :
    Routes.Carried inside f (routes.extend next extent i)
      (routes'.extend next' extent (f i)) := by
  unfold Routes.extend
  rw [carried i here]
  cases routes.get i with
  | none => exact carried
  | some found =>
      dsimp only [Option.map_some]
      have within : ∀ w ∈ next i, inside w := fun w => carries.closed here
      rw [carries.next_eq here]
      generalize next i = ws at within
      induction ws generalizing routes routes' with
      | nil => exact carried
      | cons w ws ih =>
          obtain ⟨first, later⟩ := List.forall_mem_cons.mp within
          exact ih (carries.offer carried first ⟨found.distance + 1, some i⟩) later

theorem init (carries : Carries inside f next next') (here : inside start) :
    Routes.Carried inside f (Routes.init start) (Routes.init (f start)) := by
  have unreached : Routes.Carried inside f (.const none) (.const none) := fun i _ => by
    rw [VertexMap.get_const, VertexMap.get_const]
    rfl
  exact carries.set unreached here ⟨0, none⟩

theorem pass (carries : Carries inside f next next') {order : List (Fin n)}
    (within : ∀ v ∈ order, inside v) (carried : Routes.Carried inside f routes routes') :
    Routes.Carried inside f (order.foldl (Routes.extend next extent) routes)
      ((order.map f).foldl (Routes.extend next' extent) routes') := by
  induction order generalizing routes routes' with
  | nil => exact carried
  | cons u order ih =>
      obtain ⟨here, later⟩ := List.forall_mem_cons.mp within
      exact ih later (carries.extend carried here)

/-! ## Chains -/

/-- Any number of steps will do that leads back to the start. -/
theorem back_map (carries : Carries inside f next next') (here : inside start)
    (carried : Routes.Carried inside f routes routes')
    (settled : Settling next extent start [] routes) {v : Fin n} {d steps steps' : Nat}
    (known : routes.distance? v = some d) (enough : d ≤ steps) (enough' : d ≤ steps') :
    routes'.back steps' (f v) = (routes.back steps v).map f := by
  have within : inside v := carries.inside_of_way here (settled.steps known).way
  have turned := carried.previous? within
  induction d generalizing v steps steps' with
  | zero =>
      obtain rfl := settled.eq_start known
      rw [settled.previous?_start] at turned
      rw [Routes.back_of_origin settled.previous?_start, Routes.back_of_origin turned]
      rfl
  | succ d ih =>
      obtain ⟨u, link, before, -⟩ := settled.exists_previous known
      rw [link] at turned
      obtain ⟨k, rfl⟩ := Nat.exists_eq_succ_of_ne_zero (n := steps) (by omega)
      obtain ⟨k', rfl⟩ := Nat.exists_eq_succ_of_ne_zero (n := steps') (by omega)
      have within' : inside u := carries.inside_of_way here (settled.steps before).way
      have rest : routes'.back k' (f u) = (routes.back k u).map f :=
        ih before (Nat.le_of_succ_le_succ enough) (Nat.le_of_succ_le_succ enough') within'
          (carried.previous? within')
      rw [Routes.back_of_previous link, Routes.back_of_previous turned, List.map_cons, rest]

end Carries

namespace Digraph

variable {d : Digraph n} {d' : Digraph n'} {way : Way} {extent : Extent} {start v : Fin n}
  {routes : Routes n} {routes' : Routes n'}

theorem reachableOrder?_map (carries : Carries inside f (d.neighbors way) (d'.neighbors way))
    (here : inside start) :
    d'.reachableOrder? way (f start) = (d.reachableOrder? way start).map (·.map f) := by
  have alone : Carries.Within inside [(start, d.neighbors way start)] :=
    carries.within_enter here fun _ listed => absurd listed List.not_mem_nil
  have found := carries.closeFrom?_map (carries.agrees_singleton here) agrees_empty [] alone
  rw [reachableOrder?, reachableOrder?, ← found, carries.next_eq here]
  rfl

theorem routes?_of_none (carries : Carries inside f (d.neighbors way) (d'.neighbors way))
    (here : inside start) (missed : d.routes? way extent start = none) :
    d'.routes? way extent (f start) = none := by
  rw [routes?, Option.map_eq_none_iff] at missed
  rw [routes?, reachableOrder?_map carries here, missed]
  rfl

theorem routes?_of_some (carries : Carries inside f (d.neighbors way) (d'.neighbors way))
    (here : inside start) (found : d.routes? way extent start = some routes) :
    ∃ routes', d'.routes? way extent (f start) = some routes' ∧
      Routes.Carried inside f routes routes' := by
  obtain ⟨order, listed, rfl⟩ := Option.map_eq_some_iff.mp found
  have ordered := reachableOrder?_eq_some listed
  have within : ∀ v ∈ order, inside v := fun v member =>
    carries.inside_of_way here ((ordered.mem_iff v).mp member)
  refine ⟨_, ?_, carries.pass within (carries.init here)⟩
  rw [routes?, reachableOrder?_map carries here, listed]
  rfl

theorem chainTo_map (carries : Carries inside f (d.neighbors way) (d'.neighbors way))
    (here : inside start) (carried : Routes.Carried inside f routes routes')
    (found : d.routes? way extent start = some routes)
    (found' : d'.routes? way extent (f start) = some routes')
    (reached : routes.reaches v = true) :
    routes'.chainTo (f v) = (routes.chainTo v).map f := by
  obtain ⟨settled, order, ordered⟩ := routes?_eq_some found
  obtain ⟨settled', order', ordered'⟩ := routes?_eq_some found'
  obtain ⟨⟨k, previous⟩, milestone⟩ := Option.isSome_iff_exists.mp reached
  have known : routes.distance? v = some k := Routes.distance?_eq_some.mpr ⟨previous, milestone⟩
  have within := carries.inside_of_way here (settled.steps known).way
  have known' := (carried.distance? within).trans known
  have short := ordered.steps_lt (settled.steps known)
  have short' := ordered'.steps_lt (settled'.steps known')
  exact carries.back_map here carried settled known (Nat.le_of_lt short) (Nat.le_of_lt short')

end Digraph

/-! ## The farthest vertex -/

namespace Routes

variable {routes : Routes n} {routes' : Routes n'}

theorem reaches_farthest? {v : Fin n} (found : routes.farthest? = some v) :
    routes.reaches v = true := by
  obtain ⟨d, known⟩ := farthest?_eq_some found
  obtain ⟨previous, milestone⟩ := distance?_eq_some.mp known
  rw [reaches, milestone, Option.isSome_some]

theorem foldl_farther (routes : Routes n) (vs : List (Fin n)) (best : Option (Fin n × Nat)) :
    (vs.filter routes.reaches).foldl routes.farther best = vs.foldl routes.farther best := by
  have skipped : ∀ best v, (if routes.reaches v = true then routes.farther best v else best) =
      routes.farther best v := by
    intro best v
    unfold reaches farther distance?
    cases routes.get v <;> simp
  simp only [List.foldl_filter, skipped]

theorem Carried.foldl_farther (carried : Carried inside f routes routes') {vs : List (Fin n)}
    (within : ∀ v ∈ vs, inside v) (best : Option (Fin n × Nat)) :
    (vs.map f).foldl routes'.farther (best.map fun p => (f p.1, p.2)) =
      (vs.foldl routes.farther best).map fun p => (f p.1, p.2) := by
  induction vs generalizing best with
  | nil => rfl
  | cons v vs ih =>
      obtain ⟨here, later⟩ := List.forall_mem_cons.mp within
      have step : routes'.farther (best.map fun p => (f p.1, p.2)) (f v) =
          (routes.farther best v).map fun p => (f p.1, p.2) := by
        unfold farther
        rw [carried.distance? here]
        cases routes.distance? v with
        | none => rfl
        | some d =>
            cases best with
            | none => dsimp only [Option.map_none]; split <;> rfl
            | some p => dsimp only [Option.map_some]; split <;> rfl
      rw [List.map_cons, List.foldl_cons, List.foldl_cons, step, ih later]

end Routes

/-- The numbers of a part in another digraph, in the same order; whichever way the edges are taken,
neither search leads out of the part. -/
structure Digraph.Embeds (inside : Fin n → Prop) (f : Fin n → Fin n') (d : Digraph n)
    (d' : Digraph n') : Prop where
  carries : ∀ way, Carries inside f (d.neighbors way) (d'.neighbors way)
  ordered : ∀ {i j}, inside i → inside j → i < j → f i < f j

namespace Digraph.Embeds

variable {d : Digraph n} {d' : Digraph n'} {way way' : Way} {extent : Extent} {start a b : Fin n}
  {routes up down : Routes n} {routes' up' down' : Routes n'}

theorem inside_of_reaches (embeds : Embeds inside f d d') (here : inside start)
    (found : d.routes? way extent start = some routes) {v : Fin n}
    (reached : routes.reaches v = true) : inside v :=
  (embeds.carries way).inside_of_way here ((routes?_eq_some found).1.reaches_iff.mp reached)

theorem filter_reaches (embeds : Embeds inside f d d') (here : inside start)
    (found : d.routes? way extent start = some routes)
    (found' : d'.routes? way extent (f start) = some routes') :
    (List.finRange n').filter routes'.reaches =
      ((List.finRange n).filter routes.reaches).map f := by
  obtain ⟨settled, -⟩ := routes?_eq_some found
  obtain ⟨settled', -⟩ := routes?_eq_some found'
  have within : ∀ v ∈ (List.finRange n).filter routes.reaches, inside v := fun v listed =>
    embeds.inside_of_reaches here found (List.mem_filter.mp listed).2
  have sorted : ((List.finRange n).filter routes.reaches).Pairwise (· < ·) :=
    (List.pairwise_lt_finRange n).filter _
  refine List.Pairwise.eq_of_mem_iff (r := (· < ·)) ((List.pairwise_lt_finRange n').filter _) ?_ ?_
  · refine List.pairwise_map.mpr (sorted.imp_of_mem fun first second lt => ?_)
    exact embeds.ordered (within _ first) (within _ second) lt
  · intro v
    simp only [List.mem_filter, List.mem_finRange, true_and, List.mem_map, settled.reaches_iff,
      settled'.reaches_iff]
    exact (embeds.carries way).way_iff here

theorem farthest? (embeds : Embeds inside f d d') (here : inside start)
    (carried : Routes.Carried inside f routes routes')
    (found : d.routes? way extent start = some routes)
    (found' : d'.routes? way extent (f start) = some routes') :
    routes'.farthest? = routes.farthest?.map f := by
  have within : ∀ v ∈ (List.finRange n).filter routes.reaches, inside v := fun v listed =>
    embeds.inside_of_reaches here found (List.mem_filter.mp listed).2
  have folded := carried.foldl_farther within none
  rw [← embeds.filter_reaches here found found', Routes.foldl_farther, Routes.foldl_farther,
    Option.map_none] at folded
  rw [Routes.farthest?, Routes.farthest?, folded, Option.map_map, Option.map_map]
  rfl

/-! ## Paths -/

theorem through (embeds : Embeds inside f d d') (here : inside a)
    (carried : Routes.Carried inside f up up') (carried' : Routes.Carried inside f down down')
    (found : d.routes? way .longest a = some up)
    (found' : d'.routes? way .longest (f a) = some up')
    (found_down : d.routes? way' .longest a = some down)
    (found_down' : d'.routes? way' .longest (f a) = some down') :
    up'.through down' (f a) = (up.through down a).map f := by
  unfold Routes.through
  rw [embeds.farthest? here carried found found',
    embeds.farthest? here carried' found_down found_down', List.map_append]
  congr 1
  · cases farthest : up.farthest? with
    | none => rfl
    | some root =>
        exact chainTo_map (embeds.carries way) here carried found found'
          (Routes.reaches_farthest? farthest)
  · cases farthest : down.farthest? with
    | none => rfl
    | some leaf =>
        dsimp only [Option.map_some]
        rw [chainTo_map (embeds.carries way') here carried' found_down found_down'
          (Routes.reaches_farthest? farthest),
          List.map_tail, List.map_reverse]

theorem between? (embeds : Embeds inside f d d') (here : inside a) (there : inside b) :
    d'.between? (f a) (f b) = (d.between? a b).map (·.map f) := by
  have carries := embeds.carries .along
  unfold Digraph.between?
  by_cases same : a = b
  · rw [if_pos same, if_pos (congrArg f same)]
    rfl
  rw [if_neg same, if_neg (mt (carries.inj here there) same)]
  cases found : d.routes? .along .shortest a with
  | none =>
      rw [routes?_of_none carries here found]
      rfl
  | some forth =>
      obtain ⟨forth', found', carried⟩ := routes?_of_some carries here found
      rw [found']
      dsimp only
      rw [carried.reaches there]
      by_cases reached : forth.reaches b = true
      · rw [if_pos reached, if_pos reached, chainTo_map carries here carried found found' reached,
          Option.map_some, List.map_reverse]
      rw [if_neg reached, if_neg reached]
      cases found_back : d.routes? .along .shortest b with
      | none =>
          rw [routes?_of_none carries there found_back]
          rfl
      | some back =>
          obtain ⟨back', found_back', carried'⟩ := routes?_of_some carries there found_back
          rw [found_back']
          dsimp only
          rw [carried'.reaches here]
          by_cases reached : back.reaches a = true
          · rw [if_pos reached, if_pos reached,
              chainTo_map carries there carried' found_back found_back' reached, Option.map_some]
          · rw [if_neg reached, if_neg reached]
            rfl

/-! ## Paths stay in the part -/

theorem inside_of_mem_chainTo (embeds : Embeds inside f d d') (here : inside start)
    (found : d.routes? way extent start = some routes) (reached : routes.reaches b = true)
    {v : Fin n} (listed : v ∈ routes.chainTo b) : inside v := by
  obtain ⟨settled, -⟩ := routes?_eq_some found
  exact (embeds.carries way).inside_of_way here
    (settled.way_of_mem_back (settled.reaches_iff.mp reached) listed)

theorem inside_of_mem_through (embeds : Embeds inside f d d') (here : inside a)
    (found : d.routes? way .longest a = some up)
    (found_down : d.routes? way' .longest a = some down) {v : Fin n}
    (listed : v ∈ up.through down a) : inside v := by
  rcases List.mem_append.mp listed with above | below
  · cases farthest : up.farthest? with
    | none =>
        rw [farthest] at above
        exact List.mem_singleton.mp above ▸ here
    | some root =>
        rw [farthest] at above
        exact embeds.inside_of_mem_chainTo here found (Routes.reaches_farthest? farthest) above
  · cases farthest : down.farthest? with
    | none =>
        rw [farthest] at below
        cases below
    | some leaf =>
        rw [farthest] at below
        exact embeds.inside_of_mem_chainTo here found_down (Routes.reaches_farthest? farthest)
          (List.mem_reverse.mp (List.mem_of_mem_tail below))

theorem inside_of_mem_between? (embeds : Embeds inside f d d') (here : inside a)
    (there : inside b) {path : List (Fin n)} (found : d.between? a b = some path) {v : Fin n}
    (listed : v ∈ path) : inside v := by
  unfold Digraph.between? at found
  split at found
  · rw [← Option.some.inj found] at listed
    exact List.mem_singleton.mp listed ▸ here
  · split at found
    · cases found
    next forth searched =>
      split at found
      next reached =>
        rw [← Option.some.inj found, List.mem_reverse] at listed
        exact embeds.inside_of_mem_chainTo here searched reached listed
      next =>
        split at found
        · cases found
        next back searched_back =>
          split at found
          next reached =>
            rw [← Option.some.inj found] at listed
            exact embeds.inside_of_mem_chainTo there searched_back reached listed
          next =>
            rw [← Option.some.inj found] at listed
            cases listed

end Digraph.Embeds

end Provenance
