import Provenance.Proofs.Digraph.Paths

/-! # Farthest vertices

The vertices are compared in storage order, and a vertex takes the place of the best one so far only
if it is farther. So the one that is left is the first at the greatest distance.
-/

namespace Provenance

variable {n : Nat}

namespace Routes

variable {routes : Routes n} {v w : Fin n} {d : Nat} {passed : List (Fin n)}

/-- No vertex of the list is farther than `v`, and those that are as far come after it. -/
structure Best (routes : Routes n) (passed : List (Fin n)) (v : Fin n) (d : Nat) : Prop where
  listed : v ∈ passed
  distance : routes.distance? v = some d
  most : ∀ w ∈ passed, ∀ e, routes.distance? w = some e → e ≤ d
  first : ∀ w ∈ passed, routes.distance? w = some d → w ≠ v → List.Sublist [v, w] passed

namespace Best

/-- The best vertex stays the best if the next one is not farther. -/
theorem stay (best : routes.Best passed v d)
    (near : ∀ e, routes.distance? w = some e → e ≤ d) : routes.Best (passed ++ [w]) v d where
  listed := List.mem_append_left [w] best.listed
  distance := best.distance
  most := by
    rw [List.forall_mem_append]
    exact ⟨best.most, by simpa using near⟩
  first := by
    intro u listed far other
    rcases List.mem_append.mp listed with before | last
    · exact (best.first u before far other).trans (List.sublist_append_left passed [w])
    · obtain rfl := List.mem_singleton.mp last
      exact (List.singleton_sublist.mpr best.listed).append (.refl [u])

/-- A farther vertex takes the place of the best. -/
theorem replace (far : routes.distance? w = some d)
    (near : ∀ u ∈ passed, ∀ e, routes.distance? u = some e → e < d) :
    routes.Best (passed ++ [w]) w d where
  listed := by simp
  distance := far
  most := by
    intro u listed e known
    rcases List.mem_append.mp listed with before | last
    · exact Nat.le_of_lt (near u before e known)
    · obtain rfl := List.mem_singleton.mp last
      exact Nat.le_of_eq (Option.some.inj (known.symm.trans far))
  first := by
    intro u listed known other
    rcases List.mem_append.mp listed with before | last
    · exact absurd (near u before d known) (Nat.lt_irrefl d)
    · exact absurd (List.mem_singleton.mp last) other

end Best

/-- What the comparison has found in the list. While that is nothing, every distance is zero. -/
def Compared (routes : Routes n) (passed : List (Fin n)) : Option (Fin n × Nat) → Prop
  | none => ∀ w ∈ passed, ∀ e, routes.distance? w = some e → e = 0
  | some (v, d) => routes.Best passed v d

theorem Compared.farther {best : Option (Fin n × Nat)} (compared : routes.Compared passed best)
    (w : Fin n) : routes.Compared (passed ++ [w]) (routes.farther best w) := by
  unfold Routes.farther
  cases known : routes.distance? w with
  | none =>
      cases best with
      | none =>
          intro u listed
          rcases List.mem_append.mp listed with before | last
          · exact compared u before
          · obtain rfl := List.mem_singleton.mp last
            simp [known]
      | some best => exact Best.stay compared (by simp [known])
  | some e =>
      cases best with
      | none =>
          dsimp only
          by_cases here : e = 0
          · rw [if_pos here]
            intro u listed
            rcases List.mem_append.mp listed with before | last
            · exact compared u before
            · obtain rfl := List.mem_singleton.mp last
              simp [known, here]
          · rw [if_neg here]
            refine Best.replace known fun u listed k far => ?_
            have at_start := compared u listed k far
            omega
      | some best =>
          obtain ⟨v, d⟩ := best
          dsimp only
          by_cases farther : d < e
          · rw [if_pos farther]
            refine Best.replace known fun u listed k far => ?_
            have near := compared.most u listed k far
            omega
          · rw [if_neg farther]
            refine Best.stay compared fun k far => ?_
            obtain rfl := Option.some.inj (known.symm.trans far)
            omega

theorem compared_foldl (routes : Routes n) (passed : List (Fin n)) :
    routes.Compared passed (passed.foldl routes.farther none) := by
  induction passed using List.reverseRecOn with
  | nil => exact fun w listed => absurd listed List.not_mem_nil
  | append_singleton passed w ih =>
      rw [List.foldl_append, List.foldl_cons, List.foldl_nil]
      exact ih.farther w

/-- The distance of the farthest vertex. -/
def depth (routes : Routes n) : Nat := (routes.farthest?.bind routes.distance?).getD 0

theorem depth_congr {routes routes' : Routes n} (same : routes'.distance? = routes.distance?) :
    routes'.depth = routes.depth := by
  rw [depth, depth, farthest?_congr same, same]

end Routes

namespace Digraph

variable {d : Digraph n} {way : Way} {a : Fin n} {routes up down : Routes n}

/-- The farthest vertex is the start itself if no step leads away from there. -/
theorem best_farthest (found : d.routes? way .longest a = some routes) :
    routes.Best (List.finRange n) (routes.farthest?.getD a) routes.depth := by
  have best := routes.compared_foldl (List.finRange n)
  cases folded : (List.finRange n).foldl routes.farther none with
  | none =>
      have nowhere : routes.farthest? = none := by rw [Routes.farthest?, folded]; rfl
      have settled := (routes?_eq_some found).1
      have here : routes.distance? a = some 0 :=
        Routes.distance?_eq_some.mpr ⟨none, settled.started⟩
      rw [folded] at best
      rw [Routes.depth, nowhere]
      refine ⟨List.mem_finRange a, here, fun w listed e known => ?_, fun w _ near other => ?_⟩
      · exact Nat.le_of_eq (best w listed e known)
      · cases settled.steps near
        exact absurd rfl other
  | some farthest =>
      obtain ⟨v, k⟩ := farthest
      have there : routes.farthest? = some v := by rw [Routes.farthest?, folded]; rfl
      rw [folded] at best
      have depth : routes.depth = k := by
        rw [Routes.depth, there, Option.bind_some, best.distance]
        rfl
      rw [there, depth]
      exact best

end Digraph

/-! ## Through a vertex -/

/-- The chain from the farthest vertex one way over `a` to the farthest one the other way. -/
def Routes.through (up down : Routes n) (a : Fin n) : List (Fin n) :=
  (match up.farthest? with
    | some root => up.chainTo root
    | none => [a]) ++
  match down.farthest? with
    | some leaf => (down.chainTo leaf).reverse.tail
    | none => []

namespace Digraph

variable {d : Digraph n} {a : Fin n} {way way' : Way} {up down : Routes n}

theorem isPath_above (found : d.routes? way .longest a = some up) :
    IsPath (Function.swap (Leads (d.neighbors way))) (up.farthest?.getD a) a
      (match up.farthest? with
        | some root => up.chainTo root
        | none => [a]) := by
  cases farthest : up.farthest? with
  | none => exact .refl _ a
  | some root =>
      obtain ⟨k, known⟩ := Routes.farthest?_eq_some farthest
      exact isPath_back found (Routes.reaches_iff.mpr ⟨k, known⟩)

theorem isPath_below (found : d.routes? way .longest a = some down) :
    IsPath (Leads (d.neighbors way)) a (down.farthest?.getD a)
      (a :: match down.farthest? with
        | some leaf => (down.chainTo leaf).reverse.tail
        | none => []) := by
  cases farthest : down.farthest? with
  | none => exact .refl _ a
  | some leaf =>
      obtain ⟨k, known⟩ := Routes.farthest?_eq_some farthest
      have forth := isPath_chainTo found (Routes.reaches_iff.mpr ⟨k, known⟩)
      have whole : a :: (down.chainTo leaf).reverse.tail = (down.chainTo leaf).reverse :=
        List.cons_head?_tail forth.first
      dsimp only
      rwa [whole]

theorem length_through (above : d.routes? way .longest a = some up)
    (below : d.routes? way' .longest a = some down) :
    (up.through down a).length = up.depth + 1 + down.depth := by
  unfold Routes.through
  rw [List.length_append]
  congr 1
  · cases farthest : up.farthest? with
    | none => simp [Routes.depth, farthest]
    | some root =>
        obtain ⟨k, known⟩ := Routes.farthest?_eq_some farthest
        simp [Routes.depth, farthest, known, (chainTo_spec above known).1]
  · cases farthest : down.farthest? with
    | none => simp [Routes.depth, farthest]
    | some leaf =>
        obtain ⟨k, known⟩ := Routes.farthest?_eq_some farthest
        simp [Routes.depth, farthest, known, (chainTo_spec below known).1]

/-- The chain over a vertex has the farthest vertices as its ends. -/
theorem through_spec (above : d.routes? way .longest a = some up)
    (below : d.routes? way' .longest a = some down) :
    (up.through down a).length = up.depth + 1 + down.depth ∧
      (up.through down a).head? = some (up.farthest?.getD a) ∧
      (up.through down a).getLast? = some (down.farthest?.getD a) := by
  have first := (isPath_above above).first
  have last := (isPath_below below).last
  refine ⟨length_through above below, ?_, ?_⟩
  · rw [Routes.through, List.head?_append, first]
    rfl
  · rw [Routes.through, List.getLast?_append, (isPath_above above).last, ← last]
    generalize (match down.farthest? with
      | some leaf => (down.chainTo leaf).reverse.tail
      | none => []) = below
    cases below <;> rfl

/-- The same distances lead to chains of the same length with the same ends. -/
theorem through_congr {d' : Digraph n} {up' down' : Routes n} {toRoots toLeaves : Way}
    (above : d.routes? way .longest a = some up) (below : d.routes? way' .longest a = some down)
    (above' : d'.routes? toRoots .longest a = some up')
    (below' : d'.routes? toLeaves .longest a = some down')
    (same_up : up'.distance? = up.distance?) (same_down : down'.distance? = down.distance?) :
    (up'.through down' a).length = (up.through down a).length ∧
      (up'.through down' a).head? = (up.through down a).head? ∧
      (up'.through down' a).getLast? = (up.through down a).getLast? := by
  obtain ⟨length, first, last⟩ := through_spec above below
  obtain ⟨length', first', last'⟩ := through_spec above' below'
  rw [length, first, last, length', first', last', Routes.depth_congr same_up,
    Routes.depth_congr same_down, Routes.farthest?_congr same_up, Routes.farthest?_congr same_down]
  exact ⟨rfl, rfl, rfl⟩

/-- If one search goes back where the other goes, the chain is a path. -/
theorem isPath_through (above : d.routes? way.flip .longest a = some up)
    (below : d.routes? way .longest a = some down) :
    IsPath (Leads (d.neighbors way)) (up.farthest?.getD a) (down.farthest?.getD a)
      (up.through down a) := by
  have back := isPath_above above
  have steps := back.steps.imp fun _ _ step => leads_flip.mp step
  exact IsPath.append ⟨steps, back.first, back.last⟩ (isPath_below below)

theorem mem_through (above : d.routes? way .longest a = some up) (down : Routes n) :
    a ∈ up.through down a :=
  List.mem_append_left _ (List.mem_of_getLast? (isPath_above above).last)

end Digraph

end Provenance
