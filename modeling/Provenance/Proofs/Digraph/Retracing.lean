import Mathlib
import Provenance.Proofs.Digraph.Paths

/-! # Retracing

The way back from a vertex, taken step by step. A step knows nothing of distances or of how many
steps are left: it goes on as long as there is a vertex before the one where it is. The way ends all
the same, since whatever was overtaken while the routes were settled, each vertex is one step
farther than the one that is kept before it.
-/

namespace Provenance

variable {n : Nat}

/-- Where the way back is, and the vertices that it has listed, this one among them. -/
structure Retracing (n : Nat) where
  listed : List (Fin n)
  here : Fin n

namespace Retracing

def start (v : Fin n) : Retracing n := ⟨[v], v⟩

/-- The next state. There is none where no vertex comes before. -/
def step (routes : Routes n) (s : Retracing n) : Option (Retracing n) :=
  (routes.previous? s.here).map fun u => ⟨s.listed ++ [u], u⟩

/-- One step leads to the next. -/
def Next (routes : Routes n) (s s' : Retracing n) : Prop := s.step routes = some s'

end Retracing

namespace Settling

variable {next : Fin n → List (Fin n)} {extent : Extent} {start : Fin n} {routes : Routes n}

theorem not_next_start (settled : Settling next extent start [] routes) (listed : List (Fin n))
    (s : Retracing n) : ¬ Retracing.Next routes ⟨listed, start⟩ s := by
  intro onward
  rw [Retracing.Next, Retracing.step, settled.previous?_start] at onward
  cases onward

/-- From a vertex that is `d` steps away, `d` steps back list what is found within any number of
steps that is great enough, behind what has been listed before. -/
theorem retraces (settled : Settling next extent start [] routes) {steps d : Nat} {v : Fin n}
    (known : routes.distance? v = some d) (enough : d ≤ steps) (listed : List (Fin n)) :
    Steps (Retracing.Next routes) ⟨listed, v⟩ d
      ⟨listed ++ (routes.back steps v).tail, start⟩ := by
  induction d generalizing steps v listed with
  | zero =>
      obtain rfl := settled.eq_start known
      rw [Routes.back_of_origin settled.previous?_start, List.tail_cons, List.append_nil]
      exact .refl
  | succ d ih =>
      obtain ⟨u, back, before, -⟩ := settled.exists_previous known
      obtain ⟨steps, rfl⟩ := Nat.exists_eq_succ_of_ne_zero (n := steps) (by omega)
      have first : Retracing.Next routes ⟨listed, v⟩ ⟨listed ++ [u], u⟩ := by
        rw [Retracing.Next, Retracing.step, back]
        rfl
      -- `u` has been listed by the step to it, and it is also what the way back from it starts with
      have rest := ih before (Nat.le_of_succ_le_succ enough) (listed ++ [u])
      have whole : u :: (routes.back steps u).tail = routes.back steps u :=
        List.cons_head?_tail (routes.head?_back steps u)
      rw [List.append_assoc, List.singleton_append, whole] at rest
      rw [Routes.back_of_previous back, List.tail_cons]
      exact .head first rest

end Settling

namespace Digraph

variable {d : Digraph n} {way : Way} {extent : Extent} {start v : Fin n} {routes : Routes n}

/-- Whatever the digraph, the way and the extent, the way back from a vertex that was reached ends
at the start, after as many steps as the vertex is away. It lists a path against the steps of the
search, on which no vertex is passed twice. -/
theorem retracing_ends (found : d.routes? way extent start = some routes)
    (reached : routes.reaches v = true) :
    ∃ k, routes.distance? v = some k ∧
      Steps (Retracing.Next routes) (.start v) k ⟨routes.chainTo v, start⟩ ∧
      (∀ s, ¬ Retracing.Next routes ⟨routes.chainTo v, start⟩ s) ∧
      IsPath (fun w u => w ∈ d.neighbors way u) v start (routes.chainTo v) ∧
      (routes.chainTo v).length = k + 1 ∧ (routes.chainTo v).Nodup := by
  obtain ⟨settled, order, ordered⟩ := routes?_eq_some found
  obtain ⟨k, known⟩ := Routes.reaches_iff.mp reached
  have enough : k ≤ n := Nat.le_of_lt (ordered.steps_lt (settled.steps known))
  have run := settled.retraces known enough [v]
  have whole : [v] ++ (routes.back n v).tail = routes.chainTo v :=
    List.cons_head?_tail (routes.head?_chainTo v)
  rw [whole] at run
  exact ⟨k, known, run, settled.not_next_start _, isPath_back found reached,
    settled.length_back known enough, settled.nodup_back known enough⟩

/-- Against the edges from 0, beside a cycle: 3 is met one step away, then by way of 1, then of 2. -/
theorem retracing_ends_overtaken :
    let d : Digraph 5 := { succ := ⟨#v[[4], [0], [1], [0, 1, 2], [4]]⟩ }
    let routes : Routes 5 :=
      ⟨#v[some ⟨0, none⟩, some ⟨1, some 0⟩, some ⟨2, some 1⟩, some ⟨3, some 2⟩, none]⟩
    let chain : List (Fin 5) := [3, 2, 1, 0]
    d.routes? .against .longest 0 = some routes ∧ routes.reaches 3 = true ∧
      routes.chainTo 3 = chain ∧
      Steps (Retracing.Next routes) (.start 3) 3 ⟨chain, 0⟩ ∧
      (∀ s, ¬ Retracing.Next routes ⟨chain, 0⟩ s) ∧
      IsPath (fun w u => w ∈ d.neighbors .against u) 3 0 chain ∧
      chain.length = 3 + 1 ∧ chain.Nodup := by
  intro d routes chain
  have found : d.routes? .against .longest 0 = some routes := by
    dsimp only [d, routes]
    cbv
  have reached : routes.reaches 3 = true := by decide
  have listed : routes.chainTo 3 = chain := by decide
  obtain ⟨k, known, retraced⟩ := retracing_ends found reached
  obtain rfl : 3 = k := Option.some.inj known
  rw [listed] at retraced
  exact ⟨found, reached, listed, retraced⟩

end Digraph

end Provenance
