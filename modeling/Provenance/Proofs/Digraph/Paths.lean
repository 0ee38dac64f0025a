import Mathlib.Data.List.Chain
import Provenance.Proofs.Digraph.Routes

/-! # Paths

A path is the list of the vertices that a walk passes, its ends among them. There is one within a
set of vertices if there is a walk that does not leave the set.
-/

open Relation (TransGen ReflTransGen)

namespace Provenance

/-- The list leads from `a` to `b`, each vertex in one step from the one before. -/
structure IsPath {α : Type} (r : α → α → Prop) (a b : α) (path : List α) : Prop where
  steps : path.IsChain r
  first : path.head? = some a
  last : path.getLast? = some b

namespace IsPath

variable {α β : Type} {r : α → α → Prop} {a b c : α} {path : List α}

theorem refl (r : α → α → Prop) (a : α) : IsPath r a a [a] := ⟨.singleton a, rfl, rfl⟩

theorem tail (before : IsPath r a b path) (step : r b c) : IsPath r a c (path ++ [c]) where
  steps := by
    refine List.isChain_append.mpr ⟨before.steps, .singleton c, ?_⟩
    rw [before.last]
    simpa using step
  first := by rw [List.head?_append, before.first]; rfl
  last := by simp

theorem ne_nil (is_path : IsPath r a b path) : path ≠ [] := by
  rintro rfl
  cases is_path.first

theorem way (is_path : IsPath r a b path) : ReflTransGen r a b := by
  have way := List.relationReflTransGen_of_exists_isChain path is_path.steps is_path.ne_nil
  rwa [List.head_of_head?_eq_some is_path.first,
    List.getLast_of_getLast?_eq_some is_path.last] at way

/-- The rest of a path leads on to its end. -/
theorem way_of_mem (is_path : IsPath r a b path) (listed : c ∈ path) : ReflTransGen r c b := by
  obtain ⟨before, after, rfl⟩ := List.append_of_mem listed
  have last := is_path.last
  rw [List.getLast?_append_of_ne_nil before (List.cons_ne_nil c after)] at last
  have rest : IsPath r c b (c :: after) := ⟨is_path.steps.right_of_append, rfl, last⟩
  exact rest.way

/-- A path leads to each of its vertices by a part of it. -/
theorem exists_upto (is_path : IsPath r a b path) (listed : c ∈ path) :
    ∃ part, IsPath r a c part ∧ part ⊆ path := by
  obtain ⟨before, after, rfl⟩ := List.append_of_mem listed
  have split : before ++ c :: after = before ++ [c] ++ after := List.append_cons before c after
  refine ⟨before ++ [c], ⟨(split ▸ is_path.steps).left_of_append, ?_, by simp⟩, ?_⟩
  · have first := is_path.first
    rw [split, List.head?_append_of_ne_nil _ (by simp)] at first
    exact first
  · rw [split]
    exact List.subset_append_left _ after

/-- Without a choice where to go on there is one path to where it ends. -/
theorem unique {path' : List α} (is_path : IsPath r a b path) (is_path' : IsPath r a b path')
    (choiceless : ∀ u w x, r u w → r u x → w = x) (stop : ∀ w, ¬ r b w) : path = path' := by
  induction path generalizing a path' with
  | nil => cases is_path.first
  | cons u rest ih =>
      obtain ⟨steps, first, last⟩ := is_path
      obtain rfl : u = a := Option.some.inj first
      obtain ⟨u', rest', rfl⟩ := List.exists_cons_of_ne_nil is_path'.ne_nil
      obtain ⟨steps', first', last'⟩ := is_path'
      obtain rfl : u' = u := Option.some.inj first'
      cases rest with
      | nil =>
          obtain rfl : u' = b := Option.some.inj last
          cases rest' with
          | nil => rfl
          | cons w' _ => exact absurd (List.isChain_cons_cons.mp steps').1 (stop w')
      | cons w _ =>
          obtain ⟨step, steps⟩ := List.isChain_cons_cons.mp steps
          cases rest' with
          | nil =>
              obtain rfl : u' = b := Option.some.inj last'
              exact absurd step (stop w)
          | cons w' _ =>
              obtain ⟨step', steps'⟩ := List.isChain_cons_cons.mp steps'
              obtain rfl := choiceless u' w w' step step'
              exact congrArg (u' :: ·) (ih ⟨steps, rfl, last⟩ ⟨steps', rfl, last'⟩)

theorem reverse (is_path : IsPath r a b path) : IsPath (Function.swap r) b a path.reverse where
  steps := List.isChain_reverse.mpr is_path.steps
  first := by rw [List.head?_reverse, is_path.last]
  last := by rw [List.getLast?_reverse, is_path.first]

theorem map {s : β → β → Prop} {f : α → β} (is_path : IsPath r a b path)
    (each : ∀ u w, r u w → s (f u) (f w)) : IsPath s (f a) (f b) (path.map f) where
  steps := List.isChain_map_of_isChain f each is_path.steps
  first := by rw [List.head?_map, is_path.first]; rfl
  last := by rw [List.getLast?_map, is_path.last]; rfl

theorem append {rest : List α} (before : IsPath r a b path) (after : IsPath r b c (b :: rest)) :
    IsPath r a c (path ++ rest) where
  steps := by
    refine List.isChain_append.mpr ⟨before.steps, after.steps.tail, ?_⟩
    intro x last y first
    obtain rfl : b = x := Option.some.inj (before.last.symm.trans last)
    exact after.steps.rel_head? first
  first := by rw [List.head?_append, before.first]; rfl
  last := by
    have last := after.last
    rw [List.getLast?_append, before.last]
    cases rest with
    | nil => exact last
    | cons u us =>
        rw [List.getLast?_cons_cons] at last
        rw [last]
        rfl

/-- A path has one vertex more than steps. -/
theorem exists_steps (is_path : IsPath r a b path) :
    ∃ k, path.length = k + 1 ∧ Steps r a k b := by
  induction path generalizing a with
  | nil => cases is_path.first
  | cons u rest ih =>
      obtain ⟨steps, first, last⟩ := is_path
      obtain rfl : u = a := Option.some.inj first
      cases rest with
      | nil =>
          obtain rfl : u = b := Option.some.inj last
          exact ⟨0, rfl, .refl⟩
      | cons w rest =>
          obtain ⟨step, steps⟩ := List.isChain_cons_cons.mp steps
          obtain ⟨k, length, onward⟩ := ih ⟨steps, rfl, last⟩
          exact ⟨k + 1, congrArg (· + 1) length, onward.head step⟩

/-- Without cycles no vertex is passed twice. -/
theorem nodup (is_path : IsPath r a b path) (acyclic : ∀ v, ¬ TransGen r v v) : path.Nodup := by
  have onward : path.IsChain (TransGen r) := is_path.steps.imp fun _ _ => .single
  refine (List.isChain_iff_pairwise.mp onward).imp ?_
  rintro v _ chain rfl
  exact acyclic v chain

end IsPath

variable {α : Type} {r : α → α → Prop} {a b : α}

theorem exists_ends {path : List α} (steps : path.IsChain r) (any : path ≠ []) :
    ∃ a b, IsPath r a b path :=
  ⟨path.head any, path.getLast any, steps, List.head?_eq_some_head any,
    List.getLast?_eq_some_getLast any⟩

/-- A chain through a vertex is a walk that leads there and one that leads on. -/
theorem exists_steps_through {path : List α} {v : α} (steps : path.IsChain r) (listed : v ∈ path) :
    ∃ j k a b, Steps r a j v ∧ Steps r v k b ∧ path.length = j + 1 + k := by
  obtain ⟨before, after, rfl⟩ := List.append_of_mem listed
  have split : before ++ v :: after = before ++ [v] ++ after := (List.append_cons before v after)
  have leading : (before ++ [v]).IsChain r := (split ▸ steps).left_of_append
  obtain ⟨a, v', here⟩ := exists_ends leading (by simp)
  obtain ⟨v'', b, there⟩ := exists_ends steps.right_of_append (by simp)
  obtain rfl : v = v' := by simpa using here.last
  obtain rfl : v = v'' := by simpa using there.first
  obtain ⟨j, length, forth⟩ := here.exists_steps
  obtain ⟨k, length', onward⟩ := there.exists_steps
  refine ⟨j, k, a, b, forth, onward, ?_⟩
  simp only [List.length_append, List.length_cons, List.length_nil] at length length' ⊢
  omega

/-- A chain passes a vertex once if that is not on a cycle. -/
theorem count_of_no_cycle [DecidableEq α] {path : List α} {v : α} (steps : path.IsChain r)
    (listed : v ∈ path) (no_cycle : ¬ TransGen r v v) : path.count v = 1 := by
  obtain ⟨before, after, rfl⟩ := List.append_of_mem listed
  have onward : (before ++ v :: after).IsChain (TransGen r) := steps.imp fun _ _ => .single
  have later := List.isChain_iff_pairwise.mp onward
  rw [List.pairwise_append, List.pairwise_cons] at later
  have not_before : v ∉ before := fun earlier =>
    no_cycle (later.2.2 v earlier v List.mem_cons_self)
  have not_after : v ∉ after := fun again => no_cycle (later.2.1.1 v again)
  rw [List.count_append, List.count_cons_self, List.count_eq_zero_of_not_mem not_before,
    List.count_eq_zero_of_not_mem not_after]

theorem exists_path (way : ReflTransGen r a b) : ∃ path, IsPath r a b path := by
  induction way with
  | refl => exact ⟨_, .refl r a⟩
  | tail _ step ih =>
      obtain ⟨path, is_path⟩ := ih
      exact ⟨_, is_path.tail step⟩

/-- A path whose vertices all pass a test is a walk that goes on only to such vertices. -/
theorem exists_path_within {p : α → Prop} :
    (∃ path, IsPath r a b path ∧ ∀ v ∈ path, p v) ↔
      p a ∧ ReflTransGen (fun s t => r s t ∧ p t) a b := by
  constructor
  · rintro ⟨path, is_path, inside⟩
    have kept : IsPath (fun s t => r s t ∧ p t) a b path :=
      ⟨is_path.steps.imp_of_mem_imp fun _ t _ listed step => ⟨step, inside t listed⟩,
        is_path.first, is_path.last⟩
    exact ⟨inside a (List.mem_of_head? is_path.first), kept.way⟩
  · rintro ⟨here, way⟩
    induction way with
    | refl => exact ⟨[a], .refl r a, by simpa using here⟩
    | tail _ step ih =>
        obtain ⟨path, is_path, inside⟩ := ih
        refine ⟨_, is_path.tail step.1, ?_⟩
        rw [List.forall_mem_append]
        exact ⟨inside, by simpa using step.2⟩

/-! ## Vertices on all paths -/

/-- Every path from `root` to `u` passes through `x`. -/
def OnAllPaths (r : α → α → Prop) (root u x : α) : Prop := ∀ path, IsPath r root u path → x ∈ path

theorem onAllPaths_iff {root u x : α} :
    OnAllPaths r root u x ↔ (x ≠ root → ¬ ReflTransGen (fun s t => r s t ∧ t ≠ x) root u) := by
  have around : (∃ path, IsPath r root u path ∧ ∀ v ∈ path, v ≠ x) ↔
      root ≠ x ∧ ReflTransGen (fun s t => r s t ∧ t ≠ x) root u := exists_path_within
  rw [← not_iff_not]
  simp only [OnAllPaths, not_forall, exists_prop, not_not, ne_comm (a := x)]
  rw [← around]
  refine exists_congr fun path => and_congr_right fun _ => ?_
  exact ⟨fun missed v listed same => missed (same ▸ listed),
    fun others listed => others x listed rfl⟩

namespace OnAllPaths

variable {root u x y : α}

theorem self (r : α → α → Prop) (root u : α) : OnAllPaths r root u u :=
  fun _ is_path => List.mem_of_getLast? is_path.last

theorem trans (far : OnAllPaths r root x y) (near : OnAllPaths r root u x) :
    OnAllPaths r root u y := by
  intro path is_path
  obtain ⟨part, to_x, subset⟩ := is_path.exists_upto (near path is_path)
  exact subset (far part to_x)

theorem eq_start (on_all : OnAllPaths r root root x) : x = root :=
  List.mem_singleton.mp (on_all [root] (.refl r root))

/-- A step to a vertex on whose paths `x` lies starts from one as well, or enters `x` itself. -/
theorem of_step {w : α} (on_all : OnAllPaths r root w x) (step : r u w) :
    OnAllPaths r root u x ∨ w = x := by
  by_cases same : w = x
  · exact .inr same
  · refine .inl fun path is_path => ?_
    have passed := on_all _ (is_path.tail step)
    rw [List.mem_append, List.mem_singleton] at passed
    exact passed.resolve_right (Ne.symm same)

end OnAllPaths

/-- The nearest of the other vertices on all paths to `u`: all of them lie on all paths to it. -/
structure ImmediateDominator (r : α → α → Prop) (root u d : α) : Prop where
  other : d ≠ u
  on_all : OnAllPaths r root u d
  nearest : ∀ x, x ≠ u → OnAllPaths r root u x → OnAllPaths r root d x

/-! ## Paths of routes -/

variable {n : Nat}

/-- The way back is one against the steps of the search. -/
theorem Settling.isChain_back {next : Fin n → List (Fin n)} {extent : Extent} {start : Fin n}
    {routes : Routes n} (settled : Settling next extent start [] routes) (steps : Nat)
    (v : Fin n) : (routes.back steps v).IsChain (Function.swap (Leads next)) := by
  induction steps generalizing v with
  | zero => exact .singleton v
  | succ steps ih =>
      rw [Routes.back]
      cases back : routes.previous? v with
      | none => exact .singleton v
      | some u =>
          refine (ih u).cons fun w first => ?_
          rw [Routes.head?_back, Option.mem_def, Option.some.injEq] at first
          exact first ▸ (settled.of_previous? back).1

namespace Digraph

variable {d : Digraph n} {a b : Fin n}

/-- The chain to a vertex that was reached leads back to the start, against the steps of the
search. -/
theorem isPath_back {way : Way} {extent : Extent} {routes : Routes n}
    (found : d.routes? way extent a = some routes) (reached : routes.reaches b = true) :
    IsPath (Function.swap (Leads (d.neighbors way))) b a (routes.chainTo b) := by
  obtain ⟨k, known⟩ := Routes.reaches_iff.mp reached
  obtain ⟨-, first, last⟩ := chainTo_spec found known
  exact ⟨(routes?_eq_some found).1.isChain_back n b, first, last⟩

theorem isPath_chainTo {way : Way} {extent : Extent} {routes : Routes n}
    (found : d.routes? way extent a = some routes) (reached : routes.reaches b = true) :
    IsPath (Leads (d.neighbors way)) a b (routes.chainTo b).reverse :=
  (isPath_back found reached).reverse

end Digraph

end Provenance
