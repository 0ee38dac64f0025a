import Mathlib.Data.List.FinRange
import Provenance.Proofs.Digraph.Discovery

/-! # Weak components

One sweep over the vertices searches from each that no search before it has marked. Nothing leads
out of what has been marked, so a search finds its whole component although it keeps the marks of
those before it, and it starts at the least vertex of the component.
-/

open Relation (TransGen ReflTransGen)

namespace Provenance.Digraph

variable {n : Nat} {d : Digraph n} {seen : VertexSet n} {vs group : List (Fin n)} {u v w : Fin n}

/-- A way leads from one vertex to another if each edge may be taken either way. -/
def Linked (d : Digraph n) : Fin n → Fin n → Prop := ReflTransGen (Leads d.bothSides)

theorem leads_bothSides : Leads d.bothSides u w ↔ d.Edge u w ∨ d.Edge w u := by
  rw [Leads, bothSides, List.mem_append]
  exact or_congr Iff.rfl leads_against

theorem Linked.symm (linked : d.Linked v w) : d.Linked w v := by
  induction linked with
  | refl => exact .refl
  | tail _ leads ih => exact ih.head (leads_bothSides.mpr (leads_bothSides.mp leads).symm)

theorem Linked.trans (linked : d.Linked u v) (onward : d.Linked v w) : d.Linked u w :=
  ReflTransGen.trans linked onward

/-- The vertices linked to `v`, which is the first of them and the least. -/
structure IsComponent (d : Digraph n) (v : Fin n) (group : List (Fin n)) : Prop where
  nodup : group.Nodup
  mem_iff : ∀ w, w ∈ group ↔ d.Linked v w
  starts : ∃ rest, group = v :: rest ∧ ∀ w ∈ rest, v < w

/-! ## One search -/

/-- What has not been marked is still to come, in increasing order, and nothing leads out of what
has been marked. -/
structure Sweeps (d : Digraph n) (seen : VertexSet n) (vs : List (Fin n)) : Prop where
  sorted : vs.Pairwise (· < ·)
  unseen : ∀ w, w ∉ seen → w ∈ vs
  closed : ∀ u w, u ∈ seen → d.Linked u w → w ∈ seen

theorem mem_marks_component :
    w ∈ (d.component seen v).2 ↔ w ∈ (d.component seen v).1 ∨ w ∈ seen := by
  have started : v ∈ (d.component seen v).1 := subset_flood _ _ List.mem_cons_self
  have marked : ∀ u ∈ [v], u ∈ seen.insert v :=
    List.forall_mem_singleton.mpr (VertexSet.mem_insert.mpr (.inl rfl))
  rw [component, mem_marks_flood marked, VertexSet.mem_insert]
  constructor
  · rintro (listed | rfl | before)
    · exact .inl listed
    · exact .inl started
    · exact .inr before
  · exact .imp_right .inr

namespace Sweeps

theorem initial (d : Digraph n) : d.Sweeps ∅ (List.finRange n) where
  sorted := List.pairwise_lt_finRange n
  unseen w _ := List.mem_finRange w
  closed u _ marked := absurd marked (VertexSet.not_mem_empty u)

theorem skip (sweeps : d.Sweeps seen (v :: vs)) (marked : v ∈ seen) : d.Sweeps seen vs where
  sorted := sweeps.sorted.of_cons
  unseen w new := by
    rcases List.mem_cons.mp (sweeps.unseen w new) with rfl | later
    · exact absurd marked new
    · exact later
  closed := sweeps.closed

/-- The marks of the searches before keep no vertex of its component from a search. -/
theorem mem_component (sweeps : d.Sweeps seen (v :: vs)) (new : v ∉ seen) :
    w ∈ (d.component seen v).1 ↔ d.Linked v w := by
  rw [component, mem_flood]
  simp only [List.mem_singleton, exists_eq_left]
  constructor
  · rintro (rfl | way)
    · exact .refl
    · exact (TransGen.mono (fun _ _ leads => leads.1) _ _ way).to_reflTransGen
  · intro linked
    induction linked with
    | refl => exact .inl rfl
    | @tail x w way leads ih =>
        by_cases back : w = v
        · exact .inl back
        · have outside : w ∉ seen.insert v := by
            intro marked
            have before := (VertexSet.mem_insert.mp marked).resolve_left back
            exact new (sweeps.closed w v before (Linked.symm (way.tail leads)))
          rcases ih with rfl | way
          · exact .inr (.single ⟨leads, outside⟩)
          · exact .inr (way.tail ⟨leads, outside⟩)

theorem take (sweeps : d.Sweeps seen (v :: vs)) (new : v ∉ seen) :
    d.Sweeps (d.component seen v).2 vs where
  sorted := sweeps.sorted.of_cons
  unseen w unmarked := by
    rw [mem_marks_component, not_or, sweeps.mem_component new] at unmarked
    rcases List.mem_cons.mp (sweeps.unseen w unmarked.2) with rfl | later
    · exact absurd .refl unmarked.1
    · exact later
  closed u w marked linked := by
    rw [mem_marks_component, sweeps.mem_component new] at marked ⊢
    cases marked with
    | inl here => exact .inl (here.trans linked)
    | inr before => exact .inr (sweeps.closed u w before linked)

/-- The vertex that a search starts at comes before all others that it finds. -/
theorem first_lt (sweeps : d.Sweeps seen (v :: vs)) (new : v ∉ seen) (other : w ≠ v)
    (linked : d.Linked v w) : v < w := by
  have unseen : w ∉ seen := fun marked => new (sweeps.closed w v marked linked.symm)
  have later := (List.mem_cons.mp (sweeps.unseen w unseen)).resolve_left other
  exact List.rel_of_pairwise_cons sweeps.sorted later

theorem isComponent (sweeps : d.Sweeps seen (v :: vs)) (new : v ∉ seen) :
    d.IsComponent v (d.component seen v).1 := by
  have marked : ∀ u ∈ [v], u ∈ seen.insert v :=
    List.forall_mem_singleton.mpr (VertexSet.mem_insert.mpr (.inl rfl))
  have nodup : (d.component seen v).1.Nodup := nodup_flood (List.nodup_singleton v) marked
  obtain ⟨rest, found, -⟩ : ∃ rest, (d.component seen v).1 = [v] ++ rest ∧ _ :=
    ledTo_flood (List.Subset.refl [v])
  refine ⟨nodup, fun w => sweeps.mem_component new, rest, found, fun w behind => ?_⟩
  rw [found] at nodup
  refine sweeps.first_lt new (fun same => (List.nodup_cons.mp nodup).1 (same ▸ behind)) ?_
  exact (sweeps.mem_component new).mp (found ▸ List.mem_cons_of_mem v behind)

/-! ## The sweep -/

theorem exists_start (sweeps : d.Sweeps seen vs) (listed : group ∈ d.componentsOf seen vs) :
    ∃ v, v ∉ seen ∧ d.IsComponent v group := by
  fun_induction componentsOf d seen vs with
  | case1 => cases listed
  | case2 seen v vs marked ih => exact ih (sweeps.skip marked) listed
  | case3 seen v vs new ih =>
      rcases List.mem_cons.mp listed with rfl | later
      · exact ⟨v, new, sweeps.isComponent new⟩
      · obtain ⟨u, unmarked, component⟩ := ih (sweeps.take new) later
        exact ⟨u, fun marked => unmarked (mem_marks_component.mpr (.inr marked)), component⟩

theorem mem_flatten_componentsOf (sweeps : d.Sweeps seen vs) (unseen : v ∉ seen) :
    v ∈ (d.componentsOf seen vs).flatten := by
  fun_induction componentsOf d seen vs with
  | case1 => exact absurd (sweeps.unseen v unseen) List.not_mem_nil
  | case2 seen u vs marked ih => exact ih (sweeps.skip marked) unseen
  | case3 seen u vs new ih =>
      rw [List.flatten_cons, List.mem_append]
      by_cases here : v ∈ (d.component seen u).1
      · exact .inl here
      · exact .inr (ih (sweeps.take new) fun marked =>
          (mem_marks_component.mp marked).elim here unseen)

/-- A later component starts with a vertex that the earlier ones have not marked. -/
theorem nodup_flatten_componentsOf (sweeps : d.Sweeps seen vs) :
    (d.componentsOf seen vs).flatten.Nodup := by
  fun_induction componentsOf d seen vs with
  | case1 => exact List.nodup_nil
  | case2 seen v vs marked ih => exact ih (sweeps.skip marked)
  | case3 seen v vs new ih =>
      have here := sweeps.isComponent new
      rw [List.flatten_cons, List.nodup_append]
      refine ⟨here.nodup, ih (sweeps.take new), fun x inside y there same => ?_⟩
      subst same
      obtain ⟨group, listed, member⟩ := List.mem_flatten.mp there
      obtain ⟨u, unmarked, component⟩ := (sweeps.take new).exists_start listed
      have linked : d.Linked v u :=
        ((here.mem_iff x).mp inside).trans ((component.mem_iff x).mp member).symm
      exact unmarked (mem_marks_component.mpr (.inl ((here.mem_iff u).mpr linked)))

theorem starts_sublist (sweeps : d.Sweeps seen vs) :
    ((d.componentsOf seen vs).map List.head?).Sublist (vs.map some) := by
  fun_induction componentsOf d seen vs with
  | case1 => exact .slnil
  | case2 seen v vs marked ih => exact (ih (sweeps.skip marked)).cons (some v)
  | case3 seen v vs new ih =>
      obtain ⟨rest, found, -⟩ := (sweeps.isComponent new).starts
      have first : (d.component seen v).1.head? = some v := congrArg List.head? found
      rw [List.map_cons, List.map_cons, first]
      exact (ih (sweeps.take new)).cons_cons (some v)

end Sweeps

/-! ## All components -/

theorem isComponent_of_mem (listed : group ∈ d.components) : ∃ v, d.IsComponent v group := by
  obtain ⟨v, -, component⟩ := (Sweeps.initial d).exists_start listed
  exact ⟨v, component⟩

theorem components_sublist (d : Digraph n) :
    (d.components.map List.head?).Sublist ((List.finRange n).map some) :=
  (Sweeps.initial d).starts_sublist

theorem first_of_component (listed : group ∈ d.components) :
    ∃ v rest, group = v :: rest ∧ ∀ w ∈ rest, v < w := by
  obtain ⟨v, component⟩ := isComponent_of_mem listed
  exact ⟨v, component.starts⟩

theorem flatten_components_perm (d : Digraph n) :
    List.Perm d.components.flatten (List.finRange n) := by
  have sweeps := Sweeps.initial d
  refine (List.perm_ext_iff_of_nodup sweeps.nodup_flatten_componentsOf
    (List.nodup_finRange n)).mpr fun v => iff_of_true ?_ (List.mem_finRange v)
  exact sweeps.mem_flatten_componentsOf (VertexSet.not_mem_empty v)

theorem exists_component_iff :
    (∃ group ∈ d.components, v ∈ group ∧ w ∈ group) ↔ d.Linked v w := by
  constructor
  · intro ⟨group, listed, here, there⟩
    obtain ⟨u, component⟩ := isComponent_of_mem listed
    exact ((component.mem_iff v).mp here).symm.trans ((component.mem_iff w).mp there)
  · intro linked
    have everywhere := d.flatten_components_perm.mem_iff.mpr (List.mem_finRange v)
    obtain ⟨group, listed, here⟩ := List.mem_flatten.mp everywhere
    obtain ⟨u, component⟩ := isComponent_of_mem listed
    have there := ((component.mem_iff v).mp here).trans linked
    exact ⟨group, listed, here, (component.mem_iff w).mpr there⟩

end Provenance.Digraph
