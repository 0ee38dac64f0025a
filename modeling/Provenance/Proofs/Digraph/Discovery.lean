import Provenance.Graph.Search
import Provenance.Proofs.Digraph.Layers
import Provenance.Proofs.Digraph.Walk

/-! # Order of discovery

A search, whether it keeps a queue or a stack, lists every vertex but its start after one that leads
to it.
-/

namespace Provenance

/-! ## Lists that lead on -/

/-- Each vertex of the list can be reached in one step from a known one or from one before it. -/
def LedTo {α : Type} (r : α → α → Prop) (known : List α) : List α → Prop
  | [] => True
  | v :: vs => (∃ u ∈ known, r u v) ∧ LedTo r (v :: known) vs

namespace LedTo

variable {α β : Type} {r : α → α → Prop} {known vs ws : List α}

theorem mono {known' : List α} (led : LedTo r known vs) (subset : known ⊆ known') :
    LedTo r known' vs := by
  induction vs generalizing known known' with
  | nil => trivial
  | cons v vs ih =>
      obtain ⟨⟨u, listed, step⟩, led⟩ := led
      exact ⟨⟨u, subset listed, step⟩, ih led (List.cons_subset_cons v subset)⟩

theorem of_forall (each : ∀ v ∈ vs, ∃ u ∈ known, r u v) : LedTo r known vs := by
  induction vs generalizing known with
  | nil => trivial
  | cons v vs ih =>
      obtain ⟨here, later⟩ := List.forall_mem_cons.mp each
      exact ⟨here, (ih later).mono (List.subset_cons_self v known)⟩

theorem append (led : LedTo r known vs) (onward : LedTo r (vs ++ known) ws) :
    LedTo r known (vs ++ ws) := by
  induction vs generalizing known with
  | nil => exact onward
  | cons v vs ih =>
      refine ⟨led.1, ih led.2 (onward.mono ?_)⟩
      exact List.perm_middle.symm.subset

theorem map {s : β → β → Prop} {f : α → β} (led : LedTo r known vs)
    (each : ∀ u w, r u w → s (f u) (f w)) : LedTo s (known.map f) (vs.map f) := by
  induction vs generalizing known with
  | nil => trivial
  | cons v vs ih =>
      obtain ⟨⟨u, listed, step⟩, led⟩ := led
      exact ⟨⟨f u, List.mem_map_of_mem listed, each u v step⟩, ih led⟩

/-- Where steps enter a set in one vertex only, that one is listed before the others of the set. -/
theorem eq_of_head?_filter {p : α → Bool} {v w : α} (led : LedTo r known vs)
    (outside : ∀ u ∈ known, ¬ p u) (enters : ∀ u w, r u w → ¬ p u → p w → w = v)
    (first : (vs.filter p).head? = some w) : w = v := by
  induction vs generalizing known with
  | nil => cases first
  | cons x vs ih =>
      obtain ⟨⟨u, listed, step⟩, led⟩ := led
      by_cases inside : p x
      · rw [List.filter_cons_of_pos inside] at first
        obtain rfl := Option.some.inj first
        exact enters u x step (outside u listed) inside
      · rw [List.filter_cons_of_neg inside] at first
        exact ih led (List.forall_mem_cons.mpr ⟨inside, outside⟩) first

end LedTo

/-! ## Searches -/

variable {n : Nat} {next : Fin n → List (Fin n)}

/-- Every vertex behind a queue is led to by one of the queue or by one found before. -/
theorem ledTo_flood {seen : VertexSet n} {queue known : List (Fin n)} (met : queue ⊆ known) :
    ∃ rest, (flood next seen queue).1 = queue ++ rest ∧ LedTo (Leads next) known rest := by
  induction seen, queue using flood.induct next generalizing known with
  | case1 seen => exact ⟨[], by rw [flood_nil]; rfl, trivial⟩
  | case2 seen u queue ih =>
      obtain ⟨here, behind⟩ := List.cons_subset.mp met
      have met' : queue ++ (seen.mark (next u)).1 ⊆ (seen.mark (next u)).1 ++ known :=
        List.append_subset.mpr ⟨List.subset_append_of_subset_right _ behind,
          List.subset_append_left _ known⟩
      obtain ⟨rest, split, led⟩ := ih met'
      refine ⟨(seen.mark (next u)).1 ++ rest, ?_, (LedTo.of_forall fun v new => ?_).append led⟩
      · rw [flood_cons, split, List.append_assoc]
        rfl
      · exact ⟨u, here, (VertexSet.mem_mark.mp new).1⟩

/-- A walk enters every vertex from one that is on the stack. -/
theorem ledTo_entered {seen : VertexSet n} {frames : List (Frame n)} {known : List (Fin n)}
    (listed : Listed (Leads next) frames) (stacked : frames.map Prod.fst ⊆ known) :
    LedTo (Leads next) known ((walkFrom next seen frames).filterMap Event.entered?) := by
  fun_induction walkFrom next seen frames generalizing known with
  | case1 => trivial
  | case2 seen u frames ih => exact ih listed.below (List.subset_of_cons_subset stacked)
  | case3 seen u w ws frames marked ih => exact ih listed.skip stacked
  | case4 seen u w ws frames new ih =>
      refine ⟨⟨u, stacked List.mem_cons_self, listed.top⟩, ?_⟩
      exact ih (listed.skip.cons fun x leads => leads) (List.cons_subset_cons w stacked)

/-- A search starts with its start, and goes on with vertices that those before lead to. -/
theorem search_eq_cons (order : SearchOrder) (d : Digraph n) (way : Way) (start : Fin n) :
    ∃ rest, order.search d way start = start :: rest ∧
      LedTo (Leads (d.neighbors way)) [start] rest := by
  cases order with
  | breadthFirst => exact ledTo_flood (List.Subset.refl [start])
  | depthFirst =>
      refine ⟨_, rfl, ledTo_entered ?_ (List.Subset.refl [start])⟩
      exact Listed.cons (fun _ none => nomatch none) fun w leads => leads

end Provenance
