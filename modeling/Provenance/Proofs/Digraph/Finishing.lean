import Provenance.Proofs.Digraph.RecursiveWalk
import Provenance.Proofs.Digraph.Walk

/-! # Finishing order

A walk leaves a vertex when the recursive walk returns from it. The walk that stops at a vertex of
its own stack takes the same steps up to there, so unless it stops it lists the same vertices, the
last one first, and each of them before its neighbours.
-/

open Relation (TransGen ReflTransGen)

namespace Provenance

namespace Trees

variable {α : Type} {n : Nat}

/-- The vertices in the order in which they are returned from, each after those below it. -/
def postorder : Trees α → List α
  | .none => []
  | .tree root below beside => below.postorder ++ root :: beside.postorder

@[simp]
theorem left_events (trees : Trees (Fin n)) :
    trees.events.filterMap Event.left? = trees.postorder := by
  induction trees with
  | none => rfl
  | tree root below beside ih ih' =>
      rw [postorder, ← ih, ← ih', events, List.filterMap_cons_none rfl, List.filterMap_append]
      rfl

end Trees

variable {n : Nat} {next : Fin n → List (Fin n)} {start : Fin n}

/-- What is closed has been seen, so the walk that closes vertices skips what any walk skips. -/
theorem Closing.eq_left {seen closed : VertexSet n} {done order : List (Fin n)}
    {frames : List (Frame n)} (closing : Closing next start seen closed done frames)
    (found : closeFrom? next seen closed done frames = some order) :
    order = ((walkFrom next seen frames).filterMap Event.left?).reverse ++ done := by
  fun_induction closeFrom? next seen closed done frames with
  | case1 seen closed done =>
      rw [walkFrom]
      exact (Option.some.inj found).symm
  | case2 seen closed done u frames ih =>
      rw [ih closing.leave found, walkFrom]
      simp [Event.left?]
  | case3 seen closed done u w ws frames passed ih =>
      have marked : w ∈ seen := (closing.mem_seen w).mpr (.inr ((closing.mem_closed w).mp passed))
      rw [ih (closing.skip passed) found, walkFrom, if_pos marked]
  | case4 => cases found
  | case5 seen closed done u w ws frames _ new ih =>
      rw [ih (closing.enter new) found, walkFrom, if_neg new]
      rfl

namespace Digraph

variable {d : Digraph n} {way : Way}

/-- The vertices are left as the recursive walk returns from them. -/
theorem explores_finishing (d : Digraph n) (way : Way) (start : Fin n) :
    ∃ trees, Explores (d.neighbors way) [] [start] trees ∧
      d.finishing way start = trees.postorder := by
  obtain ⟨trees, explores, walks⟩ := explores_walk (d.neighbors way) start
  refine ⟨trees, explores, ?_⟩
  rw [finishing, walks, Trees.left_events]

theorem reachableOrder?_eq_reverse {order : List (Fin n)}
    (found : d.reachableOrder? way start = some order) :
    order = (d.finishing way start).reverse := by
  rw [(Closing.init (d.neighbors way) start).eq_left found, List.append_nil]
  rfl

theorem reachableOrder?_eq_none_iff :
    d.reachableOrder? way start = none ↔
      ∃ v, ReflTransGen (Leads (d.neighbors way)) start v ∧
        TransGen (Leads (d.neighbors way)) v v := by
  rw [← Option.not_isSome_iff_eq_none, reachableOrder?_isSome_iff, Clear]
  simp only [not_forall, not_not, exists_prop]

/-- The two depth-first loops on any digraph. One lists the vertices as the recursive walk returns
from them. The other stops exactly if a cycle can be reached, and else it lists the same in reverse,
where every vertex stands before its neighbours. -/
theorem finishing_orders_agree (d : Digraph n) (way : Way) (start : Fin n) :
    let next := d.neighbors way
    (∃ trees, (∀ trees', Explores next [] [start] trees' ↔ trees' = trees) ∧
      d.finishing way start = trees.postorder) ∧
    (d.reachableOrder? way start = none ↔
      ∃ v, ReflTransGen (Leads next) start v ∧ TransGen (Leads next) v v) ∧
    ∀ order, d.reachableOrder? way start = some order →
      order = (d.finishing way start).reverse ∧
        ∀ u ∈ order, ∀ w ∈ next u, w ∈ order ∧ order.idxOf u < order.idxOf w := by
  intro next
  obtain ⟨trees, explores, listed⟩ := d.explores_finishing way start
  refine ⟨⟨trees, fun trees' => ⟨explores.unique, ?_⟩, listed⟩, reachableOrder?_eq_none_iff,
    fun order found => ⟨reachableOrder?_eq_reverse found, fun u here w leads => ?_⟩⟩
  · rintro rfl
    exact explores
  · have ordered := reachableOrder?_eq_some found
    exact ⟨ordered.ahead.mem here leads, ordered.ahead.idxOf_lt ordered.nodup here leads⟩

end Digraph

end Provenance
