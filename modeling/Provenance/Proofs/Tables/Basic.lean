import Provenance.Digraph.Basic
import Provenance.Digraph.VertexSet
import Mathlib.Algebra.Ring.Nat
import Mathlib.Data.List.FinRange

/-! # Tables

What a search knows about the vertices is kept in tables, which are read and written at plain
numbers. Here an access fails if the table has no such entry. The tables that stand for a map from
vertices have an entry for every vertex, so an access at a vertex does not fail.
-/

namespace Provenance

namespace Table

variable {α β γ σ τ : Type}

/-- Overwrites an entry. -/
def write? (t : Array α) (i : Nat) (a : α) : Option (Array α) :=
  if i < t.size then some (t.setIfInBounds i a) else none

/-- The members of a list that pass a test which may fail. -/
def filter? (test : α → Option Bool) : List α → Option (List α)
  | [] => some []
  | a :: as => do if ← test a then return a :: (← filter? test as) else filter? test as

/-- What the members of a list come to that come to something. -/
def filterMap? (f : α → Option (Option β)) : List α → Option (List β)
  | [] => some []
  | a :: as => do
      match ← f a with
      | some b => return b :: (← filterMap? f as)
      | none => filterMap? f as

/-- A loop that comes to the same as one on other states and other items. -/
theorem foldlM_eq_some {i : β → γ} {t : σ → τ} {f : τ → γ → Option τ} {g : σ → β → σ}
    (step : ∀ s b, f (t s) (i b) = some (t (g s b))) (bs : List β) (s : σ) :
    (bs.map i).foldlM f (t s) = some (t (bs.foldl g s)) := by
  induction bs generalizing s with
  | nil => rfl
  | cons b bs ih => simp [step, ih]

theorem mapM_eq_some {i : β → γ} {f : γ → Option α} {g : β → α}
    (each : ∀ b, f (i b) = some (g b)) (bs : List β) :
    (bs.map i).mapM f = some (bs.map g) := by
  induction bs with
  | nil => rfl
  | cons b bs ih => simp [List.mapM_cons, each, ih]

theorem filter?_eq_some {i : β → α} {test : α → Option Bool} {p : β → Bool} {bs : List β}
    (each : ∀ b ∈ bs, test (i b) = some (p b)) :
    filter? test (bs.map i) = some ((bs.filter p).map i) := by
  induction bs with
  | nil => rfl
  | cons b bs ih =>
      have rest := ih fun c listed => each c (List.mem_cons_of_mem b listed)
      simp only [List.map_cons, filter?, each b List.mem_cons_self, rest, List.filter_cons,
        Option.bind_eq_bind, Option.bind_some]
      split <;> rfl

theorem filterMap?_eq_some {i : γ → α} {f : α → Option (Option β)} {p : γ → Option β}
    {cs : List γ} (each : ∀ c ∈ cs, f (i c) = some (p c)) :
    filterMap? f (cs.map i) = some (cs.filterMap p) := by
  induction cs with
  | nil => rfl
  | cons c cs ih =>
      have rest := ih fun c' listed => each c' (List.mem_cons_of_mem c listed)
      simp only [List.map_cons, filterMap?, each c List.mem_cons_self, rest, List.filterMap_cons,
        Option.bind_eq_bind, Option.bind_some]
      cases p c <;> rfl

end Table

namespace VertexMap

variable {α β : Type} {n : Nat} (m : VertexMap α n)

/-- The entries by the numbers of the vertices. -/
def table (m : VertexMap α n) : Array α := m.values.toArray

@[simp]
theorem size_table : m.table.size = n := m.values.size_toArray

@[simp]
theorem getElem?_table (v : Fin n) : m.table[v.val]? = some (m.get v) := by
  rw [Array.getElem?_eq_getElem (by simp)]
  rfl

@[simp]
theorem getElem_table (v : Fin n) (inside : v.val < m.table.size) : m.table[v.val] = m.get v := rfl

@[simp]
theorem write?_table (v : Fin n) (a : α) : Table.write? m.table v a = some (m.set v a).table := by
  rw [Table.write?, if_pos (by simp)]
  simp [table, set, Array.setIfInBounds]

theorem table_ext {t : Array α} (size : t.size = n)
    (same : ∀ v : Fin n, t[v.val]? = some (m.get v)) :
    t = m.table := by
  apply Array.ext_getElem?
  intro i
  by_cases inside : i < n
  · exact (same ⟨i, inside⟩).trans (m.getElem?_table ⟨i, inside⟩).symm
  · rw [Array.getElem?_eq_none (by omega), Array.getElem?_eq_none (by simp; omega)]

theorem table_inj {m m' : VertexMap α n} (same : m.table = m'.table) : m = m' := by
  refine ext_get fun v => Option.some.inj ?_
  rw [← getElem?_table, same, getElem?_table]

@[simp]
theorem table_const (a : α) : (const a : VertexMap α n).table = Array.replicate n a := by
  simp [table, const]

theorem ofFn_const (a : α) : (ofFn fun _ => a : VertexMap α n) = const a :=
  ext_get fun v => by simp

theorem map_set (f : α → β) (v : Fin n) (a : α) : (m.set v a).map f = (m.map f).set v (f a) := by
  refine ext_get fun w => ?_
  rw [get_map, get_set, get_set, get_map]
  split <;> rfl

theorem map_const (f : α → β) (a : α) : (const a : VertexMap α n).map f = const (f a) :=
  ext_get fun v => by simp

theorem set_const (v : Fin n) (a : α) : (const a).set v a = const a :=
  ext_get fun w => by simp

end VertexMap

theorem weigh_le_sum {α : Type} (cost : α → Nat) (test : α → Bool) (l : List α) :
    weigh cost test l ≤ (l.map cost).sum := by
  induction l with
  | nil => exact Nat.le_refl 0
  | cons a l ih =>
      rw [weigh, List.map_cons, List.sum_cons]
      refine Nat.add_le_add ?_ ih
      split <;> omega

theorem weigh_one {α : Type} (test : α → Bool) (l : List α) :
    weigh (fun _ => 1) test l = (l.filter test).length := by
  induction l with
  | nil => rfl
  | cons a l ih =>
      rw [weigh, ih, List.filter_cons]
      split
      · rw [List.length_cons, Nat.add_comm]
      · exact Nat.zero_add _

namespace VertexSet

variable {n : Nat}

theorem missing_le_sum (s : VertexSet n) (cost : Fin n → Nat) :
    s.missing cost ≤ ((List.finRange n).map cost).sum := weigh_le_sum _ _ _

theorem ofList_singleton (v : Fin n) : ofList [v] = (∅ : VertexSet n).insert v := rfl

/-- The marks of the members of a set, by the numbers of the vertices. -/
def marks (s : VertexSet n) : Array Bool :=
  (VertexMap.ofFn fun v => decide (v ∈ s) : VertexMap Bool n).table

@[simp]
theorem getElem?_marks (s : VertexSet n) (v : Fin n) : s.marks[v.val]? = some (decide (v ∈ s)) := by
  rw [marks, VertexMap.getElem?_table, VertexMap.get_ofFn]

theorem filter?_marks (s : VertexSet n) (vs : List (Fin n)) :
    Table.filter? (s.marks[·]?) (vs.map Fin.val) = some ((vs.filter (· ∈ s)).map Fin.val) :=
  Table.filter?_eq_some fun v _ => s.getElem?_marks v

theorem write?_marks (s : VertexSet n) (v : Fin n) :
    Table.write? s.marks v.val true = some (s.insert v).marks := by
  rw [marks, VertexMap.write?_table, marks]
  congr 2
  refine VertexMap.ext_get fun w => ?_
  rw [VertexMap.get_set, VertexMap.get_ofFn, VertexMap.get_ofFn]
  split
  next same => simp [same]
  next other => simp [Ne.symm other]

theorem write?_marks_false (s : VertexSet n) (v : Fin n) :
    Table.write? s.marks v.val false = some (s.erase v).marks := by
  rw [marks, VertexMap.write?_table, marks]
  congr 2
  refine VertexMap.ext_get fun w => ?_
  rw [VertexMap.get_set, VertexMap.get_ofFn, VertexMap.get_ofFn]
  split
  next same => simp [same]
  next other => simp [Ne.symm other]

theorem replicate_eq_marks : Array.replicate n false = (∅ : VertexSet n).marks :=
  VertexMap.table_ext _ (by simp) fun v => by simp

end VertexSet

namespace Digraph

variable {n : Nat} (d : Digraph n) (way : Way)

/-- The lists of neighbours, by the numbers of the vertices and made of them. -/
def lists (d : Digraph n) (way : Way) : Array (List Nat) :=
  (VertexMap.ofFn fun u => (d.neighbors way u).map Fin.val).table

@[simp]
theorem size_lists : (d.lists way).size = n := VertexMap.size_table _

@[simp]
theorem getElem?_lists (u : Fin n) :
    (d.lists way)[u.val]? = some ((d.neighbors way u).map Fin.val) := by
  rw [lists, VertexMap.getElem?_table, VertexMap.get_ofFn]

@[simp]
theorem getElem_lists (u : Fin n) (inside : u.val < (d.lists way).size) :
    (d.lists way)[u.val] = (d.neighbors way u).map Fin.val := by
  rw [← Option.some_inj, ← Array.getElem?_eq_getElem inside, getElem?_lists]

end Digraph

end Provenance
