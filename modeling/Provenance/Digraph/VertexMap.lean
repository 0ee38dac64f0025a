/-! # Values for vertices

A value for each of the vertices `0, …, n - 1`.
-/

namespace Provenance

structure VertexMap (α : Type) (n : Nat) where
  values : Vector α n

namespace VertexMap

variable {α β : Type} {n : Nat}

def get (m : VertexMap α n) (v : Fin n) : α := m.values.get v

def set (m : VertexMap α n) (v : Fin n) (a : α) : VertexMap α n := ⟨m.values.set v a v.isLt⟩

/-- The same value for every vertex. -/
def const (a : α) : VertexMap α n := ⟨Vector.replicate n a⟩

def ofFn (f : Fin n → α) : VertexMap α n := ⟨Vector.ofFn f⟩

def ofArray (as : Array α) : VertexMap α as.size := ⟨as.toVector⟩

def map (f : α → β) (m : VertexMap α n) : VertexMap β n := ⟨m.values.map f⟩

/-- A value for one more vertex. -/
def push (m : VertexMap α n) (a : α) : VertexMap α (n + 1) := ⟨m.values.push a⟩

@[simp]
theorem get_set (m : VertexMap α n) (v w : Fin n) (a : α) :
    (m.set v a).get w = if v = w then a else m.get w := by
  simp only [Fin.ext_iff]
  exact Vector.getElem_set v.isLt w.isLt

@[simp]
theorem get_const (a : α) (v : Fin n) : (const a).get v = a :=
  Vector.getElem_replicate v.isLt

@[simp]
theorem get_ofFn (f : Fin n → α) (v : Fin n) : (ofFn f).get v = f v :=
  Vector.getElem_ofFn v.isLt

@[simp]
theorem get_map (f : α → β) (m : VertexMap α n) (v : Fin n) : (m.map f).get v = f (m.get v) :=
  Vector.getElem_map f v.isLt

theorem ext_get {m m' : VertexMap α n} (same : ∀ v, m.get v = m'.get v) : m = m' := by
  obtain ⟨values⟩ := m
  obtain ⟨values'⟩ := m'
  congr
  exact Vector.ext fun i inside => same ⟨i, inside⟩

@[simp]
theorem set_get_self (m : VertexMap α n) (v : Fin n) : m.set v (m.get v) = m := by
  refine ext_get fun w => ?_
  rw [get_set]
  split
  next here => rw [here]
  next => rfl

end VertexMap

end Provenance
