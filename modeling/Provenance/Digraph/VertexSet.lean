/-! # Sets of vertices

A set of the vertices `0, …, n - 1`. A search marks the vertices that it meets in such a set, and
`missing`, the cost of the vertices not in it, bounds the steps that are left.
-/

namespace Provenance

/-- The cost of the members of a list that pass a test. -/
def weigh {α : Type} (cost : α → Nat) (test : α → Bool) : List α → Nat
  | [] => 0
  | a :: l => (if test a then cost a else 0) + weigh cost test l

theorem weigh_le {α : Type} (cost : α → Nat) {p q : α → Bool} {l : List α}
    (imp : ∀ b ∈ l, q b → p b) : weigh cost q l ≤ weigh cost p l := by
  induction l with
  | nil => exact Nat.le_refl _
  | cons b l ih =>
      refine Nat.add_le_add ?_ (ih fun c hc => imp c (List.mem_cons_of_mem b hc))
      by_cases hq : q b
      · simp [hq, imp b List.mem_cons_self hq]
      · simp [hq]

theorem weigh_add_le {α : Type} (cost : α → Nat) {p q : α → Bool} {l : List α} {a : α}
    (imp : ∀ b ∈ l, q b → p b) (ha : a ∈ l) (hp : p a) (hq : ¬ q a) :
    weigh cost q l + cost a ≤ weigh cost p l := by
  induction l with
  | nil => cases ha
  | cons b l ih =>
      have below := fun c hc => imp c (List.mem_cons_of_mem b hc)
      rcases List.mem_cons.mp ha with rfl | ha
      · have le := weigh_le cost below
        simp only [weigh, hp, hq, if_true, Bool.false_eq_true, if_false]
        omega
      · have le := ih below ha
        have here : (if q b then cost b else 0) ≤ if p b then cost b else 0 := by
          by_cases hqb : q b
          · simp [hqb, imp b List.mem_cons_self hqb]
          · simp [hqb]
        simp only [weigh]
        omega

structure VertexSet (n : Nat) where
  bits : BitVec n
deriving DecidableEq

namespace VertexSet

variable {n : Nat}

def empty : VertexSet n := ⟨0⟩

instance : EmptyCollection (VertexSet n) := ⟨empty⟩

instance : Membership (Fin n) (VertexSet n) where
  mem s v := s.bits.getLsb v = true

instance (v : Fin n) (s : VertexSet n) : Decidable (v ∈ s) :=
  inferInstanceAs (Decidable (s.bits.getLsb v = true))

def insert (s : VertexSet n) (v : Fin n) : VertexSet n := ⟨s.bits ||| BitVec.twoPow n v⟩

def erase (s : VertexSet n) (v : Fin n) : VertexSet n := ⟨s.bits &&& ~~~BitVec.twoPow n v⟩

def union (s t : VertexSet n) : VertexSet n := ⟨s.bits ||| t.bits⟩

def insertMany (s : VertexSet n) (vs : List (Fin n)) : VertexSet n := vs.foldl insert s

def ofList (vs : List (Fin n)) : VertexSet n := insertMany ∅ vs

/-- The members in increasing order. -/
def toList (s : VertexSet n) : List (Fin n) := (List.finRange n).filter (· ∈ s)

/-- What it would cost to put every other vertex into the set. -/
def missing (cost : Fin n → Nat) (s : VertexSet n) : Nat := weigh cost (· ∉ s) (List.finRange n)

theorem mem_def {v : Fin n} {s : VertexSet n} : v ∈ s ↔ s.bits.getLsb v = true := .rfl

@[simp]
theorem not_mem_empty (v : Fin n) : v ∉ (∅ : VertexSet n) := by
  simp [mem_def, EmptyCollection.emptyCollection, empty]

@[simp]
theorem mem_insert {v w : Fin n} {s : VertexSet n} : v ∈ s.insert w ↔ v = w ∨ v ∈ s := by
  simp only [mem_def, insert, BitVec.getLsb_eq_getElem, Fin.getElem_fin, BitVec.getElem_or,
    BitVec.getElem_twoPow, Bool.or_eq_true, decide_eq_true_eq, Fin.ext_iff]
  exact or_comm

@[simp]
theorem mem_erase {v w : Fin n} {s : VertexSet n} : v ∈ s.erase w ↔ v ≠ w ∧ v ∈ s := by
  simp only [mem_def, erase, BitVec.getLsb_eq_getElem, Fin.getElem_fin, BitVec.getElem_and,
    BitVec.getElem_not, BitVec.getElem_twoPow, Bool.and_eq_true, Bool.not_eq_true',
    decide_eq_false_iff_not, ne_eq, Fin.ext_iff]
  exact and_comm

@[simp]
theorem mem_union {v : Fin n} {s t : VertexSet n} : v ∈ s.union t ↔ v ∈ s ∨ v ∈ t := by
  simp only [mem_def, union, BitVec.getLsb_eq_getElem, Fin.getElem_fin, BitVec.getElem_or,
    Bool.or_eq_true]

theorem mem_insertMany {v : Fin n} {s : VertexSet n} {vs : List (Fin n)} :
    v ∈ s.insertMany vs ↔ v ∈ vs ∨ v ∈ s := by
  induction vs generalizing s with
  | nil => simp [insertMany]
  | cons w vs ih =>
      have step : s.insertMany (w :: vs) = (s.insert w).insertMany vs := rfl
      rw [step, ih, mem_insert, List.mem_cons, or_left_comm, or_assoc]

@[simp]
theorem mem_ofList {v : Fin n} {vs : List (Fin n)} : v ∈ ofList vs ↔ v ∈ vs := by
  simp [ofList, mem_insertMany]

@[simp]
theorem mem_toList {v : Fin n} {s : VertexSet n} : v ∈ s.toList ↔ v ∈ s := by
  simp [toList, List.mem_filter, List.mem_finRange]

theorem missing_add_le (cost : Fin n → Nat) {s t : VertexSet n} {v : Fin n}
    (sub : ∀ w, w ∈ s → w ∈ t) (hs : v ∉ s) (ht : v ∈ t) :
    t.missing cost + cost v ≤ s.missing cost :=
  weigh_add_le cost (fun w _ => by simpa using fun h hw => h (sub w hw)) (List.mem_finRange v)
    (by simpa using hs) (by simpa using ht)

theorem missing_insert_le (cost : Fin n → Nat) {s : VertexSet n} {v : Fin n} (h : v ∉ s) :
    (s.insert v).missing cost + cost v ≤ s.missing cost :=
  missing_add_le cost (fun _ hw => mem_insert.mpr (.inr hw)) h (mem_insert.mpr (.inl rfl))

/-- The vertices of a list that are not in the set yet, each once, and the set with them in it. -/
def mark (s : VertexSet n) : List (Fin n) → List (Fin n) × VertexSet n
  | [] => ([], s)
  | v :: vs =>
      if v ∈ s then mark s vs
      else
        let rest := mark (s.insert v) vs
        (v :: rest.1, rest.2)

/-- What is marked is not missing any more. -/
theorem missing_mark_le (s : VertexSet n) (vs : List (Fin n)) :
    (s.mark vs).2.missing (fun _ => 1) + (s.mark vs).1.length ≤ s.missing fun _ => 1 := by
  induction vs generalizing s with
  | nil => exact Nat.le_refl _
  | cons v vs ih =>
      simp only [mark]
      split
      next => exact ih s
      next new =>
        have here := missing_insert_le (fun _ => 1) new
        have later := ih (s.insert v)
        simp only [List.length_cons]
        omega

end VertexSet

end Provenance
