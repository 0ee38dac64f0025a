/-! # Handles

A handle names a slot of an arena together with the generation that the slot had when the handle
was issued. A slot moves on to a later generation when it is freed, which leaves the handle stale.
-/

namespace Provenance

inductive Kind where
  | vertex
  | edge

structure Handle (κ : Kind) where
  index : Nat
  generation : UInt32
deriving DecidableEq

abbrev Vertex := Handle .vertex

abbrev Edge := Handle .edge

namespace Handle

variable {κ : Kind}

/-- The index that no slot has; an arena holds fewer slots than this number. -/
def nullIndex : Nat := UInt32.size - 1

def null : Handle κ := ⟨nullIndex, 0⟩

def isNull (h : Handle κ) : Bool := h.index == nullIndex

instance : Inhabited (Handle κ) := ⟨null⟩

/-- By index, then by generation. -/
def order : Handle κ → Handle κ → Ordering :=
  compareLex (compareOn index) (compareOn generation)

instance : Ord (Handle κ) := ⟨order⟩

instance : Std.TransOrd (Handle κ) :=
  inferInstanceAs (Std.TransCmp (compareLex (compareOn index) (compareOn generation)))

theorem eq_of_order_eq {a b : Handle κ} (h : order a b = .eq) : a = b := by
  obtain ⟨hi, hg⟩ := compareLex_eq_eq.mp h
  obtain ⟨i, g⟩ := a
  obtain ⟨j, k⟩ := b
  cases Std.LawfulEqOrd.eq_of_compare hi
  cases Std.LawfulEqOrd.eq_of_compare hg
  rfl

instance : Std.LawfulEqOrd (Handle κ) where
  eq_of_compare := eq_of_order_eq

end Handle

end Provenance
