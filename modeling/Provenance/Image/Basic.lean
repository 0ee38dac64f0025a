/-! # Images and their relations -/

namespace Provenance

/-- The number of an image file in its collection. -/
structure ImageId where
  value : Int64
deriving DecidableEq

namespace ImageId

instance : Ord ImageId := ⟨compareOn value⟩

instance : Std.TransOrd ImageId := inferInstanceAs (Std.TransCmp (compareOn value))

instance : Std.LawfulEqOrd ImageId where
  eq_of_compare {a b} h := by
    obtain ⟨i⟩ := a
    obtain ⟨j⟩ := b
    have same : i = j := Std.LawfulEqOrd.eq_of_compare h
    rw [same]

def text (id : ImageId) : String := toString id.value.toInt

end ImageId

/-- The subject was derived from the object. -/
structure Relation where
  subject : ImageId
  object : ImageId
deriving DecidableEq

namespace Relation

/-- By subject, then by object. -/
def order : Relation → Relation → Ordering := compareLex (compareOn subject) (compareOn object)

instance : Ord Relation := ⟨order⟩

instance : Std.TransOrd Relation :=
  inferInstanceAs (Std.TransCmp (compareLex (compareOn subject) (compareOn object)))

theorem eq_of_order_eq {a b : Relation} (h : order a b = .eq) : a = b := by
  obtain ⟨hs, ho⟩ := compareLex_eq_eq.mp h
  obtain ⟨s, o⟩ := a
  obtain ⟨s', o'⟩ := b
  cases Std.LawfulEqOrd.eq_of_compare hs
  cases Std.LawfulEqOrd.eq_of_compare ho
  rfl

instance : Std.LawfulEqOrd Relation where
  eq_of_compare := eq_of_order_eq

end Relation

end Provenance
