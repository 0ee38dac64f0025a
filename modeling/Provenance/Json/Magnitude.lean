/-! # Numbers that are too large

A number with a fraction or an exponent has to fit into double precision. Its leading digits, as
many as fit into 64 bits, and a power of ten are rounded to 53 bits each; so is their product.
-/

namespace Provenance.Json

/-- Rounds to a multiple of a power of two that leaves `bits` bits; a half goes to the even side. -/
def roundToBits (bits n : Nat) : Nat :=
  let unit := 1 <<< (n.log2 + 1 - bits)
  let down := n / unit
  let rest := n % unit
  if 2 * rest < unit ∨ (2 * rest = unit ∧ down % 2 = 0) then down * unit else (down + 1) * unit

/-- The least product that rounds up past the greatest number of double precision. -/
def doubleLimit : Nat := 1 <<< 1024 - 1 <<< 970

/-- Whether a significand times a power of ten is past the range of double precision. -/
def isTooLarge (significand : Nat) (exponent : Int) : Bool :=
  significand != 0 &&
    (308 < exponent ||
      0 ≤ exponent &&
        doubleLimit ≤ roundToBits 53 significand * roundToBits 53 (Nat.pow 10 exponent.toNat))

/-- Appends digits to a significand while it stays within 64 bits; also counts those left over. -/
def appendDigits (significand : Nat) : List Nat → Nat × Nat
  | [] => (significand, 0)
  | d :: ds =>
      if significand * 10 + d < UInt64.size then appendDigits (significand * 10 + d) ds
      else (significand, ds.length + 1)

end Provenance.Json
