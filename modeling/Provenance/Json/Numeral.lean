import Provenance.Json.Error
import Provenance.Json.Magnitude

/-! # Numerals

The parts of a numeral as they are written, and the number that they stand for.
-/

namespace Provenance.Json

/-- A numeral in parts: digits before the point, after it, and after the sign of the exponent. -/
structure Numeral where
  negative : Bool
  whole : List Char
  fraction : List Char
  exponent : Option (Bool × List Char)

def digitValue (c : Char) : Nat := c.toNat - '0'.toNat

def natOfDigits (ds : List Char) : Nat := ds.foldl (fun n c => n * 10 + digitValue c) 0

/-- One digit or more. `atEnd` is the error for a text that breaks off before the first. -/
def readDigits (atEnd : Error) (s : List Char) : Except Error (List Char × List Char) :=
  if s.takeWhile Char.isDigit = [] then .error (if s = [] then atEnd else .malformed)
  else .ok (s.takeWhile Char.isDigit, s.dropWhile Char.isDigit)

/-- Digits without a leading zero, or a lone zero. -/
def readWhole (atEnd : Error) : List Char → Except Error (List Char × List Char)
  | '0' :: d :: r => if d.isDigit then .error .malformed else .ok (['0'], d :: r)
  | s => readDigits atEnd s

def readFraction (atEnd : Error) : List Char → Except Error (List Char × List Char)
  | '.' :: r => readDigits atEnd r
  | s => .ok ([], s)

/-- The sign of an exponent: whether it is a minus, and what comes after it. -/
def splitSign : List Char → Bool × List Char
  | '+' :: r => (false, r)
  | '-' :: r => (true, r)
  | s => (false, s)

def readExponent (atEnd : Error) :
    List Char → Except Error (Option (Bool × List Char) × List Char)
  | c :: r =>
      if c = 'e' ∨ c = 'E' then
        match readDigits atEnd (splitSign r).2 with
        | .ok (ds, r') => .ok (some ((splitSign r).1, ds), r')
        | .error e => .error e
      else .ok (none, c :: r)
  | [] => .ok (none, [])

/-- Whether there is a minus, and what comes after it. -/
def splitMinus : List Char → Bool × List Char
  | '-' :: r => (true, r)
  | s => (false, s)

def readNumeral (atEnd : Error) (s : List Char) : Except Error (Numeral × List Char) := do
  let (negative, s) := splitMinus s
  let (whole, s) ← readWhole atEnd s
  let (fraction, s) ← readFraction atEnd s
  let (exponent, s) ← readExponent atEnd s
  return ({ negative, whole, fraction, exponent }, s)

theorem readDigits_length {atEnd : Error} {s ds r : List Char}
    (h : readDigits atEnd s = .ok (ds, r)) : r.length < s.length := by
  unfold readDigits at h
  split at h
  · cases h
  next some =>
    simp only [Except.ok.injEq, Prod.mk.injEq] at h
    obtain ⟨_, rfl⟩ := h
    have both := congrArg List.length (List.takeWhile_append_dropWhile (p := Char.isDigit) (l := s))
    have pos := List.length_pos_iff.mpr some
    simp only [List.length_append] at both
    omega

theorem readWhole_length {atEnd : Error} {s ds r : List Char}
    (h : readWhole atEnd s = .ok (ds, r)) : r.length < s.length := by
  unfold readWhole at h
  split at h
  · split at h
    · cases h
    · cases h
      simp
  · exact readDigits_length h

theorem readFraction_length {atEnd : Error} {s ds r : List Char}
    (h : readFraction atEnd s = .ok (ds, r)) : r.length ≤ s.length := by
  unfold readFraction at h
  split at h
  · have lt := readDigits_length h
    simp only [List.length_cons]
    omega
  · cases h
    exact Nat.le_refl _

theorem splitSign_length (s : List Char) : (splitSign s).2.length ≤ s.length := by
  unfold splitSign
  split <;> simp

theorem readExponent_length {atEnd : Error} {s r : List Char} {e : Option (Bool × List Char)}
    (h : readExponent atEnd s = .ok (e, r)) : r.length ≤ s.length := by
  unfold readExponent at h
  split at h
  next t =>
    split at h
    · split at h
      next hd =>
        cases h
        have lt := readDigits_length hd
        have le := splitSign_length t
        simp only [List.length_cons]
        omega
      · cases h
    · cases h
      exact Nat.le_refl _
  · cases h
    exact Nat.le_refl _

theorem splitMinus_length (s : List Char) : (splitMinus s).2.length ≤ s.length := by
  unfold splitMinus
  split <;> simp

theorem readNumeral_length {atEnd : Error} {s r : List Char} {numeral : Numeral}
    (h : readNumeral atEnd s = .ok (numeral, r)) : r.length < s.length := by
  have le := splitMinus_length s
  unfold readNumeral at h
  cases hw : readWhole atEnd (splitMinus s).2 with
  | error e => simp [hw, bind, Except.bind] at h
  | ok w =>
      have ltw : w.2.length < (splitMinus s).2.length := readWhole_length hw
      cases hf : readFraction atEnd w.2 with
      | error e => simp [hw, hf, bind, Except.bind] at h
      | ok f =>
          have lef : f.2.length ≤ w.2.length := readFraction_length hf
          cases he : readExponent atEnd f.2 with
          | error e => simp [hw, hf, he, bind, Except.bind] at h
          | ok x =>
              have lee := readExponent_length (e := x.1) (r := x.2) he
              simp only [hw, hf, he, bind, Except.bind, pure, Except.pure, Except.ok.injEq,
                Prod.mk.injEq] at h
              obtain ⟨_, rfl⟩ := h
              omega

namespace Numeral

/-- The significand and the power of ten that the size of the number is judged by. -/
def scaled (numeral : Numeral) : Nat × Int :=
  let (whole, excess) := appendDigits 0 (numeral.whole.map digitValue)
  let (significand, left) := appendDigits whole (numeral.fraction.map digitValue)
  let places : Int := excess - (numeral.fraction.length - left : Nat)
  match numeral.exponent with
  | some (true, ds) => (significand, places - natOfDigits ds)
  | some (false, ds) => (significand, places + natOfDigits ds)
  | none => (significand, places)

def isTooLarge (numeral : Numeral) : Bool :=
  Json.isTooLarge numeral.scaled.1 numeral.scaled.2

/-- The integer that a numeral without fraction and exponent stands for, if it is one of 64 bits.
Zero with a minus is not an integer. -/
def integer? (numeral : Numeral) : Option Int :=
  let n := natOfDigits numeral.whole
  if !numeral.fraction.isEmpty || numeral.exponent.isSome then none
  else if numeral.negative then
    if n ≠ 0 ∧ Int64.minValue.toInt ≤ -n then some (-n) else none
  else if n < UInt64.size then some n
  else none

def token (numeral : Numeral) : Except Error Token :=
  match numeral.integer? with
  | some i => .ok (.integer i)
  | none => if numeral.isTooLarge then .error .malformed else .ok .fraction

end Numeral

end Provenance.Json
