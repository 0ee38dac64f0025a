import Provenance.Json.Token
import Provenance.Json.Written

/-! # Written integers

An integer is written with its digits alone, so it is read back wherever the digits end. Integers of
64 bits, with or without a sign, come back as integer tokens.
-/

namespace Provenance.Json

/-- A text that does not go on with the digits of a numeral before it. -/
def EndsNumeral (r : List Char) : Prop :=
  ∀ c t, r = c :: t → c.isDigit = false ∧ c ≠ '.' ∧ c ≠ 'e' ∧ c ≠ 'E'

theorem endsNumeral_nil : EndsNumeral [] := by
  intro c t h
  cases h

theorem endsNumeral_cons {c : Char} (t : List Char)
    (h : c.isDigit = false ∧ c ≠ '.' ∧ c ≠ 'e' ∧ c ≠ 'E') : EndsNumeral (c :: t) := by
  intro c' t' same
  cases same
  exact h

/-! ## Digits -/

theorem digitChar_spec : ∀ n < 10, (digitChar n).isDigit = true ∧ digitValue (digitChar n) = n ∧
    (digitChar n = '0' → n = 0) := by
  decide

theorem writeNat_ne_nil (n : Nat) : writeNat n ≠ [] := by
  unfold writeNat
  split <;> simp

theorem isDigit_writeNat (n : Nat) : ∀ c ∈ writeNat n, c.isDigit = true := by
  fun_induction writeNat n with
  | case1 n small =>
      intro c listed
      rw [List.mem_singleton.mp listed]
      exact (digitChar_spec n small).1
  | case2 n _ ih =>
      intro c listed
      rcases List.mem_append.mp listed with front | last
      · exact ih c front
      · rw [List.mem_singleton.mp last]
        exact (digitChar_spec (n % 10) (Nat.mod_lt n (by decide))).1

theorem natOfDigits_concat (ds : List Char) (d : Char) :
    natOfDigits (ds ++ [d]) = natOfDigits ds * 10 + digitValue d := by
  simp [natOfDigits]

theorem natOfDigits_writeNat (n : Nat) : natOfDigits (writeNat n) = n := by
  fun_induction writeNat n with
  | case1 n small =>
      have value := (digitChar_spec n small).2.1
      simp [natOfDigits, value]
  | case2 n _ ih =>
      have value := (digitChar_spec (n % 10) (Nat.mod_lt n (by decide))).2.1
      rw [natOfDigits_concat, ih, value]
      omega

/-- Only zero is written with a leading zero. -/
theorem head_writeNat {n : Nat} (positive : 0 < n) :
    ∃ d ds, writeNat n = d :: ds ∧ d ≠ '0' := by
  fun_induction writeNat n with
  | case1 n small =>
      refine ⟨digitChar n, [], rfl, fun zero => ?_⟩
      have := (digitChar_spec n small).2.2 zero
      omega
  | case2 n large ih =>
      obtain ⟨d, ds, front, other⟩ := ih (by omega)
      exact ⟨d, ds ++ [digitChar (n % 10)], by rw [front, List.cons_append], other⟩

/-! ## Reading back -/

variable {r : List Char}

theorem readDigits_append (atEnd : Error) {ds : List Char} (some : ds ≠ [])
    (digits : ∀ c ∈ ds, c.isDigit = true) (stops : ∀ c t, r = c :: t → c.isDigit = false) :
    readDigits atEnd (ds ++ r) = .ok (ds, r) := by
  have left : r.takeWhile Char.isDigit = [] ∧ r.dropWhile Char.isDigit = r := by
    cases r with
    | nil => exact ⟨rfl, rfl⟩
    | cons c t => simp [stops c t rfl]
  unfold readDigits
  rw [List.takeWhile_append_of_pos digits, List.dropWhile_append_of_pos digits, left.1, left.2,
    List.append_nil, if_neg some]

/-- The digits of a whole number. Only a lone zero starts with a zero. -/
structure WholeDigits (ds : List Char) : Prop where
  some : ds ≠ []
  digits : ∀ c ∈ ds, c.isDigit = true
  alone : ∀ t, ds = '0' :: t → t = []

theorem wholeDigits_writeNat (n : Nat) : WholeDigits (writeNat n) where
  some := writeNat_ne_nil n
  digits := isDigit_writeNat n
  alone t front := by
    rcases Nat.eq_zero_or_pos n with rfl | positive
    · rw [writeNat] at front
      exact (List.cons.inj front).2.symm
    · obtain ⟨d, ds, written, other⟩ := head_writeNat positive
      exact absurd (List.cons.inj (written.symm.trans front)).1 other

theorem WholeDigits.read {ds : List Char} (whole : WholeDigits ds) (atEnd : Error)
    (stops : ∀ c t, r = c :: t → c.isDigit = false) :
    readWhole atEnd (ds ++ r) = .ok (ds, r) := by
  have digits := readDigits_append atEnd whole.some whole.digits stops
  unfold readWhole
  split
  next d t zero =>
    have alone : ds = ['0'] := by
      obtain ⟨c, cs, front⟩ := List.exists_cons_of_ne_nil whole.some
      obtain rfl : c = '0' := by
        rw [front] at zero
        exact (List.cons.inj zero).1
      rw [front, whole.alone cs front]
    obtain rfl : r = d :: t := by
      rw [alone] at zero
      exact (List.cons.inj zero).2
    rw [if_neg (by simp [stops d t rfl]), alone]
  next => exact digits

theorem readFraction_ends (atEnd : Error) (ends : EndsNumeral r) :
    readFraction atEnd r = .ok ([], r) := by
  unfold readFraction
  split
  next t => exact absurd rfl (ends '.' t rfl).2.1
  next => rfl

theorem readExponent_ends (atEnd : Error) (ends : EndsNumeral r) :
    readExponent atEnd r = .ok (none, r) := by
  cases r with
  | nil => rfl
  | cons c t =>
      obtain ⟨-, -, lower, upper⟩ := ends c t rfl
      simp [readExponent, lower, upper]

theorem splitMinus_writeNat (n : Nat) (r : List Char) :
    splitMinus (writeNat n ++ r) = (false, writeNat n ++ r) := by
  obtain ⟨d, ds, written⟩ := List.exists_cons_of_ne_nil (writeNat_ne_nil n)
  have digit := isDigit_writeNat n d (by rw [written]; exact List.mem_cons_self)
  rw [written, List.cons_append]
  unfold splitMinus
  split
  · next same =>
      obtain ⟨rfl, -⟩ := List.cons.inj same
      cases digit
  · rfl

theorem splitMinus_writeInt (i : Int) (r : List Char) :
    splitMinus (writeInt i ++ r) = (decide (i < 0), writeNat i.natAbs ++ r) := by
  cases i with
  | ofNat n => exact splitMinus_writeNat n r
  | negSucc n => simp [writeInt, splitMinus, Int.negSucc_lt_zero]

/-- The parts of a written integer. -/
def numeralOf (i : Int) : Numeral where
  negative := decide (i < 0)
  whole := writeNat i.natAbs
  fraction := []
  exponent := none

theorem readNumeral_writeInt (atEnd : Error) (i : Int) (ends : EndsNumeral r) :
    readNumeral atEnd (writeInt i ++ r) = .ok (numeralOf i, r) := by
  unfold readNumeral
  rw [splitMinus_writeInt]
  have whole := (wholeDigits_writeNat i.natAbs).read atEnd fun c t same => (ends c t same).1
  simp only [whole, readFraction_ends atEnd ends, readExponent_ends atEnd ends, bind, Except.bind]
  rfl

/-- Integers of 64 bits, whether they need the sign or not. -/
def IsWord (i : Int) : Prop := Int64.minValue.toInt ≤ i ∧ i < UInt64.size

theorem integer?_numeralOf {i : Int} (word : IsWord i) : (numeralOf i).integer? = some i := by
  obtain ⟨low, high⟩ := word
  simp only [Numeral.integer?, numeralOf, natOfDigits_writeNat, List.isEmpty_nil, Bool.not_true,
    Option.isSome_none, Bool.or_self, Bool.false_eq_true, if_false, decide_eq_true_eq]
  split
  · next negative =>
      have back : -(i.natAbs : Int) = i := by omega
      rw [back, if_pos ⟨by omega, low⟩]
  · next positive =>
      have back : (i.natAbs : Int) = i := by omega
      rw [if_pos (by omega), back]

/-- A written integer starts with a minus or a digit. -/
theorem head_writeInt (i : Int) : ∃ c t, writeInt i = c :: t ∧ (c = '-' ∨ c.isDigit = true) := by
  cases i with
  | ofNat n =>
      obtain ⟨d, ds, written⟩ := List.exists_cons_of_ne_nil (writeNat_ne_nil n)
      have digit := isDigit_writeNat n d (by rw [written]; exact List.mem_cons_self)
      exact ⟨d, ds, written, .inr digit⟩
  | negSucc n => exact ⟨'-', writeNat (n + 1), rfl, .inl rfl⟩

/-- A character that can start a numeral is none of those that start or end something else. -/
theorem ne_of_starts_numeral {c d : Char} (start : c = '-' ∨ c.isDigit = true) (minus : d ≠ '-')
    (digit : d.isDigit = false) : c ≠ d := by
  rintro rfl
  rcases start with rfl | isDigit
  · exact minus rfl
  · rw [digit] at isDigit
    cases isDigit

theorem visible_of_starts_numeral {c : Char} (start : c = '-' ∨ c.isDigit = true) :
    isSpace c = false := by
  cases space : isSpace c with
  | false => rfl
  | true =>
      simp only [isSpace, Bool.or_eq_true, beq_iff_eq] at space
      rcases space with ((rfl | rfl) | rfl) | rfl <;> revert start <;> decide

theorem readToken_writeInt {i : Int} (word : IsWord i) (ends : EndsNumeral r) :
    readToken (writeInt i ++ r) = .ok (.integer i, r) := by
  have numeral := readNumeral_writeInt .truncated i ends
  obtain ⟨c, t, written, starts⟩ := head_writeInt i
  rw [written, List.cons_append] at numeral ⊢
  have other := fun d : Char => ne_of_starts_numeral (d := d) starts
  unfold readToken
  split
  · next same => cases same
  · next same => exact absurd (List.cons.inj same).1 (other '[' (by decide) (by decide))
  · next same => exact absurd (List.cons.inj same).1 (other '{' (by decide) (by decide))
  · next same => exact absurd (List.cons.inj same).1 (other '"' (by decide) (by decide))
  · next same => exact absurd (List.cons.inj same).1 (other 'n' (by decide) (by decide))
  · next same => exact absurd (List.cons.inj same).1 (other 't' (by decide) (by decide))
  · next same => exact absurd (List.cons.inj same).1 (other 'f' (by decide) (by decide))
  · next same =>
      obtain ⟨rfl, rfl⟩ := List.cons.inj same
      rw [if_pos starts, numeral]
      simp only [bind, Except.bind, Numeral.token, integer?_numeralOf word]
      rfl

end Provenance.Json
