import Provenance.Json.Token

/-! # Skipped values

A value that does not matter is only checked for its form, to any depth: the brackets that are
open stand on a stack. Numbers may be of any size, and literals may hold lone units.
-/

namespace Provenance.Json

inductive Bracket where
  | list
  | object
deriving DecidableEq

namespace Bracket

def closing : Bracket → Char
  | .list => ']'
  | .object => '}'

end Bracket

/-- Where a reader stands: before a value, behind an opening bracket, or behind a value. -/
inductive Place where
  | value
  | opened
  | after
deriving DecidableEq

def skipScalar : List Char → Except Error (List Char)
  | [] => .error .truncated
  | '"' :: r => skipLiteral r
  | 'n' :: r => readWord ['u', 'l', 'l'] r
  | 't' :: r => readWord ['r', 'u', 'e'] r
  | 'f' :: r => readWord ['a', 'l', 's', 'e'] r
  | c :: r =>
      if c = '-' ∨ c.isDigit then (readNumeral .malformed (c :: r)).map Prod.snd
      else .error .malformed

/-- What is left after a colon. -/
def readColon (s : List Char) : Except Error (List Char) :=
  match dropSpace s with
  | [] => .error .truncated
  | c :: r => if c = ':' then .ok r else .error .malformed

/-- What stands before a value in a bracket: nothing in a list, a key and a colon in an object. -/
def skipKey : Bracket → List Char → Except Error (List Char)
  | .list, s => .ok s
  | .object, s =>
      match dropSpace s with
      | [] => .error .truncated
      | c :: r => if c = '"' then (skipLiteral r).bind readColon else .error .malformed

theorem skipScalar_length {s r : List Char} (h : skipScalar s = .ok r) :
    r.length < s.length := by
  unfold skipScalar at h
  split at h
  · cases h
  · exact Nat.lt_succ_of_lt (skipLiteral_length h)
  · exact Nat.lt_succ_of_le (readWord_length h)
  · exact Nat.lt_succ_of_le (readWord_length h)
  · exact Nat.lt_succ_of_le (readWord_length h)
  next c u _ _ _ _ =>
    split at h
    · cases hn : readNumeral .malformed (c :: u) with
      | error e => simp [hn, Except.map] at h
      | ok p =>
          have lt : p.2.length < (c :: u).length := readNumeral_length hn
          simp only [hn, Except.map, Except.ok.injEq] at h
          exact h ▸ lt
    · cases h

theorem readColon_length {s r : List Char} (h : readColon s = .ok r) : r.length < s.length := by
  have le := dropSpace_length s
  unfold readColon at h
  split at h
  · cases h
  next hs =>
    split at h
    · cases h
      simp only [hs, List.length_cons] at le
      omega
    · cases h

theorem skipKey_length {b : Bracket} {s r : List Char} (h : skipKey b s = .ok r) :
    r.length ≤ s.length := by
  have le := dropSpace_length s
  unfold skipKey at h
  split at h
  · cases h
    exact Nat.le_refl _
  · split at h
    · cases h
    next u hs =>
      split at h
      · cases hl : skipLiteral u with
        | error e => simp [hl, Except.bind] at h
        | ok u' =>
            have lt := skipLiteral_length hl
            have lt' := readColon_length (show readColon u' = .ok r by simpa [hl, Except.bind] using h)
            simp only [hs, List.length_cons] at le
            omega
      · cases h

/-- Reads on to the end of the value in whose brackets, innermost first, the reader stands. -/
def skipFrom (place : Place) (stack : List Bracket) (s : List Char) : Except Error (List Char) :=
  match place, stack with
  | .value, stack =>
      match _hs : dropSpace s with
      | [] => .error .truncated
      | c :: r =>
          if c = '[' then skipFrom .opened (.list :: stack) r
          else if c = '{' then skipFrom .opened (.object :: stack) r
          else
            match _h : skipScalar (c :: r) with
            | .ok r' => skipFrom .after stack r'
            | .error e => .error e
  | _, [] => .ok s
  | place, b :: stack =>
      match _hs : dropSpace s with
      | [] => .error .truncated
      | c :: r =>
          if c = b.closing then skipFrom .after stack r
          else if place = .opened then
            match _h : skipKey b (c :: r) with
            | .ok r' => skipFrom .value (b :: stack) r'
            | .error e => .error e
          else if c = ',' then
            match _h : skipKey b r with
            | .ok r' => skipFrom .value (b :: stack) r'
            | .error e => .error e
          else .error .malformed
termination_by 2 * s.length + if place = .opened then 1 else 0
decreasing_by
  all_goals
    have le := dropSpace_length s
    simp only [_hs, List.length_cons] at le
    simp_all only [if_true, if_false]
  · omega
  · omega
  · have lt := skipScalar_length _h
    simp only [List.length_cons] at lt
    omega
  · omega
  · have le' := skipKey_length _h
    simp only [List.length_cons] at le'
    omega
  · have le' := skipKey_length _h
    omega

theorem skipFrom_length {place : Place} {stack : List Bracket} {s r : List Char}
    (h : skipFrom place stack s = .ok r) : r.length ≤ s.length := by
  fun_induction skipFrom place stack s with
  | case1 | case5 | case7 | case10 | case12 | case13 => cases h
  | case6 => cases h; exact Nat.le_refl _
  | case2 s _ u hs ih | case3 s _ u hs _ ih | case8 s _ _ _ _ u hs ih =>
      have le := dropSpace_length s
      have le' := ih h
      simp only [hs, List.length_cons] at le
      omega
  | case4 s _ c u hs _ _ u' hu ih =>
      have le := dropSpace_length s
      have lt := skipScalar_length hu
      have le' := ih h
      rw [hs] at le
      omega
  | case9 s b _ c u hs _ u' hu _ ih =>
      have le := dropSpace_length s
      have le' := skipKey_length hu
      have le'' := ih h
      rw [hs] at le
      omega
  | case11 s _ b _ _ u _ u' hu hs _ ih =>
      have le := dropSpace_length s
      have le' := skipKey_length hu
      have le'' := ih h
      simp only [hs, List.length_cons] at le
      omega

/-- What is left after a value of any kind. -/
def skipValue (s : List Char) : Except Error (List Char) := skipFrom .value [] s

theorem skipValue_length {s r : List Char} (h : skipValue s = .ok r) : r.length ≤ s.length :=
  skipFrom_length h

end Provenance.Json
