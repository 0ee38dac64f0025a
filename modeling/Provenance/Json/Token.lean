import Provenance.Json.Literal
import Provenance.Json.Numeral

/-! # Tokens

Blanks between the parts of a text, and what a value starts with.
-/

namespace Provenance.Json

def isSpace (c : Char) : Bool := c == ' ' || c == '\n' || c == '\r' || c == '\t'

def dropSpace (s : List Char) : List Char := s.dropWhile isSpace

/-- What is left after a word that has to come next. -/
def readWord : List Char → List Char → Except Error (List Char)
  | [], s => .ok s
  | _ :: _, [] => .error .truncated
  | c :: w, d :: s => if c = d then readWord w s else .error .malformed

/-- The start of a value that follows at once; of a list or an object, the bracket. -/
def readToken : List Char → Except Error (Token × List Char)
  | [] => .error .truncated
  | '[' :: r => .ok (.list, r)
  | '{' :: r => .ok (.object, r)
  | '"' :: r => (readLiteral [] r).map fun (t, r') => (.string t, r')
  | 'n' :: r => (readWord ['u', 'l', 'l'] r).map (.null, ·)
  | 't' :: r => (readWord ['r', 'u', 'e'] r).map (.boolean true, ·)
  | 'f' :: r => (readWord ['a', 'l', 's', 'e'] r).map (.boolean false, ·)
  | c :: r =>
      if c = '-' ∨ c.isDigit then do
        let (numeral, r') ← readNumeral .truncated (c :: r)
        return (← numeral.token, r')
      else .error .malformed

theorem dropSpace_length (s : List Char) : (dropSpace s).length ≤ s.length :=
  (List.dropWhile_suffix _).length_le

theorem readWord_length {w s r : List Char} (h : readWord w s = .ok r) : r.length ≤ s.length := by
  induction w generalizing s with
  | nil =>
      cases h
      exact Nat.le_refl _
  | cons c w ih =>
      cases s with
      | nil => cases h
      | cons d s =>
          simp only [readWord] at h
          split at h
          · exact Nat.le_succ_of_le (ih h)
          · cases h

theorem readToken_length {s r : List Char} {t : Token} (h : readToken s = .ok (t, r)) :
    r.length < s.length := by
  have word : ∀ {w s : List Char} {t' : Token},
      (readWord w s).map (t', ·) = .ok (t, r) → r.length ≤ s.length := by
    intro w s t' hw
    cases hr : readWord w s with
    | error e => simp [hr, Except.map] at hw
    | ok r' =>
        simp only [hr, Except.map, Except.ok.injEq, Prod.mk.injEq] at hw
        exact hw.2 ▸ readWord_length hr
  unfold readToken at h
  split at h
  · cases h
  · cases h
    simp
  · cases h
    simp
  next u =>
    cases hl : readLiteral [] u with
    | error e => simp [hl, Except.map] at h
    | ok p =>
        have lt := readLiteral_length (t := p.1) (r := p.2) hl
        simp only [hl, Except.map, Except.ok.injEq, Prod.mk.injEq] at h
        obtain ⟨_, rfl⟩ := h
        simp only [List.length_cons]
        omega
  · exact Nat.lt_succ_of_le (word h)
  · exact Nat.lt_succ_of_le (word h)
  · exact Nat.lt_succ_of_le (word h)
  next c u _ _ _ _ _ _ =>
    split at h
    · cases hn : readNumeral .truncated (c :: u) with
      | error e => simp [hn, bind, Except.bind] at h
      | ok p =>
          have lt : p.2.length < (c :: u).length := readNumeral_length hn
          cases ht : p.1.token with
          | error e => simp [hn, ht, bind, Except.bind] at h
          | ok t' =>
              simp only [hn, ht, bind, Except.bind, pure, Except.pure, Except.ok.injEq,
                Prod.mk.injEq] at h
              obtain ⟨_, rfl⟩ := h
              exact lt
    · cases h

end Provenance.Json
