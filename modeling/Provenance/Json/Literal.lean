import Provenance.Json.Error

/-! # String literals

A literal is written between quotation marks. A backslash starts an escape; an escape by number
gives a unit of sixteen bits, and two units make up a character beyond the first 65536.
-/

namespace Provenance.Json

def hexValue? (c : Char) : Option Nat :=
  if '0' ≤ c ∧ c ≤ '9' then some (c.toNat - '0'.toNat)
  else if 'a' ≤ c ∧ c ≤ 'f' then some (c.toNat - 'a'.toNat + 10)
  else if 'A' ≤ c ∧ c ≤ 'F' then some (c.toNat - 'A'.toNat + 10)
  else none

def unitOf? (a b c d : Char) : Option Nat := do
  return (((← hexValue? a) * 16 + (← hexValue? b)) * 16 + (← hexValue? c)) * 16 + (← hexValue? d)

/-- The number of bytes that a text takes. -/
def byteCount (s : List Char) : Nat := s.foldr (fun c n => c.utf8Size + n) 0

/-- Four digits of an escape by number. A text of fewer than four bytes breaks off. -/
def readUnit : List Char → Except Error (Nat × List Char)
  | a :: b :: c :: d :: r =>
      match unitOf? a b c d with
      | some n => .ok (n, r)
      | none => .error .malformed
  | s => .error (if byteCount s < 4 then .truncated else .malformed)

def isHighUnit (n : Nat) : Bool := 0xD800 ≤ n && n ≤ 0xDBFF

def isLowUnit (n : Nat) : Bool := 0xDC00 ≤ n && n ≤ 0xDFFF

/-- The character that a high and a low unit make up. -/
def joinUnits (high low : Nat) : Char :=
  Char.ofNat (0x10000 + (high - 0xD800) * 0x400 + (low - 0xDC00))

/-- The low unit that has to come after a high one. -/
def readLowUnit (high : Nat) : List Char → Except Error (Char × List Char)
  | [] => .error .truncated
  | ['\\'] => .error .truncated
  | '\\' :: 'u' :: r =>
      match readUnit r with
      | .ok (low, r') => if isLowUnit low then .ok (joinUnits high low, r') else .error .malformed
      | .error e => .error e
  | _ => .error .malformed

/-- The characters written by an escape of a single letter, and that letter. -/
def shortEscapes : List (Char × Char) :=
  [('"', '"'), ('\\', '\\'), ('/', '/'), ('b', '\x08'), ('f', '\x0c'), ('n', '\n'), ('r', '\r'),
   ('t', '\t')]

/-- The character of an escape, from what comes after its backslash. -/
def readEscape : List Char → Except Error (Char × List Char)
  | [] => .error .truncated
  | 'u' :: r =>
      match readUnit r with
      | .ok (n, r') =>
          if isLowUnit n then .error .malformed
          else if isHighUnit n then readLowUnit n r'
          else .ok (Char.ofNat n, r')
      | .error e => .error e
  | c :: r =>
      match shortEscapes.lookup c with
      | some d => .ok (d, r)
      | none => .error .malformed

/-- What is left after an escape whose character does not matter. -/
def skipEscape : List Char → Except Error (List Char)
  | [] => .error .truncated
  | 'u' :: r => (readUnit r).map Prod.snd
  | c :: r => if (shortEscapes.lookup c).isSome then .ok r else .error .malformed

theorem readUnit_length {s r : List Char} {n : Nat} (h : readUnit s = .ok (n, r)) :
    r.length < s.length := by
  unfold readUnit at h
  split at h
  · split at h
    · cases h
      simp only [List.length_cons]
      omega
    · cases h
  · cases h

theorem readLowUnit_length {high : Nat} {s r : List Char} {c : Char}
    (h : readLowUnit high s = .ok (c, r)) : r.length < s.length := by
  unfold readLowUnit at h
  split at h
  · cases h
  · cases h
  · split at h
    next hu =>
      have lt := readUnit_length hu
      split at h
      · simp only [Except.ok.injEq, Prod.mk.injEq] at h
        obtain ⟨_, rfl⟩ := h
        simp only [List.length_cons]
        omega
      · cases h
    · cases h
  · cases h

theorem readEscape_length {s r : List Char} {c : Char} (h : readEscape s = .ok (c, r)) :
    r.length < s.length := by
  unfold readEscape at h
  split at h
  · cases h
  · split at h
    next hu =>
      have lt := readUnit_length hu
      split at h
      · cases h
      · split at h
        · have lt' := readLowUnit_length h
          simp only [List.length_cons]
          omega
        · cases h
          simp only [List.length_cons]
          omega
    · cases h
  · split at h
    · cases h
      simp
    · cases h

theorem skipEscape_length {s r : List Char} (h : skipEscape s = .ok r) : r.length < s.length := by
  unfold skipEscape at h
  split at h
  · cases h
  next t =>
    cases hu : readUnit t with
    | error e => simp [hu, Except.map] at h
    | ok p =>
        simp only [hu, Except.map, Except.ok.injEq] at h
        have lt := readUnit_length (r := p.2) hu
        subst h
        simp only [List.length_cons]
        omega
  · split at h
    · cases h
      simp
    · cases h

/-- The rest of a literal after its first quotation mark, behind characters read before. -/
def readLiteral (read : List Char) (s : List Char) : Except Error (List Char × List Char) :=
  match s with
  | [] => .error .truncated
  | c :: r =>
      if c = '"' then .ok (read.reverse, r)
      else if c = '\\' then
        match _h : readEscape r with
        | .ok (d, r') => readLiteral (d :: read) r'
        | .error e => .error e
      else if c < ' ' then .error .malformed
      else readLiteral (c :: read) r
termination_by s.length
decreasing_by
  · have lt := readEscape_length _h
    simp only [List.length_cons]
    omega
  · simp

/-- What is left after a literal that does not matter; units may stand alone in it. -/
def skipLiteral (s : List Char) : Except Error (List Char) :=
  match s with
  | [] => .error .truncated
  | c :: r =>
      if c = '"' then .ok r
      else if c = '\\' then
        match _h : skipEscape r with
        | .ok r' => skipLiteral r'
        | .error e => .error e
      else if c < ' ' then .error .malformed
      else skipLiteral r
termination_by s.length
decreasing_by
  · have lt := skipEscape_length _h
    simp only [List.length_cons]
    omega
  · simp

theorem readLiteral_length {read t s r : List Char} (h : readLiteral read s = .ok (t, r)) :
    r.length < s.length := by
  fun_induction readLiteral read s with
  | case1 => cases h
  | case2 => cases h; simp
  | case3 read r d r' he _ ih =>
      have lt := readEscape_length he
      have lt' := ih h
      simp only [List.length_cons]
      omega
  | case4 => cases h
  | case5 => cases h
  | case6 read c r _ _ _ ih =>
      have lt := ih h
      simp only [List.length_cons]
      omega

theorem skipLiteral_length {s r : List Char} (h : skipLiteral s = .ok r) :
    r.length < s.length := by
  fun_induction skipLiteral s with
  | case1 => cases h
  | case2 => cases h; simp
  | case3 r r' he _ ih =>
      have lt := skipEscape_length he
      have lt' := ih h
      simp only [List.length_cons]
      omega
  | case4 => cases h
  | case5 => cases h
  | case6 c r _ _ _ ih =>
      have lt := ih h
      simp only [List.length_cons]
      omega

/-! ## Writing -/

/-- Characters below the space are escaped, and so are the quotation mark and the backslash. -/
def writeChar (c : Char) : List Char :=
  if c = '"' ∨ c = '\\' then ['\\', c]
  else if c = '\x08' then ['\\', 'b']
  else if c = '\x0c' then ['\\', 'f']
  else if c = '\n' then ['\\', 'n']
  else if c = '\r' then ['\\', 'r']
  else if c = '\t' then ['\\', 't']
  else if c < ' ' then
    ['\\', 'u', '0', '0', Text.hexDigit (c.toNat / 16), Text.hexDigit (c.toNat % 16)]
  else [c]

def writeLiteral (s : List Char) : List Char := '"' :: (s.flatMap writeChar ++ ['"'])

end Provenance.Json
