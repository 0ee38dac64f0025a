import Provenance.Json.Decoder
import Provenance.Json.Skip

/-! # Variants

A named variant is written as its name, or as an object with its name for the only key and null
for the value of that key.
-/

namespace Provenance.Json

/-- What is left after the bracket that closes an object. -/
def readClosing (s : List Char) : Except Error (List Char) :=
  match dropSpace s with
  | [] => .error .truncated
  | c :: r => if c = '}' then .ok r else .error .malformed

theorem readClosing_length {s r : List Char} (h : readClosing s = .ok r) :
    r.length < s.length := by
  have le := dropSpace_length s
  unfold readClosing at h
  split at h
  · cases h
  next hs =>
    split at h
    · cases h
      simp only [hs, List.length_cons] at le
      omega
    · cases h

/-- What stands behind the name of a variant that is written as a key. -/
def readNullValue (s : List Char) : Except Error (List Char) :=
  match readColon s with
  | .error e => .error e
  | .ok r =>
      match Decoder.unit.run r with
      | .error e => .error e
      | .ok ((), r') => readClosing r'

theorem readNullValue_length {s r : List Char} (h : readNullValue s = .ok r) :
    r.length < s.length := by
  unfold readNullValue at h
  split at h
  · cases h
  next hc =>
    have lt := readColon_length hc
    split at h
    · cases h
    next hu =>
      have lt' := Decoder.unit.consumes hu
      have lt'' := readClosing_length h
      omega

/-- The name of a variant that is written as a key. -/
def readName (s : List Char) : Except Error (List Char × List Char) :=
  match dropSpace s with
  | [] => .error .truncated
  | '"' :: r => readLiteral [] r
  | _ => .error .malformed

theorem readName_length {s name r : List Char} (h : readName s = .ok (name, r)) :
    r.length < s.length := by
  have le := dropSpace_length s
  unfold readName at h
  split at h
  · cases h
  next hs =>
    have lt := readLiteral_length h
    simp only [hs, List.length_cons] at le
    omega
  · cases h

namespace Decoder

variable {α : Type}

/-- The variant of a name. -/
def choose (known : List (String × α)) (name : List Char) : Except Error α :=
  match known.lookup (String.ofList name) with
  | some a => .ok a
  | none => .error (.mismatch (.unknownVariant name (known.map Prod.fst)))

def variant (known : List (String × α)) : Decoder α where
  run s :=
    match dropSpace s with
    | [] => .error .truncated
    | '"' :: r =>
        match readLiteral [] r with
        | .error e => .error e
        | .ok (name, r') => (choose known name).map (·, r')
    | '{' :: r =>
        match readName r with
        | .error e => .error e
        | .ok (name, r') =>
            match choose known name with
            | .error e => .error e
            | .ok a => (readNullValue r').map (a, ·)
    | _ => .error .malformed
  consumes {s r a} h := by
    have le := dropSpace_length s
    split at h
    · cases h
    next u hs =>
      simp only [hs, List.length_cons] at le
      split at h
      · cases h
      next name r' hl =>
        have lt := readLiteral_length hl
        cases hc : choose known name with
        | error e => simp [hc, Except.map] at h
        | ok b =>
            simp only [hc, Except.map, Except.ok.injEq, Prod.mk.injEq] at h
            obtain ⟨_, rfl⟩ := h
            omega
    next u hs =>
      simp only [hs, List.length_cons] at le
      split at h
      · cases h
      next name r' hn =>
        have lt := readName_length hn
        split at h
        · cases h
        · cases hn : readNullValue r' with
          | error e => simp [hn, Except.map] at h
          | ok r'' =>
              have lt' := readNullValue_length hn
              simp only [hn, Except.map, Except.ok.injEq, Prod.mk.injEq] at h
              obtain ⟨_, rfl⟩ := h
              omega
    · cases h

end Decoder

end Provenance.Json
