import Provenance.Json.Token

/-! # Decoders

A decoder reads a value of one type from the front of a text, or says why it cannot, and always
consumes a part of the text.
-/

namespace Provenance.Json

structure Decoder (α : Type) where
  run : List Char → Except Error (α × List Char)
  consumes : ∀ {s r : List Char} {a : α}, run s = .ok (a, r) → r.length < s.length

namespace Decoder

variable {α β : Type}

def map (f : α → β) (d : Decoder α) : Decoder β where
  run s := (d.run s).map fun (a, r) => (f a, r)
  consumes {s r b} h := by
    cases hd : d.run s with
    | error e => simp [hd, Except.map] at h
    | ok p =>
        simp only [hd, Except.map, Except.ok.injEq, Prod.mk.injEq] at h
        exact h.2 ▸ d.consumes (a := p.1) (r := p.2) hd

/-- Reads a value from a whole text; only blanks may come after it. -/
def decode (d : Decoder α) (text : String) : Except Error α :=
  match d.run text.toList with
  | .ok (a, r) => if dropSpace r = [] then .ok a else .error .malformed
  | .error e => .error e

/-- A value that is a single token. The given function says what a token stands for. -/
def ofToken (accept : Token → Except Mismatch α) : Decoder α where
  run s :=
    match readToken (dropSpace s) with
    | .ok (t, r) =>
        match accept t with
        | .ok a => .ok (a, r)
        | .error cause => .error (.mismatch cause)
    | .error e => .error e
  consumes {s r a} h := by
    have le := dropSpace_length s
    split at h
    next ht =>
      have lt := readToken_length ht
      split at h
      · cases h
        omega
      · cases h
    · cases h

/-- A signed integer of 64 bits. -/
def int64 : Decoder Int64 :=
  ofToken fun
    | .integer i =>
        if Int64.minValue.toInt ≤ i ∧ i ≤ Int64.maxValue.toInt then .ok (Int64.ofInt i)
        else .error (.outOfRange i .int64)
    | t => .error (.wrongType t .int64)

/-- An unsigned integer of 32 bits. -/
def uint32 : Decoder UInt32 :=
  ofToken fun
    | .integer i =>
        if 0 ≤ i ∧ i < UInt32.size then .ok (UInt32.ofNat i.toNat) else .error (.outOfRange i .uint32)
    | t => .error (.wrongType t .uint32)

def string : Decoder String :=
  ofToken fun
    | .string s => .ok (String.ofList s)
    | t => .error (.wrongType t .string)

def boolean : Decoder Bool :=
  ofToken fun
    | .boolean b => .ok b
    | t => .error (.wrongType t .boolean)

def unit : Decoder Unit :=
  ofToken fun
    | .null => .ok ()
    | t => .error (.wrongType t .unit)

end Decoder

end Provenance.Json
