import Provenance.Json.List
import Provenance.Json.Object

/-! # Records

A record is written as an object with a key for each field, or as a list of the fields in order.
Its values are gathered in a draft, which is completed when the closing bracket is met.
-/

namespace Provenance.Json

/-- A field of a draft. What is read for it is put into the draft. -/
structure Field (δ : Type) where
  name : String
  isSet : δ → Bool
  reader : Decoder (δ → δ)

/-- `complete` gives no record as long as a field without a default is not set. -/
structure Schema (δ α : Type) where
  name : String
  blank : δ
  fields : List (Field δ)
  complete : δ → Option α

namespace Schema

variable {δ α : Type}

def firstUnset (schema : Schema δ α) (draft : δ) : String :=
  match schema.fields.find? (!·.isSet draft) with
  | some field => field.name
  | none => ""

/-- The record of an object that ends here. -/
def endObject (schema : Schema δ α) (draft : δ) : Except Error α :=
  match schema.complete draft with
  | some a => .ok a
  | none => .error (.mismatch (.missingField (schema.firstUnset draft)))

/-- The record of a list that ends here. -/
def endList (schema : Schema δ α) (count : Nat) (draft : δ) : Except Error α :=
  match schema.complete draft with
  | some a => .ok a
  | none => .error (.mismatch (.wrongLength count schema.name schema.fields.length))

/-- The value under a key: read into the draft if the key names a field, and skipped if not. -/
def readMember (schema : Schema δ α) (draft : δ) (key s : List Char) :
    Except Error (δ × List Char) :=
  match schema.fields.find? (·.name == String.ofList key) with
  | some field =>
      if field.isSet draft then .error (.mismatch (.duplicateField field.name))
      else
        match readColon s with
        | .error e => .error e
        | .ok r => (field.reader.run r).map fun (set, r') => (set draft, r')
  | none =>
      match readColon s with
      | .error e => .error e
      | .ok r => (skipValue r).map (draft, ·)

theorem readMember_length {schema : Schema δ α} {draft draft' : δ} {key s r : List Char}
    (h : schema.readMember draft key s = .ok (draft', r)) : r.length ≤ s.length := by
  unfold readMember at h
  split at h
  next field _ =>
    split at h
    · cases h
    · split at h
      · cases h
      next u hc =>
        have lt := readColon_length hc
        cases hr : field.reader.run u with
        | error e => simp [hr, Except.map] at h
        | ok p =>
            have lt' := field.reader.consumes (a := p.1) (r := p.2) hr
            simp only [hr, Except.map, Except.ok.injEq, Prod.mk.injEq] at h
            obtain ⟨_, rfl⟩ := h
            omega
  · split at h
    · cases h
    next u hc =>
      have lt := readColon_length hc
      cases hv : skipValue u with
      | error e => simp [hv, Except.map] at h
      | ok u' =>
          have le := skipValue_length hv
          simp only [hv, Except.map, Except.ok.injEq, Prod.mk.injEq] at h
          obtain ⟨_, rfl⟩ := h
          omega

/-- The members from a place in an object on, put one by one into the draft. -/
def readMembers (schema : Schema δ α) (draft : δ) (first : Bool) (s : List Char) :
    Except Error (α × List Char) :=
  match _hk : nextKey first s with
  | .error e => .error e
  | .ok (none, r) => (schema.endObject draft).map (·, r)
  | .ok (some key, r) =>
      match _hm : schema.readMember draft key r with
      | .error e => .error e
      | .ok (draft', r') => readMembers schema draft' false r'
termination_by s.length
decreasing_by
  have lt := nextKey_length _hk
  have le := readMember_length _hm
  omega

theorem readMembers_length {schema : Schema δ α} {draft : δ} {first : Bool} {s r : List Char}
    {a : α} (h : schema.readMembers draft first s = .ok (a, r)) : r.length < s.length := by
  fun_induction readMembers schema draft first s with
  | case1 => cases h
  | case2 draft first s u hk =>
      have lt := nextKey_length hk
      cases he : schema.endObject draft with
      | error e => simp [he, Except.map] at h
      | ok b =>
          simp only [he, Except.map, Except.ok.injEq, Prod.mk.injEq] at h
          obtain ⟨_, rfl⟩ := h
          exact lt
  | case3 => cases h
  | case4 draft first s key u hk draft' u' hm ih =>
      have lt := nextKey_length hk
      have le := readMember_length hm
      have lt' := ih h
      omega

/-- The fields from a place in a list on, in the order of the schema. -/
def readFields (schema : Schema δ α) (count : Nat) (draft : δ) (s : List Char) :
    List (Field δ) → Except Error (α × List Char)
  | [] =>
      match dropSpace s with
      | [] => .error .truncated
      | c :: r =>
          if c = ']' then (schema.endList count draft).map (·, r) else .error .malformed
  | field :: fields =>
      match nextItem (count == 0) s with
      | .error e => .error e
      | .ok (false, r) => (schema.endList count draft).map (·, r)
      | .ok (true, r) =>
          match field.reader.run r with
          | .error e => .error e
          | .ok (set, r') => readFields schema (count + 1) (set draft) r' fields

theorem readFields_length {schema : Schema δ α} {count : Nat} {draft : δ}
    {fields : List (Field δ)} {s r : List Char} {a : α}
    (h : schema.readFields count draft s fields = .ok (a, r)) : r.length < s.length := by
  have ended : ∀ {count : Nat} {draft : δ} {u : List Char},
      (schema.endList count draft).map (·, u) = .ok (a, r) → u = r := by
    intro count draft u hu
    cases he : schema.endList count draft with
    | error e => simp [he, Except.map] at hu
    | ok b =>
        simp only [he, Except.map, Except.ok.injEq, Prod.mk.injEq] at hu
        exact hu.2
  induction fields generalizing count draft s with
  | nil =>
      have le := dropSpace_length s
      simp only [readFields] at h
      split at h
      · cases h
      next hs =>
        split at h
        · cases ended h
          simp only [hs, List.length_cons] at le
          omega
        · cases h
  | cons field fields ih =>
      simp only [readFields] at h
      split at h
      · cases h
      next hn =>
        cases ended h
        exact (nextItem_length hn).2 rfl
      next hn =>
        split at h
        · cases h
        next hr =>
          have le := (nextItem_length hn).1
          have lt := field.reader.consumes hr
          have lt' := ih h
          omega

def decoder (schema : Schema δ α) : Decoder α where
  run s :=
    match readToken (dropSpace s) with
    | .ok (.object, r) => schema.readMembers schema.blank true r
    | .ok (.list, r) => schema.readFields 0 schema.blank r schema.fields
    | .ok (t, _) => .error (.mismatch (.wrongType t (.record schema.name)))
    | .error e => .error e
  consumes {s r a} h := by
    have le := dropSpace_length s
    split at h
    next ht =>
      have lt := readToken_length ht
      have lt' := readMembers_length h
      omega
    next ht =>
      have lt := readToken_length ht
      have lt' := readFields_length h
      omega
    · cases h
    · cases h

end Schema

end Provenance.Json
