import Std.Data.ExtTreeMap
import Provenance.Json.Decoder
import Provenance.Json.Skip

/-! # Objects and maps -/

namespace Provenance.Json

/-- The next key of an object and what is left; no key behind the closing bracket. -/
def nextKey (first : Bool) (s : List Char) : Except Error (Option (List Char) × List Char) :=
  match dropSpace s with
  | [] => .error .truncated
  | c :: r =>
      if c = '}' then .ok (none, r)
      else if first then readKey (c :: r)
      else if c = ',' then
        match dropSpace r with
        | [] => .error .truncated
        | s' => readKey s'
      else .error .malformed
where
  readKey : List Char → Except Error (Option (List Char) × List Char)
    | '"' :: r => (readLiteral [] r).map fun (key, r') => (some key, r')
    | _ => .error .malformed

theorem readKey_length {s r : List Char} {key : Option (List Char)}
    (h : nextKey.readKey s = .ok (key, r)) : r.length < s.length := by
  unfold nextKey.readKey at h
  split at h
  next u =>
    cases hl : readLiteral [] u with
    | error e => simp [hl, Except.map] at h
    | ok p =>
        have lt := readLiteral_length (t := p.1) (r := p.2) hl
        simp only [hl, Except.map, Except.ok.injEq, Prod.mk.injEq] at h
        obtain ⟨_, rfl⟩ := h
        simp only [List.length_cons]
        omega
  · cases h

theorem nextKey_length {first : Bool} {s r : List Char} {key : Option (List Char)}
    (h : nextKey first s = .ok (key, r)) : r.length < s.length := by
  have le := dropSpace_length s
  unfold nextKey at h
  split at h
  · cases h
  next c u hs =>
    simp only [hs, List.length_cons] at le
    split at h
    · cases h
      omega
    · split at h
      · have lt := readKey_length h
        simp only [List.length_cons] at lt
        omega
      · split at h
        · have le' := dropSpace_length u
          split at h
          · cases h
          · have lt := readKey_length h
            omega
        · cases h

namespace Decoder

variable {α : Type}

/-- The entries from a place in an object on, put one by one into those read before. -/
def readEntries (value : Decoder α) (read : Std.ExtTreeMap String α) (first : Bool)
    (s : List Char) : Except Error (Std.ExtTreeMap String α × List Char) :=
  match _hk : nextKey first s with
  | .error e => .error e
  | .ok (none, r) => .ok (read, r)
  | .ok (some key, r) =>
      match _hc : readColon r with
      | .error e => .error e
      | .ok r' =>
          match _hv : value.run r' with
          | .error e => .error e
          | .ok (a, r'') => readEntries value (read.insert (String.ofList key) a) false r''
termination_by s.length
decreasing_by
  have lt := nextKey_length _hk
  have lt' := readColon_length _hc
  have lt'' := value.consumes _hv
  omega

theorem readEntries_length {value : Decoder α} {read m : Std.ExtTreeMap String α} {first : Bool}
    {s r : List Char} (h : value.readEntries read first s = .ok (m, r)) :
    r.length < s.length := by
  fun_induction readEntries value read first s with
  | case1 => cases h
  | case2 read first s r' hk =>
      cases h
      exact nextKey_length hk
  | case3 => cases h
  | case4 => cases h
  | case5 read first s key r' hk r'' hc a r''' hv ih =>
      have lt := nextKey_length hk
      have lt' := readColon_length hc
      have lt'' := value.consumes hv
      have lt''' := ih h
      omega

/-- A map from strings. Of several entries under one key the last is kept. -/
def stringMap (value : Decoder α) : Decoder (Std.ExtTreeMap String α) where
  run s :=
    match readToken (dropSpace s) with
    | .ok (.object, r) => value.readEntries ∅ true r
    | .ok (t, _) => .error (.mismatch (.wrongType t .map))
    | .error e => .error e
  consumes {s r a} h := by
    have le := dropSpace_length s
    split at h
    next ht =>
      have lt := readToken_length ht
      have lt' := readEntries_length h
      omega
    · cases h
    · cases h

end Decoder

end Provenance.Json
