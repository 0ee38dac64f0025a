import Provenance.Json.Decoder

/-! # Lists -/

namespace Provenance.Json

/-- Where the next item of a list starts; none, and what is left, behind the closing bracket. -/
def nextItem (first : Bool) (s : List Char) : Except Error (Bool × List Char) :=
  match dropSpace s with
  | [] => .error .truncated
  | c :: r =>
      if c = ']' then .ok (false, r)
      else if first then .ok (true, c :: r)
      else if c = ',' then
        match dropSpace r with
        | [] => .error .truncated
        | d :: r' => if d = ']' then .error .malformed else .ok (true, d :: r')
      else .error .malformed

theorem nextItem_length {first more : Bool} {s r : List Char}
    (h : nextItem first s = .ok (more, r)) :
    r.length ≤ s.length ∧ (more = false → r.length < s.length) := by
  have le := dropSpace_length s
  simp only [nextItem] at h
  cases hs : dropSpace s with
  | nil => simp [hs] at h
  | cons c u =>
      simp only [hs, List.length_cons] at h le
      split at h
      · cases h
        exact ⟨by omega, fun _ => by omega⟩
      · split at h
        · cases h
          exact ⟨by simpa using le, Bool.noConfusion⟩
        · split at h
          · have le' := dropSpace_length u
            cases hu : dropSpace u with
            | nil => simp [hu] at h
            | cons d r' =>
                simp only [hu, List.length_cons] at h le'
                split at h
                · cases h
                · cases h
                  simp only [List.length_cons]
                  exact ⟨by omega, Bool.noConfusion⟩
          · cases h

namespace Decoder

variable {α : Type}

/-- The items from a place in a list on, behind those read before. -/
def readItems (item : Decoder α) (read : List α) (first : Bool) (s : List Char) :
    Except Error (List α × List Char) :=
  match _hn : nextItem first s with
  | .error e => .error e
  | .ok (false, r) => .ok (read.reverse, r)
  | .ok (true, r) =>
      match _hr : item.run r with
      | .error e => .error e
      | .ok (a, r') => readItems item (a :: read) false r'
termination_by s.length
decreasing_by
  have le := (nextItem_length _hn).1
  have lt := item.consumes _hr
  omega

theorem readItems_length {item : Decoder α} {read l : List α} {first : Bool} {s r : List Char}
    (h : item.readItems read first s = .ok (l, r)) : r.length < s.length := by
  fun_induction readItems item read first s with
  | case1 => cases h
  | case2 read first s r' hn =>
      cases h
      exact (nextItem_length hn).2 rfl
  | case3 => cases h
  | case4 read first s r' hn a r'' hr ih =>
      have le := (nextItem_length hn).1
      have lt := item.consumes hr
      have lt' := ih h
      omega

def list (item : Decoder α) : Decoder (List α) where
  run s :=
    match readToken (dropSpace s) with
    | .ok (.list, r) => item.readItems [] true r
    | .ok (t, _) => .error (.mismatch (.wrongType t .list))
    | .error e => .error e
  consumes {s r a} h := by
    have le := dropSpace_length s
    split at h
    next ht =>
      have lt := readToken_length ht
      have lt' := readItems_length h
      omega
    · cases h
    · cases h

end Decoder

end Provenance.Json
