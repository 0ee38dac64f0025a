import Provenance.Proofs.Json.ReadBack

/-! # Texts that break off

A reader that comes to the end of a written text before its value is complete says so. What is left
of an integer can be an integer of its own. But in a bracket a comma or the closing bracket has to
come behind it, so there the end is found all the same.
-/

namespace Provenance.Json

variable {α β δ : Type} {p s t : List Char} {c : Char}

/-- The first text is what is left of the second one, which breaks off before its end. -/
def Cut (p s : List Char) : Prop := ∃ c r, s = p ++ c :: r

theorem Cut.of_front (front : p <+: s) (proper : p ≠ s) : Cut p s := by
  obtain ⟨r, rfl⟩ := front
  cases r with
  | nil => exact absurd (List.append_nil p).symm proper
  | cons c r => exact ⟨c, r, rfl⟩

@[simp]
theorem not_cut_nil : ¬ Cut p [] := by
  rintro ⟨c, r, none⟩
  simp at none

@[simp]
theorem cut_cons : Cut p (c :: s) ↔ p = [] ∨ ∃ q, p = c :: q ∧ Cut q s := by
  constructor
  · rintro ⟨d, r, same⟩
    cases p with
    | nil => exact .inl rfl
    | cons e q =>
        obtain ⟨rfl, rfl⟩ := List.cons.inj same
        exact .inr ⟨q, rfl, d, r, rfl⟩
  · rintro (rfl | ⟨q, rfl, d, r, rfl⟩)
    · exact ⟨c, s, rfl⟩
    · exact ⟨d, r, rfl⟩

theorem eq_nil_of_cut_singleton (cut : Cut p [c]) : p = [] := by
  simpa using cut

/-- A text in two parts breaks off in the first or in the second one. -/
theorem cut_append (cut : Cut p (s ++ t)) : Cut p s ∨ ∃ q, p = s ++ q ∧ Cut q t := by
  induction s generalizing p with
  | nil => exact .inr ⟨p, rfl, cut⟩
  | cons c s ih =>
      rcases cut_cons.mp cut with rfl | ⟨q, rfl, later⟩
      · exact .inl (cut_cons.mpr (.inl rfl))
      · rcases ih later with first | ⟨q, rfl, second⟩
        · exact .inl (cut_cons.mpr (.inr ⟨q, rfl, first⟩))
        · exact .inr ⟨q, rfl, second⟩

theorem EndsNumeral.cut (ends : EndsNumeral s) (cut : Cut p s) : EndsNumeral p := by
  rintro c t rfl
  obtain ⟨d, r, rfl⟩ := cut
  exact ends c (t ++ d :: r) rfl

/-! ## Literals -/

theorem utf8Size_hexDigit : ∀ n < 16, (Text.hexDigit n).utf8Size = 1 := by
  decide

theorem readEscape_cut {n : Nat} (control : n < 32)
    (cut : Cut p ['u', '0', '0', Text.hexDigit (n / 16), Text.hexDigit (n % 16)]) :
    readEscape p = .error .truncated := by
  have size := utf8Size_hexDigit (n / 16) (by omega)
  have zero : '0'.utf8Size = 1 := rfl
  simp only [cut_cons, not_cut_nil, and_false, exists_false, or_false] at cut
  rcases cut with rfl | ⟨_, rfl, rfl | ⟨_, rfl, rfl | ⟨_, rfl, rfl | ⟨_, rfl, rfl⟩⟩⟩⟩ <;>
    simp [readEscape, readUnit, byteCount, size, zero]

theorem readLiteral_escape_failed {read r : List Char} {cause : Error}
    (failed : readEscape r = .error cause) : readLiteral read ('\\' :: r) = .error cause := by
  rw [readLiteral, if_neg (by decide), if_pos rfl]
  split <;> simp_all

theorem readLiteral_nil (read : List Char) : readLiteral read [] = .error .truncated := by
  rw [readLiteral]

theorem readLiteral_cut_writeChar (read : List Char) (cut : Cut p (writeChar c)) :
    readLiteral read p = .error .truncated := by
  have short : ∀ d, Cut p ['\\', d] → readLiteral read p = .error .truncated := by
    intro d cut
    simp only [cut_cons, not_cut_nil, and_false, exists_false, or_false] at cut
    rcases cut with rfl | ⟨_, rfl, rfl⟩
    · exact readLiteral_nil read
    · exact readLiteral_escape_failed rfl
  unfold writeChar at cut
  split at cut
  next => exact short c cut
  split at cut
  next => exact short 'b' cut
  split at cut
  next => exact short 'f' cut
  split at cut
  next => exact short 'n' cut
  split at cut
  next => exact short 'r' cut
  split at cut
  next => exact short 't' cut
  split at cut
  next control =>
    rcases cut_cons.mp cut with rfl | ⟨q, rfl, later⟩
    · exact readLiteral_nil read
    · exact readLiteral_escape_failed (readEscape_cut control later)
  next =>
    obtain rfl := eq_nil_of_cut_singleton cut
    exact readLiteral_nil read

theorem readLiteral_cut (read : List Char) (cut : Cut p (s.flatMap writeChar ++ ['"'])) :
    readLiteral read p = .error .truncated := by
  induction s generalizing read p with
  | nil =>
      obtain rfl := eq_nil_of_cut_singleton cut
      exact readLiteral_nil read
  | cons c s ih =>
      rw [List.flatMap_cons, List.append_assoc] at cut
      rcases cut_append cut with here | ⟨q, rfl, later⟩
      · exact readLiteral_cut_writeChar read here
      · rw [readLiteral_writeChar]
        exact ih (c :: read) later

/-! ## Values -/

/-- A decoder that is given what is left of a written value finds the end too early, unless it takes
all of it for another value. -/
def RunsOut (d : Decoder α) (written : List Char) : Prop :=
  ∀ p, Cut p written → d.run p = .error .truncated ∨ ∃ a, d.run p = .ok (a, [])

/-- A decoder finds the end too early wherever the written value breaks off. -/
def WantsAll (d : Decoder α) (written : List Char) : Prop :=
  ∀ p, Cut p written → d.run p = .error .truncated

theorem RunsOut.map {d : Decoder α} {written : List Char} (out : RunsOut d written) (f : α → β) :
    RunsOut (d.map f) written := by
  intro p cut
  rcases out p cut with ended | ⟨a, read⟩
  · exact .inl (by simp [Decoder.map, ended, Except.map])
  · exact .inr ⟨f a, by simp [Decoder.map, read, Except.map]⟩

namespace WantsAll

variable {d : Decoder α} {written : List Char}

theorem runsOut (all : WantsAll d written) : RunsOut d written :=
  fun p cut => .inl (all p cut)

theorem decode (all : WantsAll d written) {text : String} (cut : Cut text.toList written) :
    d.decode text = .error .truncated := by
  simp only [Decoder.decode, all _ cut]

end WantsAll

/-- The first digits of a number make up a smaller one, which is not zero. -/
theorem cut_writeNat {n : Nat} (cut : Cut p (writeNat n)) :
    p = [] ∨ ∃ m, 0 < m ∧ m ≤ n ∧ p = writeNat m := by
  fun_induction writeNat n generalizing p with
  | case1 n small => exact .inl (eq_nil_of_cut_singleton cut)
  | case2 n large ih =>
      rcases cut_append cut with front | ⟨q, rfl, last⟩
      · rcases ih front with none | ⟨m, positive, le, same⟩
        · exact .inl none
        · exact .inr ⟨m, positive, by omega, same⟩
      · obtain rfl := eq_nil_of_cut_singleton last
        exact .inr ⟨n / 10, by omega, by omega, List.append_nil _⟩

/-- What is left of an integer is nothing, its sign, or an integer between it and zero. -/
theorem cut_writeInt {i : Int} (cut : Cut p (writeInt i)) :
    p = [] ∨ p = ['-'] ∨ ∃ j, min 0 i ≤ j ∧ j ≤ max 0 i ∧ p = writeInt j := by
  cases i with
  | ofNat n =>
      rcases cut_writeNat cut with none | ⟨m, -, le, same⟩
      · exact .inl none
      · exact .inr (.inr ⟨m, by omega, by simp; omega, same⟩)
  | negSucc n =>
      rcases cut_cons.mp cut with none | ⟨q, rfl, digits⟩
      · exact .inl none
      · rcases cut_writeNat digits with rfl | ⟨m, positive, le, rfl⟩
        · exact .inr (.inl rfl)
        · refine .inr (.inr ⟨Int.negSucc (m - 1), by omega, by omega, ?_⟩)
          rw [writeInt, Nat.sub_add_cancel positive]

theorem runsOut_int64 (n : Int64) : RunsOut .int64 (writeInt n.toInt) := by
  intro p cut
  rcases cut_writeInt cut with rfl | rfl | ⟨j, low, high, rfl⟩
  · exact .inl rfl
  · exact .inl rfl
  · have least : Int64.minValue.toInt ≤ j :=
      Int.le_trans (Int.le_min.mpr ⟨by decide, n.minValue_le_toInt⟩) low
    have most : j ≤ Int64.maxValue.toInt :=
      Int.le_trans high (Int.max_le.mpr ⟨by decide, n.toInt_le⟩)
    have word : IsWord j := ⟨least, Int.lt_of_le_of_lt most (by decide)⟩
    have back : ReadsBack .int64 (writeInt j) (Int64.ofInt j) :=
      readsBack_token (starts_writeInt j) (fun _ => readToken_writeInt word)
        (if_pos ⟨least, most⟩)
    have taken := back.reads [] endsNumeral_nil
    rw [List.append_nil] at taken
    exact .inr ⟨_, taken⟩

/-! ## Lists -/

theorem eq_nil_of_cut_lead {first : Bool} (cut : Cut p (lead first)) : p = [] := by
  cases first with
  | true => exact absurd cut not_cut_nil
  | false => exact eq_nil_of_cut_singleton cut

theorem nextItem_nil (first : Bool) : nextItem first [] = .error .truncated := rfl

theorem nextItem_lead_nil (first : Bool) : nextItem first (lead first) = .error .truncated := by
  cases first <;> rfl

theorem readItems_end {item : Decoder α} {read : List α} {first : Bool} {cause : Error}
    (none : nextItem first s = .error cause) : item.readItems read first s = .error cause := by
  rw [Decoder.readItems]
  split <;> simp_all

/-- A text that breaks off in an item cannot go on behind it. -/
theorem readItems_cut_item {item : Decoder α} {written : List Char}
    (starts : ∃ c t, written = c :: t ∧ isSpace c = false ∧ c ≠ ']')
    (out : RunsOut item written) (read : List α) (first : Bool) (cut : Cut p written) :
    item.readItems read first (lead first ++ p) = .error .truncated := by
  obtain ⟨c, t, rfl, visible, other⟩ := starts
  have ended := out p cut
  rcases cut_cons.mp cut with rfl | ⟨q, rfl, -⟩
  · rw [List.append_nil]
    exact readItems_end (nextItem_lead_nil first)
  · have next := nextItem_lead first visible other q
    rcases ended with truncated | ⟨a, taken⟩
    · exact readItems_failed next truncated
    · rw [readItems_step next taken]
      exact readItems_end (nextItem_nil false)

theorem readItems_cut {item : Decoder α} {written : α → List Char} {items : List α}
    (back : ∀ a ∈ items, ReadsBack item (written a) a)
    (out : ∀ a ∈ items, RunsOut item (written a)) (read : List α) (first : Bool)
    (cut : Cut p (led first (items.map written) ++ [']'])) :
    item.readItems read first p = .error .truncated := by
  induction items generalizing read first p with
  | nil =>
      obtain rfl := eq_nil_of_cut_singleton cut
      exact readItems_end (nextItem_nil first)
  | cons a items ih =>
      obtain ⟨starts, reads⟩ := back a List.mem_cons_self
      simp only [List.map_cons, led, List.append_assoc] at cut
      rcases cut_append cut with before | ⟨p, rfl, behind⟩
      · rw [eq_nil_of_cut_lead before]
        exact readItems_end (nextItem_nil first)
      rcases cut_append behind with inside | ⟨p, rfl, later⟩
      · exact readItems_cut_item starts (out a List.mem_cons_self) read first inside
      · have run := reads p ((endsNumeral_led _ [] (.inl rfl)).cut later)
        obtain ⟨c, t, front, visible, other⟩ := starts
        have next := nextItem_lead first visible other (t ++ p)
        rw [← List.cons_append, ← front] at next
        rw [readItems_step next run]
        exact ih (fun a' listed => back a' (List.mem_cons_of_mem a listed))
          (fun a' listed => out a' (List.mem_cons_of_mem a listed)) _ _ later

theorem wantsAll_list {item : Decoder α} {written : α → List Char} {items : List α}
    (back : ∀ a ∈ items, ReadsBack item (written a) a)
    (out : ∀ a ∈ items, RunsOut item (written a)) :
    WantsAll item.list (writeList (items.map written)) := by
  intro p cut
  rw [writeList, commas_eq_led] at cut
  rcases cut_cons.mp cut with rfl | ⟨p, rfl, inside⟩
  · rfl
  · exact readItems_cut back out [] true inside

/-! ## Records -/

theorem nextKey_nil (first : Bool) : nextKey first [] = .error .truncated := rfl

theorem nextKey_lead_cut (first : Bool) {name : String} (cut : Cut p (writeString name)) :
    nextKey first (lead first ++ p) = .error .truncated := by
  rcases cut_cons.mp cut with rfl | ⟨q, rfl, inside⟩
  · cases first <;> rfl
  · have ended := readLiteral_cut [] inside
    have comma := dropSpace_of_visible (c := ',') rfl ('"' :: q)
    have quote := dropSpace_of_visible (c := '"') rfl q
    cases first with
    | true => simp [nextKey, nextKey.readKey, lead, quote, ended, Except.map]
    | false => simp [nextKey, nextKey.readKey, lead, comma, quote, ended, Except.map]

theorem readMember_cut {schema : Schema δ α} {draft : δ} {name : String} {field : Field δ}
    {written : List Char} (named : schema.fields.find? (·.name == name) = some field)
    (unset : field.isSet draft = false) (out : RunsOut field.reader written)
    (cut : Cut p (':' :: written)) :
    schema.readMember draft name.toList p = .error .truncated ∨
      ∃ draft', schema.readMember draft name.toList p = .ok (draft', []) := by
  rcases cut_cons.mp cut with rfl | ⟨q, rfl, inside⟩
  · have colon : readColon [] = .error .truncated := rfl
    exact .inl (by simp [Schema.readMember, named, unset, colon])
  · have colon : readColon (':' :: q) = .ok q := rfl
    rcases out q inside with truncated | ⟨set, taken⟩
    · exact .inl (by simp [Schema.readMember, named, unset, colon, truncated, Except.map])
    · exact .inr ⟨set draft,
        by simp [Schema.readMember, named, unset, colon, taken, Except.map]⟩

theorem readMembers_end {schema : Schema δ α} {draft : δ} {first : Bool} {cause : Error}
    (none : nextKey first s = .error cause) :
    schema.readMembers draft first s = .error cause := by
  rw [Schema.readMembers]
  split <;> simp_all

/-- A text that breaks off in a member cannot go on behind it. -/
theorem readMembers_cut_member {schema : Schema δ α} {draft : δ} {name : String} {field : Field δ}
    {written : List Char} (named : schema.fields.find? (·.name == name) = some field)
    (unset : field.isSet draft = false) (out : RunsOut field.reader written) (first : Bool)
    (cut : Cut p (writeMember name written)) :
    schema.readMembers draft first (lead first ++ p) = .error .truncated := by
  rcases cut_append cut with inside | ⟨q, rfl, behind⟩
  · exact readMembers_end (nextKey_lead_cut first inside)
  · have next := nextKey_lead first name q
    rcases readMember_cut named unset out behind with truncated | ⟨draft', taken⟩
    · exact readMembers_failed next truncated
    · rw [readMembers_step next taken]
      exact readMembers_end (nextKey_nil false)

theorem Fills.readMembers_cut {schema : Schema δ α} {draft : δ}
    {members : List (String × List Char)} {a : α} (fills : Fills schema draft members a)
    (out : ∀ member ∈ members, ∀ field,
      schema.fields.find? (·.name == member.1) = some field → RunsOut field.reader member.2)
    (first : Bool) (cut : Cut p (led first (memberTexts members) ++ ['}'])) :
    schema.readMembers draft first p = .error .truncated := by
  induction fills generalizing first p with
  | complete made =>
      obtain rfl := eq_nil_of_cut_singleton cut
      exact readMembers_end (nextKey_nil first)
  | @member draft name field written set members a named unset back _ ih =>
      have split_off : memberTexts ((name, written) :: members) =
          writeMember name written :: memberTexts members := rfl
      simp only [split_off, led, List.append_assoc] at cut
      rcases cut_append cut with before | ⟨p, rfl, behind⟩
      · rw [eq_nil_of_cut_lead before]
        exact readMembers_end (nextKey_nil first)
      rcases cut_append behind with inside | ⟨p, rfl, later⟩
      · exact readMembers_cut_member named unset (out _ List.mem_cons_self field named) first inside
      · have ends := (endsNumeral_led (memberTexts members) [] (.inr rfl)).cut later
        have next := nextKey_lead first name (':' :: (written ++ p))
        rw [writeMember, List.append_assoc, List.cons_append,
          readMembers_step next (readMember_written named unset back ends)]
        exact ih (fun member listed => out member (List.mem_cons_of_mem _ listed)) false later

theorem wantsAll_record {schema : Schema δ α} {members : List (String × List Char)} {a : α}
    (fills : Fills schema schema.blank members a)
    (out : ∀ member ∈ members, ∀ field,
      schema.fields.find? (·.name == member.1) = some field → RunsOut field.reader member.2) :
    WantsAll schema.decoder (writeObject members) := by
  intro p cut
  rw [writeObject_eq] at cut
  rcases cut_cons.mp cut with rfl | ⟨p, rfl, inside⟩
  · rfl
  · exact fills.readMembers_cut out true inside

end Provenance.Json
