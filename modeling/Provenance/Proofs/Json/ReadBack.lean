import Provenance.Json.Record
import Provenance.Json.Variant
import Provenance.Proofs.Json.Numerals

/-! # Reading written values back

A written value is read back by its decoder whatever comes after it, so the values inside a list or
an object come back one after the other.
-/

namespace Provenance.Json

variable {α β δ : Type}

/-! ## Literals -/

theorem hexValue?_hexDigit : ∀ n < 16, hexValue? (Text.hexDigit n) = some n := by
  decide

theorem unitOf?_control {n : Nat} (control : n < 32) :
    unitOf? '0' '0' (Text.hexDigit (n / 16)) (Text.hexDigit (n % 16)) = some n := by
  have high := hexValue?_hexDigit (n / 16) (by omega)
  have low := hexValue?_hexDigit (n % 16) (by omega)
  have zero : hexValue? '0' = some 0 := rfl
  simp only [unitOf?, zero, high, low, bind, Option.bind, pure, Option.some.injEq]
  omega

theorem readEscape_control {c : Char} (control : c.toNat < 32) (r : List Char) :
    readEscape ('u' :: '0' :: '0' :: Text.hexDigit (c.toNat / 16) :: Text.hexDigit (c.toNat % 16) ::
      r) = .ok (c, r) := by
  have low : isLowUnit c.toNat = false := by
    simp only [isLowUnit, Bool.and_eq_false_iff, decide_eq_false_iff_not]
    omega
  have high : isHighUnit c.toNat = false := by
    simp only [isHighUnit, Bool.and_eq_false_iff, decide_eq_false_iff_not]
    omega
  simp [readEscape, readUnit, unitOf?_control control, low, high]

/-- A literal goes on behind an escape with the character that the escape stands for. -/
theorem readLiteral_escape {read r r' : List Char} {c : Char} (escape : readEscape r = .ok (c, r')) :
    readLiteral read ('\\' :: r) = readLiteral (c :: read) r' := by
  rw [readLiteral, if_neg (by decide), if_pos rfl]
  split
  · next same =>
      rw [escape] at same
      cases same
      rfl
  · next same =>
      rw [escape] at same
      cases same

theorem readLiteral_writeChar (read : List Char) (c : Char) (r : List Char) :
    readLiteral read (writeChar c ++ r) = readLiteral (c :: read) r := by
  unfold writeChar
  split
  next special =>
    rcases special with rfl | rfl <;> exact readLiteral_escape rfl
  split
  next same => exact readLiteral_escape (by rw [same]; rfl)
  split
  next same => exact readLiteral_escape (by rw [same]; rfl)
  split
  next same => exact readLiteral_escape (by rw [same]; rfl)
  split
  next same => exact readLiteral_escape (by rw [same]; rfl)
  split
  next same => exact readLiteral_escape (by rw [same]; rfl)
  split
  next control => exact readLiteral_escape (readEscape_control control r)
  next plain _ _ _ _ _ visible =>
    obtain ⟨quote, backslash⟩ := not_or.mp plain
    rw [List.singleton_append, readLiteral, if_neg quote, if_neg backslash, if_neg visible]

theorem readLiteral_written (read s r : List Char) :
    readLiteral read (s.flatMap writeChar ++ '"' :: r) = .ok (read.reverse ++ s, r) := by
  induction s generalizing read with
  | nil => simp [readLiteral]
  | cons c s ih =>
      rw [List.flatMap_cons, List.append_assoc, readLiteral_writeChar, ih]
      simp

/-! ## Values -/

/-- A decoder reads a value back from its written form. The form does not start with a blank or with
the bracket that closes a list. -/
structure ReadsBack (d : Decoder α) (written : List Char) (a : α) : Prop where
  starts : ∃ c t, written = c :: t ∧ isSpace c = false ∧ c ≠ ']'
  reads : ∀ r, EndsNumeral r → d.run (written ++ r) = .ok (a, r)

theorem dropSpace_of_visible {c : Char} (visible : isSpace c = false) (r : List Char) :
    dropSpace (c :: r) = c :: r := by
  simp [dropSpace, visible]

namespace ReadsBack

variable {d : Decoder α} {written : List Char} {a : α}

theorem map (back : ReadsBack d written a) (f : α → β) : ReadsBack (d.map f) written (f a) where
  starts := back.starts
  reads r ends := by
    simp only [Decoder.map, back.reads r ends]
    rfl

theorem decode (back : ReadsBack d written a) : d.decode (String.ofList written) = .ok a := by
  have whole := back.reads [] endsNumeral_nil
  rw [List.append_nil] at whole
  simp only [Decoder.decode, String.toList_ofList, whole]
  rfl

end ReadsBack

/-- A written integer starts neither with a blank nor with the bracket that closes a list. -/
theorem starts_writeInt (i : Int) :
    ∃ c t, writeInt i = c :: t ∧ isSpace c = false ∧ c ≠ ']' := by
  obtain ⟨c, t, written, start⟩ := head_writeInt i
  exact ⟨c, t, written, visible_of_starts_numeral start,
    ne_of_starts_numeral start (by decide) (by decide)⟩

/-- A value that is a single token is read back if its token stands for it. -/
theorem readsBack_token {accept : Token → Except Mismatch α} {written : List Char} {t : Token}
    {a : α} (starts : ∃ c t, written = c :: t ∧ isSpace c = false ∧ c ≠ ']')
    (token : ∀ r, EndsNumeral r → readToken (written ++ r) = .ok (t, r))
    (accepted : accept t = .ok a) : ReadsBack (Decoder.ofToken accept) written a := by
  refine ⟨starts, fun r ends => ?_⟩
  obtain ⟨c, t, front, visible, -⟩ := starts
  have unspaced : dropSpace (written ++ r) = written ++ r := by
    rw [front, List.cons_append, dropSpace_of_visible visible]
  simp only [Decoder.ofToken, unspaced, token r ends, accepted]

theorem readsBack_int64 (n : Int64) : ReadsBack .int64 (writeInt n.toInt) n := by
  have low := n.minValue_le_toInt
  have high := n.toInt_le
  have word : IsWord n.toInt := ⟨low, Int.lt_of_le_of_lt high (by decide)⟩
  refine readsBack_token (starts_writeInt n.toInt) (fun _ => readToken_writeInt word) ?_
  dsimp only
  rw [if_pos ⟨low, high⟩, Int64.ofInt_toInt]

theorem readsBack_uint32 (n : UInt32) : ReadsBack .uint32 (writeNat n.toNat) n := by
  have below : (n.toNat : Int) < UInt32.size := Int.ofNat_lt.mpr n.toNat_lt_size
  have word : IsWord n.toNat :=
    ⟨Int.le_trans (by decide) (Int.natCast_nonneg _), Int.lt_trans below (by decide)⟩
  refine readsBack_token (starts_writeInt n.toNat) (fun _ => readToken_writeInt word) ?_
  dsimp only
  rw [if_pos ⟨Int.natCast_nonneg _, below⟩, Int.toNat_natCast, UInt32.ofNat_toNat]

theorem readsBack_string (s : String) : ReadsBack .string (writeString s) s := by
  refine readsBack_token (t := .string s.toList) ⟨'"', _, rfl, rfl, by decide⟩ (fun r _ => ?_)
    (congrArg Except.ok String.ofList_toList)
  have literal := readLiteral_written [] s.toList r
  simp only [writeString, writeLiteral, List.cons_append, List.append_assoc, List.nil_append,
    readToken, literal, List.reverse_nil, Except.map]

theorem readsBack_bool (b : Bool) : ReadsBack .boolean (writeBool b) b := by
  cases b with
  | true => exact readsBack_token ⟨'t', _, rfl, rfl, by decide⟩ (fun _ _ => rfl) rfl
  | false => exact readsBack_token ⟨'f', _, rfl, rfl, by decide⟩ (fun _ _ => rfl) rfl

/-- A variant is read back from a name that is looked up as it. -/
theorem readsBack_variant {known : List (String × α)} {name : String} {a : α}
    (listed : known.lookup name = some a) :
    ReadsBack (.variant known) (writeString name) a := by
  refine ⟨⟨'"', _, rfl, rfl, by decide⟩, fun r _ => ?_⟩
  have literal := readLiteral_written [] name.toList r
  have quote := dropSpace_of_visible (c := '"') rfl (name.toList.flatMap writeChar ++ '"' :: r)
  simp only [Decoder.variant, writeString, writeLiteral, List.cons_append, List.append_assoc,
    List.nil_append, quote, literal, List.reverse_nil, Decoder.choose, String.ofList_toList, listed,
    Except.map]

/-! ## Lists -/

/-- What stands before a value in a bracket, the first or a later one. -/
def lead : Bool → List Char
  | true => []
  | false => [',']

/-- Values from a place in a bracket on. -/
def led : Bool → List (List Char) → List Char
  | _, [] => []
  | first, value :: values => lead first ++ value ++ led false values

theorem commas_eq_led (values : List (List Char)) : commas values = led true values := by
  have later : ∀ value values, commas (value :: values) = value ++ led false values := by
    intro value values
    induction values generalizing value with
    | nil => simp [commas, led]
    | cons next values ih => simp [commas, led, lead, ih]
  cases values with
  | nil => rfl
  | cons value values => simpa [led, lead] using later value values

/-- Behind a value in a bracket comes a comma or the closing bracket. -/
theorem endsNumeral_led (values : List (List Char)) {close : Char} (r : List Char)
    (bracket : close = ']' ∨ close = '}') : EndsNumeral (led false values ++ close :: r) := by
  cases values with
  | nil => rcases bracket with rfl | rfl <;> exact endsNumeral_cons r (by decide)
  | cons value values => exact endsNumeral_cons _ (by decide)

theorem nextItem_lead (first : Bool) {c : Char} (visible : isSpace c = false) (other : c ≠ ']')
    (r : List Char) : nextItem first (lead first ++ c :: r) = .ok (true, c :: r) := by
  have item := dropSpace_of_visible visible r
  have comma := dropSpace_of_visible (c := ',') rfl (c :: r)
  cases first with
  | true => simp [nextItem, lead, item, other]
  | false => simp [nextItem, lead, comma, item, other]

theorem readItems_stop {item : Decoder α} {read : List α} {first : Bool} {s r : List Char}
    (next : nextItem first s = .ok (false, r)) :
    item.readItems read first s = .ok (read.reverse, r) := by
  rw [Decoder.readItems]
  split <;> simp_all

theorem readItems_step {item : Decoder α} {read : List α} {first : Bool} {s r r' : List Char}
    {a : α} (next : nextItem first s = .ok (true, r)) (run : item.run r = .ok (a, r')) :
    item.readItems read first s = item.readItems (a :: read) false r' := by
  rw [Decoder.readItems]
  split
  next failed => simp [next] at failed
  next stopped => simp [next] at stopped
  next same =>
    obtain rfl : r = _ := by simpa [next] using same
    split <;> simp_all

theorem readItems_failed {item : Decoder α} {read : List α} {first : Bool}
    {s r : List Char} {cause : Error} (next : nextItem first s = .ok (true, r))
    (failed : item.run r = .error cause) : item.readItems read first s = .error cause := by
  rw [Decoder.readItems]
  split
  next same => simp [next] at same
  next same => simp [next] at same
  next same =>
    obtain rfl : r = _ := by simpa [next] using same
    split <;> simp_all

theorem readItems_led {item : Decoder α} {written : α → List Char} {items : List α}
    (back : ∀ a ∈ items, ReadsBack item (written a) a) (read : List α) (first : Bool)
    (r : List Char) :
    item.readItems read first (led first (items.map written) ++ ']' :: r) =
      .ok (read.reverse ++ items, r) := by
  induction items generalizing read first with
  | nil =>
      rw [List.append_nil]
      exact readItems_stop rfl
  | cons a items ih =>
      obtain ⟨⟨c, t, front, visible, other⟩, reads⟩ := back a List.mem_cons_self
      have run := reads _ (endsNumeral_led (items.map written) r (.inl rfl))
      have next := nextItem_lead first visible other
        (t ++ (led false (items.map written) ++ ']' :: r))
      rw [← List.cons_append, ← front] at next
      simp only [List.map_cons, led, List.append_assoc]
      rw [readItems_step next run, ih fun a' listed => back a' (List.mem_cons_of_mem a listed)]
      simp

theorem readsBack_list {item : Decoder α} {written : α → List Char} {items : List α}
    (back : ∀ a ∈ items, ReadsBack item (written a) a) :
    ReadsBack item.list (writeList (items.map written)) items := by
  refine ⟨⟨'[', _, rfl, rfl, by decide⟩, fun r _ => ?_⟩
  have opened := dropSpace_of_visible (c := '[') rfl (led true (items.map written) ++ ']' :: r)
  have items_read := readItems_led back [] true r
  simp only [Decoder.list, writeList, commas_eq_led, List.cons_append, List.append_assoc,
    List.nil_append, opened, readToken, items_read, List.reverse_nil]

/-! ## Records -/

def memberTexts (members : List (String × List Char)) : List (List Char) :=
  members.map fun (name, value) => writeMember name value

theorem writeObject_eq (members : List (String × List Char)) :
    writeObject members = '{' :: (led true (memberTexts members) ++ ['}']) := by
  rw [← commas_eq_led]
  rfl

/-- Written members that fill a draft in turn until it makes up a record. -/
inductive Fills (schema : Schema δ α) : δ → List (String × List Char) → α → Prop
  | complete {draft : δ} {a : α} (made : schema.complete draft = some a) : Fills schema draft [] a
  | member {draft : δ} {name : String} {field : Field δ} {written : List Char} {set : δ → δ}
      {members : List (String × List Char)} {a : α}
      (named : schema.fields.find? (·.name == name) = some field)
      (unset : field.isSet draft = false) (back : ReadsBack field.reader written set)
      (rest : Fills schema (set draft) members a) :
      Fills schema draft ((name, written) :: members) a

theorem nextKey_lead (first : Bool) (name : String) (r : List Char) :
    nextKey first (lead first ++ (writeString name ++ r)) = .ok (some name.toList, r) := by
  have literal := readLiteral_written [] name.toList r
  have comma := dropSpace_of_visible (c := ',') rfl (writeString name ++ r)
  have quote := dropSpace_of_visible (c := '"') rfl (name.toList.flatMap writeChar ++ '"' :: r)
  simp only [writeString, writeLiteral, List.append_assoc, List.cons_append, List.nil_append]
    at comma ⊢
  cases first with
  | true => simp [nextKey, nextKey.readKey, lead, quote, literal, Except.map]
  | false => simp [nextKey, nextKey.readKey, lead, comma, quote, literal, Except.map]

theorem readMember_written {schema : Schema δ α} {draft : δ} {name : String} {field : Field δ}
    {written : List Char} {set : δ → δ}
    (named : schema.fields.find? (·.name == name) = some field)
    (unset : field.isSet draft = false) (back : ReadsBack field.reader written set)
    {r : List Char} (ends : EndsNumeral r) :
    schema.readMember draft name.toList (':' :: (written ++ r)) = .ok (set draft, r) := by
  have colon : readColon (':' :: (written ++ r)) = .ok (written ++ r) := rfl
  simp [Schema.readMember, named, unset, colon, back.reads r ends, Except.map]

theorem readMembers_stop {schema : Schema δ α} {draft : δ} {first : Bool} {s r : List Char}
    (next : nextKey first s = .ok (none, r)) :
    schema.readMembers draft first s = (schema.endObject draft).map (·, r) := by
  rw [Schema.readMembers]
  split <;> simp_all

theorem readMembers_step {schema : Schema δ α} {draft draft' : δ} {first : Bool}
    {key s r r' : List Char} (next : nextKey first s = .ok (some key, r))
    (member : schema.readMember draft key r = .ok (draft', r')) :
    schema.readMembers draft first s = schema.readMembers draft' false r' := by
  rw [Schema.readMembers]
  split
  next failed => simp [next] at failed
  next stopped => simp [next] at stopped
  next same =>
    obtain ⟨rfl, rfl⟩ : key = _ ∧ r = _ := by simpa [next] using same
    split <;> simp_all

theorem readMembers_failed {schema : Schema δ α} {draft : δ} {first : Bool} {key s r : List Char}
    {cause : Error} (next : nextKey first s = .ok (some key, r))
    (failed : schema.readMember draft key r = .error cause) :
    schema.readMembers draft first s = .error cause := by
  rw [Schema.readMembers]
  split
  next same => simp [next] at same
  next same => simp [next] at same
  next same =>
    obtain ⟨rfl, rfl⟩ : key = _ ∧ r = _ := by simpa [next] using same
    split <;> simp_all

theorem Fills.readMembers {schema : Schema δ α} {draft : δ} {members : List (String × List Char)}
    {a : α} (fills : Fills schema draft members a) (first : Bool) (r : List Char) :
    schema.readMembers draft first (led first (memberTexts members) ++ '}' :: r) = .ok (a, r) := by
  induction fills generalizing first with
  | complete made =>
      rw [memberTexts, List.map_nil, led, List.nil_append, readMembers_stop (r := r) rfl]
      simp [Schema.endObject, made, Except.map]
  | @member draft name field written set members a named unset back _ ih =>
      have ends : EndsNumeral (led false (memberTexts members) ++ '}' :: r) :=
        endsNumeral_led _ r (.inr rfl)
      have member_read := readMember_written named unset back ends
      have next := nextKey_lead first name
        (':' :: (written ++ (led false (memberTexts members) ++ '}' :: r)))
      have split_off : memberTexts ((name, written) :: members) =
          writeMember name written :: memberTexts members := rfl
      simp only [split_off, led, writeMember, List.append_assoc, List.cons_append] at next ⊢
      rw [readMembers_step next member_read]
      exact ih false

theorem readsBack_record {schema : Schema δ α} {members : List (String × List Char)} {a : α}
    (fills : Fills schema schema.blank members a) :
    ReadsBack schema.decoder (writeObject members) a := by
  refine ⟨⟨'{', _, rfl, rfl, by decide⟩, fun r _ => ?_⟩
  have opened := dropSpace_of_visible (c := '{') rfl (led true (memberTexts members) ++ '}' :: r)
  have members_read := fills.readMembers true r
  simp only [Schema.decoder, writeObject_eq, List.cons_append, List.append_assoc, List.nil_append,
    opened, readToken, members_read]

/-! ## Maps -/

/-- A map is built again from its entries. -/
theorem insertMany_toList (m : Std.ExtTreeMap String α) :
    (∅ : Std.ExtTreeMap String α).insertMany m.toList = m := by
  refine Std.ExtTreeMap.ext_getElem? fun key => ?_
  have distinct := Std.ExtTreeMap.distinct_keys_toList (t := m)
  cases entry : m[key]? with
  | some a =>
      have listed := Std.ExtTreeMap.mem_toList_iff_getElem?_eq_some.mpr entry
      exact Std.ExtTreeMap.getElem?_insertMany_list_of_mem Std.ReflCmp.compare_self distinct listed
  | none =>
      have missing : (m.toList.map Prod.fst).contains key = false := by
        rw [Bool.eq_false_iff, ne_eq, List.contains_iff_mem]
        intro named
        obtain ⟨⟨key', a⟩, listed, rfl⟩ := List.mem_map.mp named
        have held := Std.ExtTreeMap.mem_toList_iff_getElem?_eq_some.mp listed
        cases entry.symm.trans held
      rw [Std.ExtTreeMap.getElem?_insertMany_list_of_contains_eq_false missing,
        Std.ExtTreeMap.getElem?_empty]

theorem readEntries_stop {value : Decoder α} {read : Std.ExtTreeMap String α} {first : Bool}
    {s r : List Char} (next : nextKey first s = .ok (none, r)) :
    value.readEntries read first s = .ok (read, r) := by
  rw [Decoder.readEntries]
  split <;> simp_all

theorem readEntries_step {value : Decoder α} {read : Std.ExtTreeMap String α} {first : Bool}
    {key s r r' r'' : List Char} {a : α} (next : nextKey first s = .ok (some key, r))
    (colon : readColon r = .ok r') (run : value.run r' = .ok (a, r'')) :
    value.readEntries read first s =
      value.readEntries (read.insert (String.ofList key) a) false r'' := by
  rw [Decoder.readEntries]
  split
  next failed => simp [next] at failed
  next stopped => simp [next] at stopped
  next same =>
    obtain ⟨rfl, rfl⟩ : key = _ ∧ r = _ := by simpa [next] using same
    split
    next failed => simp [colon] at failed
    next same =>
      obtain rfl : r' = _ := by simpa [colon] using same
      split <;> simp_all

theorem readEntries_led {value : Decoder α} {written : α → List Char}
    (back : ∀ a, ReadsBack value (written a) a) (entries : List (String × α))
    (read : Std.ExtTreeMap String α) (first : Bool) (r : List Char) :
    value.readEntries read first
        (led first (memberTexts (entries.map fun (key, a) => (key, written a))) ++ '}' :: r) =
      .ok (read.insertMany entries, r) := by
  induction entries generalizing read first with
  | nil => exact readEntries_stop rfl
  | cons entry entries ih =>
      obtain ⟨key, a⟩ := entry
      let rest := memberTexts (entries.map fun (key, a) => (key, written a))
      have run := (back a).reads _ (endsNumeral_led rest r (.inr rfl))
      have next := nextKey_lead first key (':' :: (written a ++ (led false rest ++ '}' :: r)))
      have split_off : memberTexts (((key, a) :: entries).map fun (key, a) => (key, written a)) =
          writeMember key (written a) :: rest := rfl
      simp only [split_off, led, writeMember, List.append_assoc, List.cons_append] at next ⊢
      rw [readEntries_step next rfl run, ih, String.ofList_toList, Std.ExtTreeMap.insertMany_cons]

theorem readsBack_stringMap {value : Decoder α} {written : α → List Char}
    (back : ∀ a, ReadsBack value (written a) a) (m : Std.ExtTreeMap String α) :
    ReadsBack value.stringMap (writeObject (m.toList.map fun (key, a) => (key, written a))) m := by
  refine ⟨⟨'{', _, rfl, rfl, by decide⟩, fun r _ => ?_⟩
  let texts := memberTexts (m.toList.map fun (key, a) => (key, written a))
  have opened := dropSpace_of_visible (c := '{') rfl (led true texts ++ '}' :: r)
  have entries_read := readEntries_led back m.toList ∅ true r
  simp only [Decoder.stringMap, writeObject_eq, List.cons_append, List.append_assoc,
    List.nil_append, texts, opened, readToken, entries_read, insertMany_toList] at opened ⊢

end Provenance.Json
