import Provenance.Proofs.Json.Objects

/-! # Spelled values

The ways in which a string, a variant or a map of strings can be written. Their decoders answer to
each of them with the value that it spells, and to a list of objects with the first error or with
all records.
-/

namespace Provenance.Json

variable {α : Type} {s r w : List Char}

/-! ## Spelled values -/

/-- A string literal, with escapes wherever they can be. -/
def SpellsString (w : List Char) (s : String) : Prop :=
  ∃ body, Unescapes body s.toList ∧ w = '"' :: (body ++ ['"'])

/-- A variant by its name, or as an object with the name for its only key and null for its value. -/
def SpellsVariant (known : List (String × α)) (w : List Char) (a : α) : Prop :=
  ∃ name, known.lookup name = some a ∧ (SpellsString w name ∨
    ∃ m : Member, m.Valid ∧ m.name = name ∧ m.value = ['n', 'u', 'l', 'l'] ∧ w = braced [] [m])

/-- An object with strings for its values. Of several entries under one key the last is kept. -/
def SpellsMap (w : List Char) (map : Std.ExtTreeMap String String) : Prop :=
  ∃ (space : List Char) (entries : List (Member × String)), Blank space ∧
    (∀ entry ∈ entries, entry.1.Valid ∧ SpellsString entry.1.value entry.2) ∧
    w = braced space (entries.map Prod.fst) ∧
    map = (∅ : Std.ExtTreeMap String String).insertMany
      (entries.map fun entry => (entry.1.name, entry.2))

theorem answers_string {s : String} (spells : SpellsString w s) : Answers .string w (.ok s) := by
  obtain ⟨body, unescapes, rfl⟩ := spells
  intro before r blank _
  have read := unescapes.read [] r
  have quote := dropSpace_append_cons blank (c := '"') rfl (body ++ '"' :: r)
  simp only [List.cons_append, List.append_assoc, List.nil_append, Decoder.string, Decoder.ofToken,
    quote, readToken, read, List.reverse_nil, Except.map, String.ofList_toList]

theorem answers_uint32 {n : UInt32} (spells : w = writeNat n.toNat) :
    Answers .uint32 w (.ok n) :=
  spells ▸ (readsBack_uint32 n).answers (ignoresBlanks_token _)

theorem answers_bool {b : Bool} (spells : w = writeBool b) : Answers .boolean w (.ok b) :=
  spells ▸ (readsBack_bool b).answers (ignoresBlanks_token _)

theorem readName_member {m : Member} (valid : m.Valid) (r : List Char) :
    readName (m.before ++ '"' :: (m.key ++ '"' :: r)) = .ok (m.name.toList, r) := by
  have quote := dropSpace_append_cons valid.before (c := '"') rfl (m.key ++ '"' :: r)
  simp only [readName, quote, valid.key.read, List.reverse_nil, List.nil_append]

theorem readNullValue_member {m : Member} (valid : m.Valid) (null : m.value = ['n', 'u', 'l', 'l'])
    (r : List Char) : readNullValue (m.behindKey ('}' :: r)) = .ok r := by
  have visible := dropSpace_append_cons valid.beforeValue (c := 'n') rfl
    ('u' :: 'l' :: 'l' :: (m.after ++ '}' :: r))
  have closing := dropSpace_append_cons valid.after (c := '}') rfl r
  simp only [Member.behindKey, null, readNullValue, readColon_of_blank valid.afterKey, Decoder.unit,
    Decoder.ofToken, List.cons_append, List.nil_append, visible, readToken, readWord, if_true,
    Except.map, readClosing, closing]

theorem answers_variant {known : List (String × α)} {a : α} (spells : SpellsVariant known w a) :
    Answers (.variant known) w (.ok a) := by
  obtain ⟨name, listed, ⟨body, unescapes, rfl⟩ | ⟨m, valid, rfl, null, rfl⟩⟩ := spells
  · intro before r blank _
    have read := unescapes.read [] r
    have quote := dropSpace_append_cons blank (c := '"') rfl (body ++ '"' :: r)
    simp only [List.cons_append, List.append_assoc, List.nil_append, Decoder.variant, quote, read,
      List.reverse_nil, Decoder.choose, String.ofList_toList, listed, Except.map]
  · intro before r blank _
    have opened : dropSpace (before ++ (braced [] [m] ++ r)) = '{' :: (m.text ++ '}' :: r) := by
      rw [braced_append]
      simp only [led, lead, List.map_cons, List.map_nil, List.nil_append, List.append_nil]
      exact dropSpace_append_cons blank rfl _
    have named := readName_member valid (m.behindKey ('}' :: r))
    have nothing := readNullValue_member valid null r
    rw [m.text_append] at opened
    simp only [Decoder.variant, opened, named, Decoder.choose, String.ofList_toList, listed,
      nothing, Except.map]

/-- The entries of a map are put one by one into those read before. -/
theorem readEntries_members {entries : List (Member × String)}
    (spelled : ∀ entry ∈ entries, entry.1.Valid ∧ SpellsString entry.1.value entry.2)
    (read : Std.ExtTreeMap String String) (first : Bool) (blank : Blank s) (r : List Char) :
    Decoder.string.readEntries read first
        (s ++ (led first ((entries.map Prod.fst).map Member.text) ++ '}' :: r)) =
      .ok (read.insertMany (entries.map fun entry => (entry.1.name, entry.2)), r) := by
  induction entries generalizing read first s with
  | nil =>
      exact readEntries_stop (nextKey_closing first blank r)
  | cons entry entries ih =>
      obtain ⟨valid, spells⟩ := spelled entry List.mem_cons_self
      have next := nextKey_members first valid blank (entries.map Prod.fst) r
      have run := answers_string spells entry.1.beforeValue _ valid.beforeValue
        (valid.ends ((entries.map Prod.fst).map Member.text) (.inr rfl) r)
      have later := ih (fun entry' listed => spelled entry' (List.mem_cons_of_mem entry listed))
        (read.insert entry.1.name entry.2) false valid.after
      rw [List.map_cons, readEntries_step next (readColon_of_blank valid.afterKey _) run,
        String.ofList_toList, later, List.map_cons, Std.ExtTreeMap.insertMany_cons]

theorem answers_map {map : Std.ExtTreeMap String String} (spells : SpellsMap w map) :
    Answers (.stringMap .string) w (.ok map) := by
  obtain ⟨space, entries, blank, spelled, rfl, rfl⟩ := spells
  intro before r blank' _
  have entries_read := readEntries_members spelled ∅ true blank r
  have opened := dropSpace_append_cons blank' (c := '{') rfl
    (space ++ (led true ((entries.map Prod.fst).map Member.text) ++ '}' :: r))
  simp only [braced_append, Decoder.stringMap, opened, readToken, entries_read, Except.map]

/-! ## Lists of objects -/

/-- The text of an object with blanks around it and behind its opening bracket. -/
structure ObjectText where
  before : List Char := []
  space : List Char := []
  members : List Member
  after : List Char := []

namespace ObjectText

def core (o : ObjectText) : List Char := braced o.space o.members

def text (o : ObjectText) : List Char := o.before ++ (o.core ++ o.after)

structure Valid (o : ObjectText) : Prop where
  before : Blank o.before
  space : Blank o.space
  members : ∀ m ∈ o.members, m.Valid
  after : Blank o.after

theorem Valid.decode {o : ObjectText} (valid : o.Valid) {d : Decoder α} {answer : Except Error α}
    (answers : Answers d o.core answer) : d.decode (String.ofList o.text) = answer :=
  answers.decode valid.before valid.after

end ObjectText

theorem nextItem_object (first : Bool) {o : ObjectText} (valid : o.Valid) (blank : Blank s)
    (r : List Char) :
    nextItem first (s ++ (lead first ++ (o.text ++ r))) = .ok (true, o.core ++ (o.after ++ r)) := by
  have core : o.core ++ (o.after ++ r) = '{' :: (o.space ++
      (led true (o.members.map Member.text) ++ '}' :: (o.after ++ r))) := braced_append _ _ _
  have opened : dropSpace (o.text ++ r) = o.core ++ (o.after ++ r) := by
    rw [ObjectText.text, List.append_assoc, List.append_assoc, dropSpace_append valid.before, core]
    rfl
  cases first with
  | true =>
      rw [nextItem, dropSpace_append blank]
      simp [lead, opened, core]
  | false =>
      have comma := dropSpace_append_cons blank (c := ',') rfl (o.text ++ r)
      simp [nextItem, lead, comma, opened, core]

/-- Items are read one after the other as long as there is an answer to each. -/
theorem readItems_objects {item : Decoder α} {objects : List ObjectText}
    {answers : List (Except Error α)}
    (each : List.Forall₂ (fun o answer => o.Valid ∧ Answers item o.core answer) objects answers)
    (read : List α) (first : Bool) (blank : Blank s) (r : List Char) :
    item.readItems read first (s ++ (led first (objects.map ObjectText.text) ++ ']' :: r)) =
      (answers.mapM id).map fun items => (read.reverse ++ items, r) := by
  induction each generalizing read first s with
  | nil =>
      have stop : nextItem first (s ++ ']' :: r) = .ok (false, r) := by
        rw [nextItem, dropSpace_append_cons blank rfl]
        exact if_pos rfl
      rw [List.mapM_nil]
      exact (readItems_stop stop).trans (by simp [Except.map, pure, Except.pure])
  | @cons o answer objects answers here _ ih =>
      obtain ⟨valid, answered⟩ := here
      have next := nextItem_object first valid blank
        (led false (objects.map ObjectText.text) ++ ']' :: r)
      have run := answered [] _ blank_nil (endsNumeral_of_blank valid.after
        (endsNumeral_led (objects.map ObjectText.text) r (.inl rfl)))
      rw [List.nil_append] at run
      rw [List.map_cons, led, List.append_assoc, List.append_assoc, List.mapM_cons]
      cases answer with
      | error cause => exact readItems_failed next run
      | ok a =>
          rw [readItems_step next run, ih (a :: read) false valid.after]
          cases answers.mapM id <;> simp [bind, Except.bind, Except.map, pure, Except.pure]

/-- The text of a list of objects, with blanks behind its opening bracket. -/
def bracketed (space : List Char) (objects : List ObjectText) : List Char :=
  '[' :: (space ++ (commas (objects.map ObjectText.text) ++ [']']))

theorem answers_list {item : Decoder α} {objects : List ObjectText}
    {answers : List (Except Error α)} {space : List Char} (blank : Blank space)
    (each : List.Forall₂ (fun o answer => o.Valid ∧ Answers item o.core answer) objects answers) :
    Answers item.list (bracketed space objects) (answers.mapM id) := by
  intro s r blank' _
  have items := readItems_objects each [] true blank r
  have opened := dropSpace_append_cons blank' (c := '[') rfl
    (space ++ (led true (objects.map ObjectText.text) ++ ']' :: r))
  simp only [bracketed, commas_eq_led, List.cons_append, List.append_assoc, List.nil_append,
    Decoder.list, opened, readToken, items, List.reverse_nil]

end Provenance.Json
