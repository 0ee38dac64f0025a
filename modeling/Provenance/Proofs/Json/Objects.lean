import Mathlib
import Provenance.Proofs.Json.Grammar

/-! # Objects and their members

A record is read from the members of an object in whatever order they come and with whatever blanks
between them. Its draft tells what the known keys say; other members are passed over.
-/

namespace Provenance.Json

variable {α β δ : Type} {s r w : List Char}

/-! ## Answers -/

/-- What a decoder answers when it reads a text, whatever blanks are in front of it and whatever
comes behind it. -/
def Answers (d : Decoder α) (w : List Char) (answer : Except Error α) : Prop :=
  ∀ s r, Blank s → EndsNumeral r → d.run (s ++ (w ++ r)) = answer.map (·, r)

namespace Answers

variable {d : Decoder α} {answer : Except Error α} {a b : α}

theorem map (answers : Answers d w answer) (f : α → β) : Answers (d.map f) w (answer.map f) := by
  intro s r blank ends
  rw [Decoder.map]
  dsimp only
  rw [answers s r blank ends]
  cases answer <;> rfl

theorem unique (answers : Answers d w (.ok a)) (answers' : Answers d w (.ok b)) : a = b := by
  have first := answers [] [] blank_nil endsNumeral_nil
  have second := answers' [] [] blank_nil endsNumeral_nil
  have same := Except.ok.inj (first.symm.trans second)
  exact (Prod.mk.inj same).1

theorem decode (answers : Answers d w answer) (blank : Blank s) (blank' : Blank r) :
    d.decode (String.ofList (s ++ (w ++ r))) = answer := by
  have ends : EndsNumeral r := by
    rw [← List.append_nil r]
    exact endsNumeral_of_blank blank' endsNumeral_nil
  rw [Decoder.decode, String.toList_ofList, answers s r blank ends]
  cases answer with
  | error cause => rfl
  | ok a =>
      dsimp only [Except.map]
      rw [if_pos (dropSpace_of_blank blank')]

end Answers

/-- A decoder for which blanks in front of a value make no difference. -/
def IgnoresBlanks (d : Decoder α) : Prop := ∀ s r, Blank s → d.run (s ++ r) = d.run r

theorem ignoresBlanks_token (accept : Token → Except Mismatch α) :
    IgnoresBlanks (.ofToken accept) := by
  intro s r blank
  simp only [Decoder.ofToken, dropSpace_append blank]

theorem IgnoresBlanks.map {d : Decoder α} (ignores : IgnoresBlanks d) (f : α → β) :
    IgnoresBlanks (d.map f) := by
  intro s r blank
  simp only [Decoder.map, ignores s r blank]

theorem ReadsBack.answers {d : Decoder α} {a : α} (back : ReadsBack d w a)
    (ignores : IgnoresBlanks d) : Answers d w (.ok a) := by
  intro s r blank ends
  rw [ignores s _ blank, back.reads r ends]
  rfl

/-! ## Members -/

/-- A key with its value, and the blanks around them. The key is told as it is written and by the
name that it stands for. -/
structure Member where
  before : List Char := []
  key : List Char
  name : String
  afterKey : List Char := []
  beforeValue : List Char := []
  value : List Char
  after : List Char := []

namespace Member

/-- What comes behind the key of a member, and behind the member. -/
def behindKey (m : Member) (r : List Char) : List Char :=
  m.afterKey ++ ':' :: (m.beforeValue ++ (m.value ++ (m.after ++ r)))

def text (m : Member) : List Char := m.before ++ '"' :: (m.key ++ '"' :: m.behindKey [])

theorem text_append (m : Member) (r : List Char) :
    m.text ++ r = m.before ++ '"' :: (m.key ++ '"' :: m.behindKey r) := by
  simp only [text, behindKey, List.append_assoc, List.cons_append, List.append_nil]

structure Valid (m : Member) : Prop where
  before : Blank m.before
  key : Unescapes m.key m.name.toList
  afterKey : Blank m.afterKey
  beforeValue : Blank m.beforeValue
  value : Forms .value m.value
  after : Blank m.after

end Member

/-- The text of an object, with blanks behind its opening bracket. -/
def braced (space : List Char) (members : List Member) : List Char :=
  '{' :: (space ++ (commas (members.map Member.text) ++ ['}']))

theorem nextKey_blank (first : Bool) (blank : Blank s) (r : List Char) :
    nextKey first (s ++ r) = nextKey first r := by
  rw [nextKey, nextKey, dropSpace_append blank]

theorem nextKey_closing (first : Bool) (blank : Blank s) (r : List Char) :
    nextKey first (s ++ '}' :: r) = .ok (none, r) := by
  rw [nextKey_blank first blank]
  rfl

theorem readKey_member {m : Member} (valid : m.Valid) (r : List Char) :
    nextKey.readKey ('"' :: (m.key ++ '"' :: r)) = .ok (some m.name.toList, r) := by
  rw [nextKey.readKey, valid.key.read]
  rfl

/-- The key of the next member, and what is left behind it. -/
theorem nextKey_member (first : Bool) {m : Member} (valid : m.Valid) (r : List Char) :
    nextKey first (lead first ++ (m.text ++ r)) = .ok (some m.name.toList, m.behindKey r) := by
  have key := readKey_member valid (m.behindKey r)
  have start := dropSpace_append_cons valid.before (c := '"') rfl (m.key ++ '"' :: m.behindKey r)
  rw [m.text_append]
  cases first with
  | true => simp [nextKey, lead, start, key]
  | false =>
      have comma := dropSpace_of_visible (c := ',') rfl
        (m.before ++ '"' :: (m.key ++ '"' :: m.behindKey r))
      simp [nextKey, lead, comma, start, key]

theorem nextKey_members (first : Bool) {m : Member} (valid : m.Valid) (blank : Blank s)
    (members : List Member) (r : List Char) :
    nextKey first (s ++ (led first ((m :: members).map Member.text) ++ '}' :: r)) =
      .ok (some m.name.toList,
        m.behindKey (led false (members.map Member.text) ++ '}' :: r)) := by
  rw [nextKey_blank first blank, List.map_cons, led, List.append_assoc, List.append_assoc]
  exact nextKey_member first valid _

/-- Behind a value come blanks, a comma or the closing bracket. -/
theorem Member.Valid.ends {m : Member} (valid : m.Valid) (values : List (List Char)) {close : Char}
    (bracket : close = ']' ∨ close = '}') (r : List Char) :
    EndsNumeral (m.after ++ (led false values ++ close :: r)) :=
  endsNumeral_of_blank valid.after (endsNumeral_led values r bracket)

/-! ## What members tell -/

/-- What the first member under a name tells: a value that its text spells, or nothing if there is
no such member. -/
inductive Tells (members : List Member) (name : String) (Spells : List Char → β → Prop) :
    Option β → Prop
  | absent (unnamed : members.find? (·.name == name) = none) : Tells members name Spells none
  | present {m : Member} {b : β} (first : members.find? (·.name == name) = some m)
      (spells : Spells m.value b) : Tells members name Spells (some b)

namespace Tells

variable {members : List Member} {name : String} {Spells : List Char → β → Prop} {told : Option β}
  {m : Member}

theorem isSome_iff (tells : Tells members name Spells told) :
    told.isSome = true ↔ ∃ m ∈ members, m.name = name := by
  cases tells with
  | absent unnamed => simpa using unnamed
  | present first =>
      exact iff_of_true rfl
        ⟨_, List.mem_of_find?_eq_some first, by simpa using List.find?_some first⟩

theorem unique (tells : Tells members name Spells told) {told' : Option β}
    (tells' : Tells members name Spells told')
    (functional : ∀ w a b, Spells w a → Spells w b → a = b) : told = told' := by
  cases tells with
  | absent unnamed =>
      cases tells' with
      | absent => rfl
      | present first => cases unnamed.symm.trans first
  | present first spells =>
      cases tells' with
      | absent unnamed => cases unnamed.symm.trans first
      | present first' spells' =>
          obtain rfl := Option.some.inj (first.symm.trans first')
          rw [functional _ _ _ spells spells']

/-- A member that comes later does not change what was told before. -/
theorem concat_of_ne (tells : Tells members name Spells told) (other : m.name ≠ name) :
    Tells (members ++ [m]) name Spells told := by
  cases tells with
  | absent unnamed => exact .absent (by simp [List.find?_append, unnamed, other])
  | present first spells => exact .present (by simp [List.find?_append, first]) spells

theorem concat (tells : Tells members name Spells none) {b : β} (named : m.name = name)
    (spells : Spells m.value b) : Tells (members ++ [m]) name Spells (some b) := by
  cases tells with
  | absent unnamed => exact .present (by simp [List.find?_append, unnamed, named]) spells

end Tells

/-! ## Cells -/

/-- A field of a draft with the values that can be put into it, and how they are spelled. -/
structure Cell (δ : Type) where
  Value : Type
  name : String
  get : δ → Option Value
  put : Value → δ → δ
  reader : Decoder Value
  Spells : List Char → Value → Prop
  get_put : ∀ a d, get (put a d) = some a
  answers : ∀ w a, Spells w a → Answers reader w (.ok a)

def Cell.field (cell : Cell δ) : Field δ :=
  ⟨cell.name, fun draft => (cell.get draft).isSome, cell.reader.map cell.put⟩

/-- Two cells of different names that do not touch each other. -/
def Cell.Apart (cell cell' : Cell δ) : Prop :=
  cell.name ≠ cell'.name ∧ (∀ a d, cell.get (cell'.put a d) = cell.get d) ∧
    ∀ a d, cell'.get (cell.put a d) = cell'.get d

instance : Std.Symm (Cell.Apart : Cell δ → Cell δ → Prop) where
  symm _ _ apart := ⟨apart.1.symm, apart.2.2, apart.2.1⟩

/-- The fields of a schema are cells that make up its drafts. -/
structure Schema.MadeOf (schema : Schema δ α) (cells : List (Cell δ)) : Prop where
  fields : schema.fields = cells.map Cell.field
  blank : ∀ cell ∈ cells, cell.get schema.blank = none
  apart : cells.Pairwise Cell.Apart
  ext : ∀ d d', (∀ cell ∈ cells, cell.get d = cell.get d') → d = d'

/-- The draft holds what the members tell. -/
def Told (cells : List (Cell δ)) (members : List Member) (draft : δ) : Prop :=
  ∀ cell ∈ cells, Tells members cell.name cell.Spells (cell.get draft)

/-- How often a name is a key. -/
def occurrences (members : List Member) (name : String) : Nat :=
  (members.map Member.name).count name

/-- The draft holds what the members tell, and none of them repeats a known key. -/
structure Reports (cells : List (Cell δ)) (members : List Member) (draft : δ) : Prop where
  told : Told cells members draft
  once : ∀ cell ∈ cells, occurrences members cell.name ≤ 1

theorem occurrences_append (members members' : List Member) (name : String) :
    occurrences (members ++ members') name =
      occurrences members name + occurrences members' name := by
  simp only [occurrences, List.map_append, List.count_append]

theorem occurrences_singleton (m : Member) (name : String) :
    occurrences [m] name = if m.name = name then 1 else 0 := by
  simp only [occurrences, List.map_cons, List.map_nil, List.count_singleton, beq_iff_eq]

theorem occurrences_pos_iff {members : List Member} {name : String} :
    0 < occurrences members name ↔ ∃ m ∈ members, m.name = name := by
  rw [occurrences, List.count_pos_iff, List.mem_map]

section MadeOf

variable {schema : Schema δ α} {cells : List (Cell δ)} {draft draft' : δ}
  {done members : List Member} {m : Member} {cell cell' : Cell δ}

namespace Schema.MadeOf

theorem eq_of_name (made : schema.MadeOf cells) (listed : cell ∈ cells) (listed' : cell' ∈ cells)
    (named : cell.name = cell'.name) : cell = cell' := by
  by_contra other
  exact (made.apart.forall listed listed' other).1 named

theorem get_put_of_ne (made : schema.MadeOf cells) (listed : cell ∈ cells)
    (listed' : cell' ∈ cells) (other : cell.name ≠ cell'.name) (a : cell'.Value) (d : δ) :
    cell.get (cell'.put a d) = cell.get d := by
  have different : cell ≠ cell' := fun same => other (same ▸ rfl)
  exact (made.apart.forall listed listed' different).2.1 a d

theorem unique (made : schema.MadeOf cells) (told : Told cells members draft)
    (told' : Told cells members draft') : draft = draft' :=
  made.ext _ _ fun cell listed => (told cell listed).unique (told' cell listed)
    fun w a b spells spells' => (cell.answers w a spells).unique (cell.answers w b spells')

theorem reports_blank (made : schema.MadeOf cells) : Reports cells [] schema.blank where
  told cell listed := made.blank cell listed ▸ .absent rfl
  once _ _ := Nat.zero_le 1

theorem find?_fields (made : schema.MadeOf cells) (name : String) :
    schema.fields.find? (·.name == name) =
      (cells.find? (·.name == name)).map Cell.field := by
  rw [made.fields, List.find?_map]
  rfl

/-! ## Reading members -/

/-- A member under an unknown name is passed over. -/
theorem readMember_unknown (made : schema.MadeOf cells) (valid : m.Valid)
    (unknown : cells.find? (·.name == m.name) = none) (ends : EndsNumeral (m.after ++ r)) :
    schema.readMember draft m.name.toList (m.behindKey r) = .ok (draft, m.after ++ r) := by
  have skipped := valid.value.skipValue valid.beforeValue ends
  simp only [Schema.readMember, String.ofList_toList, made.find?_fields, unknown, Option.map_none,
    Member.behindKey, readColon_of_blank valid.afterKey, skipped, Except.map]

/-- A member under a known name is put into the draft if nothing is there yet. -/
theorem readMember_known (made : schema.MadeOf cells) (valid : m.Valid)
    (known : cells.find? (·.name == m.name) = some cell) (unset : cell.get draft = none)
    {a : cell.Value} (spells : cell.Spells m.value a) (ends : EndsNumeral (m.after ++ r)) :
    schema.readMember draft m.name.toList (m.behindKey r) =
      .ok (cell.put a draft, m.after ++ r) := by
  have read := (cell.answers _ _ spells).map cell.put _ _ valid.beforeValue ends
  simp only [Schema.readMember, String.ofList_toList, made.find?_fields, known, Option.map_some,
    Cell.field, unset, Option.isSome_none, Bool.false_eq_true, if_false, Member.behindKey,
    readColon_of_blank valid.afterKey, read, Except.map]

theorem readMember_again (made : schema.MadeOf cells)
    (known : cells.find? (·.name == m.name) = some cell) (set : (cell.get draft).isSome = true)
    (s : List Char) :
    schema.readMember draft m.name.toList s =
      .error (.mismatch (.duplicateField cell.name)) := by
  simp only [Schema.readMember, String.ofList_toList, made.find?_fields, known, Option.map_some,
    Cell.field, set, if_true]

end Schema.MadeOf

namespace Reports

theorem unnamed (reports : Reports cells done draft) (listed : cell ∈ cells)
    (unset : cell.get draft = none) : ∀ m ∈ done, m.name ≠ cell.name := by
  have tells := (reports.told cell listed).isSome_iff
  rw [unset] at tells
  exact fun m listed' named => nomatch tells.mpr ⟨m, listed', named⟩

theorem unknown (reports : Reports cells done draft)
    (unknown : cells.find? (·.name == m.name) = none) : Reports cells (done ++ [m]) draft := by
  have other : ∀ cell ∈ cells, m.name ≠ cell.name := fun cell listed same =>
    List.find?_eq_none.mp unknown cell listed (by simp [same])
  refine ⟨fun cell listed => ?_, fun cell listed => ?_⟩
  · exact (reports.told cell listed).concat_of_ne (other cell listed)
  · rw [occurrences_append, occurrences_singleton, if_neg (other cell listed)]
    exact reports.once cell listed

theorem known (made : schema.MadeOf cells) (reports : Reports cells done draft)
    (listed : cell ∈ cells) (named : cell.name = m.name) (unset : cell.get draft = none)
    {a : cell.Value} (spells : cell.Spells m.value a) :
    Reports cells (done ++ [m]) (cell.put a draft) := by
  refine ⟨fun cell' listed' => ?_, fun cell' listed' => ?_⟩ <;>
    by_cases same : cell'.name = cell.name
  · obtain rfl := made.eq_of_name listed' listed same
    have tells := reports.told cell' listed'
    rw [unset] at tells
    rw [cell'.get_put]
    exact tells.concat named.symm spells
  · rw [made.get_put_of_ne listed' listed same]
    exact (reports.told cell' listed').concat_of_ne fun named' =>
      same (named'.symm.trans named.symm)
  · have none_yet : occurrences done cell'.name = 0 := by
      refine Nat.eq_zero_of_not_pos fun some_yet => ?_
      obtain ⟨m', listed', named'⟩ := occurrences_pos_iff.mp some_yet
      exact reports.unnamed listed unset m' listed' (named'.trans same)
    rw [occurrences_append, occurrences_singleton, none_yet]
    split <;> omega
  · rw [occurrences_append, occurrences_singleton, if_neg fun named' =>
      same (named'.symm.trans named.symm)]
    exact reports.once cell' listed'

end Reports

/-- How the reading of members ends: with the record of a draft that reports them, or with the
complaint that a known key comes up again. -/
inductive Outcome (schema : Schema δ α) (cells : List (Cell δ)) (members : List Member) :
    Except Error α → Prop
  | record {draft : δ} (reports : Reports cells members draft) :
      Outcome schema cells members (schema.endObject draft)
  | repeated {cell : Cell δ} (listed : cell ∈ cells) (again : 2 ≤ occurrences members cell.name) :
      Outcome schema cells members (.error (.mismatch (.duplicateField cell.name)))

theorem Outcome.again (reports : Reports cells done draft) (listed : cell ∈ cells)
    (named : cell.name = m.name) (set : (cell.get draft).isSome = true) (members : List Member) :
    Outcome schema cells ((done ++ [m]) ++ members)
      (.error (.mismatch (.duplicateField cell.name))) := by
  refine .repeated listed ?_
  have before := occurrences_pos_iff.mpr ((reports.told cell listed).isSome_iff.mp set)
  rw [occurrences_append, occurrences_append, occurrences_singleton, if_pos named.symm]
  omega

/-- Members are read behind those that the draft reports. The first one under a known name has to
spell a value. -/
theorem Schema.MadeOf.readMembers (made : schema.MadeOf cells)
    (valid : ∀ m ∈ members, m.Valid) (reports : Reports cells done draft)
    (spelled : ∀ cell ∈ cells, ∀ m, (done ++ members).find? (·.name == cell.name) = some m →
      ∃ a, cell.Spells m.value a) (first : Bool) (blank : Blank s) :
    ∃ answer, Outcome schema cells (done ++ members) answer ∧
      ∀ r, schema.readMembers draft first
        (s ++ (led first (members.map Member.text) ++ '}' :: r)) = answer.map (·, r) := by
  induction members generalizing done draft first s with
  | nil =>
      rw [List.append_nil]
      refine ⟨_, .record reports, fun r => ?_⟩
      exact readMembers_stop (nextKey_closing first blank r)
  | cons m members ih =>
      have here := valid m List.mem_cons_self
      have later := fun m' listed => valid m' (List.mem_cons_of_mem m listed)
      have ends := here.ends (members.map Member.text) (.inr rfl)
      have next := nextKey_members first here blank members
      have split_off : done ++ m :: members = (done ++ [m]) ++ members := by simp
      rw [split_off] at spelled ⊢
      cases known : cells.find? (·.name == m.name) with
      | none =>
          obtain ⟨answer, outcome, read⟩ :=
            ih later (reports.unknown known) spelled false here.after
          refine ⟨answer, outcome, fun r => ?_⟩
          rw [readMembers_step (next r) (made.readMember_unknown here known (ends r))]
          exact read r
      | some cell =>
          have listed := List.mem_of_find?_eq_some known
          have named : cell.name = m.name := by simpa using List.find?_some known
          cases held : cell.get draft with
          | none =>
              have skipped : done.find? (·.name == cell.name) = none := by
                simpa using reports.unnamed listed held
              have first_one : ((done ++ [m]) ++ members).find? (·.name == cell.name) = some m := by
                rw [List.find?_append, List.find?_append, skipped]
                simp [named]
              obtain ⟨a, spells⟩ := spelled cell listed m first_one
              obtain ⟨answer, outcome, read⟩ :=
                ih later (reports.known made listed named held spells) spelled false here.after
              refine ⟨answer, outcome, fun r => ?_⟩
              rw [readMembers_step (next r)
                (made.readMember_known here known held spells (ends r))]
              exact read r
          | some a =>
              have set : (cell.get draft).isSome = true := by rw [held]; rfl
              exact ⟨_, .again reports listed named set members, fun r =>
                readMembers_failed (next r) (made.readMember_again known set _)⟩

theorem Told.spelled (told : Told cells members draft) (listed : cell ∈ cells)
    (first : members.find? (·.name == cell.name) = some m) : ∃ a, cell.Spells m.value a := by
  have tells := told cell listed
  cases held : cell.get draft with
  | none =>
      rw [held] at tells
      cases tells with
      | absent unnamed => cases unnamed.symm.trans first
  | some a =>
      rw [held] at tells
      cases tells with
      | present first' spells =>
          obtain rfl := Option.some.inj (first.symm.trans first')
          exact ⟨a, spells⟩

theorem braced_append (space : List Char) (members : List Member) (r : List Char) :
    braced space members ++ r =
      '{' :: (space ++ (led true (members.map Member.text) ++ '}' :: r)) := by
  simp only [braced, commas_eq_led, List.cons_append, List.append_assoc, List.nil_append]

theorem Schema.decoder_object (schema : Schema δ α) (blank : Blank s) (r : List Char) :
    schema.decoder.run (s ++ '{' :: r) = schema.readMembers schema.blank true r := by
  have opened : dropSpace (s ++ '{' :: r) = '{' :: r := dropSpace_append_cons blank rfl r
  simp only [Schema.decoder, opened, readToken]

/-- What is made of an object with certain keys known: the record that they tell, or a complaint
about a known key that comes up again. -/
structure Decides (keys : List String) (members : List Member) (record answer : Except Error α) :
    Prop where
  once : (∀ name ∈ keys, occurrences members name ≤ 1) → answer = record
  again : (∃ name ∈ keys, 2 ≤ occurrences members name) →
    ∃ name ∈ keys, 2 ≤ occurrences members name ∧
      answer = .error (.mismatch (.duplicateField name))

theorem Outcome.decides (made : schema.MadeOf cells) (told : Told cells members draft)
    {answer : Except Error α} (outcome : Outcome schema cells members answer) :
    Decides (cells.map Cell.name) members (schema.endObject draft) answer := by
  cases outcome with
  | record reports =>
      obtain rfl := made.unique told reports.told
      refine ⟨fun _ => rfl, fun ⟨name, listed, again⟩ => ?_⟩
      obtain ⟨cell, present, rfl⟩ := List.mem_map.mp listed
      have once := reports.once cell present
      omega
  | @repeated cell listed again =>
      have named : cell.name ∈ cells.map Cell.name := List.mem_map_of_mem listed
      refine ⟨fun once => ?_, fun _ => ⟨cell.name, named, again, rfl⟩⟩
      have once := once cell.name named
      omega

/-- The order of the members, the blanks and the members under other keys make no difference. -/
theorem Schema.MadeOf.answers (made : schema.MadeOf cells) (valid : ∀ m ∈ members, m.Valid)
    {space : List Char} (blank : Blank space) (told : Told cells members draft) :
    ∃ answer, Answers schema.decoder (braced space members) answer ∧
      Decides (cells.map Cell.name) members (schema.endObject draft) answer := by
  obtain ⟨answer, outcome, read⟩ := made.readMembers valid made.reports_blank
    (fun cell listed m first => told.spelled listed first) true blank
  rw [List.nil_append] at outcome
  refine ⟨answer, fun s r blank' _ => ?_, outcome.decides made told⟩
  rw [braced_append, schema.decoder_object blank', read]

end MadeOf

end Provenance.Json
