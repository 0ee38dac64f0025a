import Provenance.Config.Codec
import Provenance.History.Load
import Provenance.Proofs.Json.Spelled

/-! # Known keys

What is read of an action, a configuration or a record depends on the keys that its type knows. They
may come in any order and among others, but only once each.
-/

namespace Provenance

open Json

/-! ## Actions -/

namespace Action

def cells : List (Cell Draft) :=
  [{ Value := String
     name := "identifier"
     get := (·.identifier)
     put := fun s d => { d with identifier := some s }
     reader := Decoder.string
     Spells := SpellsString
     get_put := fun _ _ => rfl
     answers := fun _ _ => answers_string },
   { Value := UInt32
     name := "version"
     get := (·.version)
     put := fun n d => { d with version := some n }
     reader := Decoder.uint32
     Spells := fun w n => w = writeNat n.toNat
     get_put := fun _ _ => rfl
     answers := fun _ _ => answers_uint32 },
   { Value := Category
     name := "category"
     get := (·.category)
     put := fun c d => { d with category := some c }
     reader := Category.decoder
     Spells := SpellsVariant Category.named
     get_put := fun _ _ => rfl
     answers := fun _ _ => answers_variant },
   { Value := Params
     name := "params"
     get := (·.params)
     put := fun m d => { d with params := some m }
     reader := Decoder.string.stringMap
     Spells := SpellsMap
     get_put := fun _ _ => rfl
     answers := fun _ _ => answers_map }]

theorem made : schema.MadeOf cells where
  fields := rfl
  blank := by simp [cells, schema]
  apart := by simp [cells, Cell.Apart]
  ext := by
    rintro ⟨⟩ ⟨⟩ same
    simpa [cells] using same

/-- What the members of an action's object tell. An integer can be written in one way only. -/
structure ToldBy (members : List Member) (draft : Draft) : Prop where
  identifier : Tells members "identifier" SpellsString draft.identifier
  version : Tells members "version" (fun w n => w = writeNat n.toNat) draft.version
  category : Tells members "category" (SpellsVariant Category.named) draft.category
  params : Tells members "params" SpellsMap draft.params

theorem ToldBy.all {members : List Member} {draft : Draft} (told : ToldBy members draft) :
    Told cells members draft := by
  simp only [Told, cells, List.forall_mem_cons]
  exact ⟨told.identifier, told.version, told.category, told.params, List.forall_mem_nil _⟩

end Action

/-! ## Configurations -/

namespace Config

def cells : List (Cell Draft) :=
  [{ Value := Direction
     name := "direction"
     get := (·.direction)
     put := fun direction d => { d with direction := some direction }
     reader := Direction.decoder
     Spells := SpellsVariant Direction.named
     get_put := fun _ _ => rfl
     answers := fun _ _ => answers_variant },
   { Value := Bool
     name := "reduceOnLoad"
     get := (·.reduceOnLoad)
     put := fun b d => { d with reduceOnLoad := some b }
     reader := Decoder.boolean
     Spells := fun w b => w = writeBool b
     get_put := fun _ _ => rfl
     answers := fun _ _ => answers_bool },
   { Value := Bool
     name := "timing"
     get := (·.timing)
     put := fun b d => { d with timing := some b }
     reader := Decoder.boolean
     Spells := fun w b => w = writeBool b
     get_put := fun _ _ => rfl
     answers := fun _ _ => answers_bool }]

theorem made : schema.MadeOf cells where
  fields := rfl
  blank := by simp [cells, schema]
  apart := by simp [cells, Cell.Apart]
  ext := by
    rintro ⟨⟩ ⟨⟩ same
    simpa [cells] using same

/-- What the members of a configuration's object tell. -/
structure ToldBy (members : List Member) (draft : Draft) : Prop where
  direction : Tells members "direction" (SpellsVariant Direction.named) draft.direction
  reduceOnLoad : Tells members "reduceOnLoad" (fun w b => w = writeBool b) draft.reduceOnLoad
  timing : Tells members "timing" (fun w b => w = writeBool b) draft.timing

theorem ToldBy.all {members : List Member} {draft : Draft} (told : ToldBy members draft) :
    Told cells members draft := by
  simp only [Told, cells, List.forall_mem_cons]
  exact ⟨told.direction, told.reduceOnLoad, told.timing, List.forall_mem_nil _⟩

end Config

/-! ## Records -/

namespace Relation

theorem answers_imageId {w : List Char} {id : ImageId} (spells : w = id.written) :
    Answers ImageId.decoder w (.ok id) :=
  spells ▸ ((readsBack_int64 id.value).map ImageId.mk).answers ((ignoresBlanks_token _).map _)

def cells : List (Cell Draft) :=
  [{ Value := ImageId
     name := "subject"
     get := (·.subject)
     put := fun id d => { d with subject := some id }
     reader := ImageId.decoder
     Spells := fun w id => w = id.written
     get_put := fun _ _ => rfl
     answers := fun _ _ => answers_imageId },
   { Value := ImageId
     name := "object"
     get := (·.object)
     put := fun id d => { d with object := some id }
     reader := ImageId.decoder
     Spells := fun w id => w = id.written
     get_put := fun _ _ => rfl
     answers := fun _ _ => answers_imageId }]

theorem made : schema.MadeOf cells where
  fields := rfl
  blank := by simp [cells, schema]
  apart := by simp [cells, Cell.Apart]
  ext := by
    rintro ⟨⟩ ⟨⟩ same
    simpa [cells] using same

/-- What the members of a record's object tell. -/
structure ToldBy (members : List Member) (draft : Draft) : Prop where
  subject : Tells members "subject" (fun w id => w = ImageId.written id) draft.subject
  object : Tells members "object" (fun w id => w = ImageId.written id) draft.object

theorem ToldBy.all {members : List Member} {draft : Draft} (told : ToldBy members draft) :
    Told cells members draft := by
  simp only [Told, cells, List.forall_mem_cons]
  exact ⟨told.subject, told.object, List.forall_mem_nil _⟩

/-- The record of a draft, of which no part may be missing. -/
def ofDraft : Draft → Except Json.Error Relation
  | { subject := some subject, object := some object } => .ok ⟨subject, object⟩
  | { subject := none, object := _ } => .error (.mismatch (.missingField "subject"))
  | { subject := some _, object := none } => .error (.mismatch (.missingField "object"))

theorem endObject_eq (draft : Draft) : schema.endObject draft = ofDraft draft := by
  obtain ⟨_ | _, _ | _⟩ := draft <;> rfl

theorem exists_answers {objects : List (ObjectText × Draft)}
    (each : ∀ object ∈ objects, object.1.Valid ∧ ToldBy object.1.members object.2) :
    ∃ answers, List.Forall₂ (fun object answer =>
      (object.1.Valid ∧ Answers decoder object.1.core answer) ∧
        Decides ["subject", "object"] object.1.members (ofDraft object.2) answer)
      objects answers := by
  induction objects with
  | nil => exact ⟨[], .nil⟩
  | cons object objects ih =>
      obtain ⟨⟨valid, told⟩, later⟩ := List.forall_mem_cons.mp each
      obtain ⟨answer, answered, decides⟩ := made.answers valid.members valid.space told.all
      rw [endObject_eq] at decides
      obtain ⟨answers, all⟩ := ih later
      exact ⟨answer :: answers, .cons ⟨⟨valid, answered⟩, decides⟩ all⟩

end Relation

/-- Whatever else is in an object and however it is laid out, the known keys decide what is read.
They have defaults in actions and configurations, but not in records. A known key that comes up
again is an error. -/
theorem known_keys_decide :
    (∀ (o : ObjectText) (draft : Action.Draft), o.Valid → Action.ToldBy o.members draft →
      Decides ["identifier", "version", "category", "params"] o.members
        (.ok { identifier := draft.identifier.getD "", version := draft.version.getD 0,
               category := draft.category.getD .reproducible, params := draft.params.getD ∅ })
        (Action.decoder.decode (String.ofList o.text))) ∧
    (∀ (o : ObjectText) (draft : Config.Draft), o.Valid → Config.ToldBy o.members draft →
      ∃ answer, Config.ofJson (String.ofList o.text) = answer.mapError .json ∧
        Decides ["direction", "reduceOnLoad", "timing"] o.members
          (.ok { direction := draft.direction.getD .parentToChild,
                 reduceOnLoad := draft.reduceOnLoad.getD false,
                 timing := draft.timing.getD false }) answer) ∧
    ∀ (before space after : List Char) (objects : List (ObjectText × Relation.Draft)),
      Blank before → Blank space → Blank after →
      (∀ object ∈ objects, object.1.Valid ∧ Relation.ToldBy object.1.members object.2) →
      ∃ answers, Relation.listOfJson
          (String.ofList (before ++ (bracketed space (objects.map Prod.fst) ++ after))) =
            (answers.mapM id).mapError .json ∧
        List.Forall₂ (fun object answer => Decides ["subject", "object"] object.1.members
          (Relation.ofDraft object.2) answer) objects answers := by
  refine ⟨fun o draft valid told => ?_, fun o draft valid told => ?_,
    fun before space after objects blank blank' blank'' each => ?_⟩
  · obtain ⟨answer, answers, decides⟩ := Action.made.answers valid.members valid.space told.all
    rw [Action.decoder, valid.decode answers]
    exact decides
  · obtain ⟨answer, answers, decides⟩ := Config.made.answers valid.members valid.space told.all
    refine ⟨answer, ?_, decides⟩
    rw [Config.ofJson, Config.decoder, valid.decode answers]
  · obtain ⟨answers, answered⟩ := Relation.exists_answers each
    have listed : List.Forall₂ (fun o answer => o.Valid ∧ Answers Relation.decoder o.core answer)
        (objects.map Prod.fst) answers :=
      List.forall₂_map_left_iff.mpr (answered.imp fun _ _ both => both.1)
    refine ⟨answers, ?_, answered.imp fun _ _ both => both.2⟩
    rw [Relation.listOfJson, (answers_list blank' listed).decode blank blank'']

/-- The key of the version is written with an escape, and members under another key stand around it.
The timing is given twice, and the second record has no object. -/
theorem known_keys_decide_among_others :
    let other : Member := { key := "x".toList, name := "x", value := ['[', '{', '}', ']'] }
    let version : Member :=
      { key := '\\' :: 'u' :: '0' :: '0' :: '7' :: '6' :: "ersion".toList, name := "version",
        beforeValue := [' '], value := writeInt 7 }
    let timing : Member := { key := "timing".toList, name := "timing", value := writeBool true }
    let subject : Member :=
      { key := "subject".toList, name := "subject", value := ImageId.written ⟨7⟩ }
    let object : Member :=
      { key := "object".toList, name := "object", value := ImageId.written ⟨7⟩ }
    let one : ObjectText := { members := [object, other, subject], after := ['\n'] }
    let two : ObjectText := { members := [subject] }
    Action.decoder.decode (String.ofList
        (ObjectText.text { members := [other, version, other] })) = .ok { version := 7 } ∧
      Config.ofJson (String.ofList (ObjectText.text { members := [timing, timing] })) =
        .error (.json (.mismatch (.duplicateField "timing"))) ∧
      Relation.listOfJson (String.ofList (bracketed [] [one, two])) =
        .error (.json (.mismatch (.missingField "object"))) := by
  intro other version timing subject object one two
  obtain ⟨actions, configs, records⟩ := known_keys_decide
  have braces : Forms .value ['{', '}'] :=
    .bracket (b := .object) (@Forms.close .object true [] blank_nil)
  have other_valid : other.Valid := by
    refine ⟨blank_nil, unescapes_self rfl, blank_nil, blank_nil, ?_, blank_nil⟩
    have rest : Forms (.inside .list false) [']'] := @Forms.close .list false [] blank_nil
    exact .bracket (b := .list)
      (@Forms.item .list true [] [] [] _ _ blank_nil rfl blank_nil braces rest)
  have plain_valid : ∀ (name : String) (value : List Char),
      (name.toList.all fun c => c != '"' && c != '\\' && !decide (c < ' ')) →
      Forms .value value → Member.Valid { key := name.toList, name, value } :=
    fun name value plain forms =>
      ⟨blank_nil, unescapes_self plain, blank_nil, blank_nil, forms, blank_nil⟩
  have version_valid : version.Valid := by
    refine ⟨blank_nil, ?_, blank_nil, blank_singleton rfl, forms_writeInt 7, blank_nil⟩
    have ersion : Unescapes "ersion".toList "ersion".toList := unescapes_self rfl
    have name : version.name.toList = Char.ofNat 0x76 :: "ersion".toList := by decide
    rw [name]
    exact .unit rfl rfl rfl ersion
  have timing_valid : timing.Valid := plain_valid _ _ rfl (.scalar (.boolean true))
  have subject_valid : subject.Valid := plain_valid _ _ rfl (forms_writeInt _)
  have object_valid : object.Valid := plain_valid _ _ rfl (forms_writeInt _)
  refine ⟨?_, ?_, ?_⟩
  · have valid : ObjectText.Valid { members := [other, version, other] } :=
      ⟨blank_nil, blank_nil, by simp [other_valid, version_valid], blank_nil⟩
    have told : Action.ToldBy [other, version, other] { version := some 7 } :=
      ⟨.absent rfl, .present (m := version) rfl rfl, .absent rfl, .absent rfl⟩
    exact (actions _ _ valid told).once (by decide +kernel)
  · have valid : ObjectText.Valid { members := [timing, timing] } :=
      ⟨blank_nil, blank_nil, by simp [timing_valid], blank_nil⟩
    have told : Config.ToldBy [timing, timing] { timing := some true } :=
      ⟨.absent rfl, .absent rfl, .present (m := timing) rfl rfl⟩
    obtain ⟨answer, read, decides⟩ := configs _ _ valid told
    obtain ⟨name, listed, again, rfl⟩ := decides.again ⟨"timing", by decide, by decide +kernel⟩
    have timed : name = "timing" := by
      rcases List.mem_cons.mp listed with rfl | listed
      · exact absurd again (by decide +kernel)
      rcases List.mem_cons.mp listed with rfl | listed
      · exact absurd again (by decide +kernel)
      · exact List.mem_singleton.mp listed
    rw [read, timed]
    rfl
  · have each : ∀ o ∈ [(one, (⟨some ⟨7⟩, some ⟨7⟩⟩ : Relation.Draft)), (two, ⟨some ⟨7⟩, none⟩)],
        o.1.Valid ∧ Relation.ToldBy o.1.members o.2 := by
      simp only [List.forall_mem_cons]
      refine ⟨⟨⟨blank_nil, blank_nil, ?_, blank_singleton rfl⟩, ?_⟩,
        ⟨⟨blank_nil, blank_nil, ?_, blank_nil⟩, ?_⟩, List.forall_mem_nil _⟩
      · simp [one, other_valid, subject_valid, object_valid]
      · exact ⟨.present (m := subject) rfl rfl, .present (m := object) rfl rfl⟩
      · simp [two, subject_valid]
      · exact ⟨.present (m := subject) rfl rfl, .absent rfl⟩
    obtain ⟨answers, read, told⟩ := records [] [] [] _ blank_nil blank_nil blank_nil each
    obtain ⟨first, _, decided, rest, rfl⟩ := List.forall₂_cons_left_iff.mp told
    obtain ⟨second, _, decided', rest', rfl⟩ := List.forall₂_cons_left_iff.mp rest
    obtain rfl := decided.once (by decide +kernel)
    obtain rfl := decided'.once (by decide +kernel)
    obtain rfl := List.forall₂_nil_left_iff.mp rest'
    rw [List.nil_append, List.append_nil] at read
    exact read

end Provenance
