import Provenance.Config.Codec
import Provenance.History.Load
import Provenance.Proofs.Json.ReadBack

/-! # Written images, actions and configurations

Every record is written with all its fields, each under its name and in the order of its schema, so
its draft is full when the object ends and makes up the record that was written.
-/

namespace Provenance

open Json (Fills ReadsBack)

theorem readsBack_imageId (id : ImageId) : ReadsBack ImageId.decoder id.written id :=
  (Json.readsBack_int64 id.value).map ImageId.mk

theorem fills_relation (r : Relation) :
    Fills Relation.schema {} [("subject", r.subject.written), ("object", r.object.written)] r := by
  have subject := (readsBack_imageId r.subject).map
    fun id (d : Relation.Draft) => { d with subject := some id }
  have object := (readsBack_imageId r.object).map
    fun id (d : Relation.Draft) => { d with object := some id }
  exact .member rfl rfl subject (.member rfl rfl object (.complete rfl))

theorem readsBack_relation (r : Relation) : ReadsBack Relation.decoder r.written r :=
  Json.readsBack_record (fills_relation r)

theorem listOfJson_listToJson (records : List Relation) :
    Relation.listOfJson (Relation.listToJson records) = .ok records := by
  have back : ReadsBack Relation.decoder.list (Json.writeList (records.map Relation.written))
      records := Json.readsBack_list fun r _ => readsBack_relation r
  rw [Relation.listOfJson, Relation.listToJson, back.decode]
  rfl

theorem readsBack_category (category : Category) :
    ReadsBack Category.decoder category.written category := by
  refine Json.readsBack_variant ?_
  cases category <;> rfl

theorem readsBack_action (action : Action) : ReadsBack Action.decoder action.written action := by
  have identifier := (Json.readsBack_string action.identifier).map
    fun s (d : Action.Draft) => { d with identifier := some s }
  have version := (Json.readsBack_uint32 action.version).map
    fun n (d : Action.Draft) => { d with version := some n }
  have category := (readsBack_category action.category).map
    fun c (d : Action.Draft) => { d with category := some c }
  have params := (Json.readsBack_stringMap Json.readsBack_string action.params).map
    fun m (d : Action.Draft) => { d with params := some m }
  exact Json.readsBack_record (.member rfl rfl identifier (.member rfl rfl version
    (.member rfl rfl category (.member rfl rfl params (.complete rfl)))))

theorem readsBack_version (version : Version) :
    ReadsBack Version.decoder version.written version := by
  have ids := (Json.readsBack_list fun id (_ : id ∈ version.ids) => readsBack_imageId id).map
    fun ids (_ : Option (List ImageId)) => some ids
  exact Json.readsBack_record (.member rfl rfl ids (.complete rfl))

theorem readsBack_derivation (derivation : Derivation) :
    ReadsBack Derivation.decoder derivation.written derivation := by
  have actions := (Json.readsBack_list
    fun action (_ : action ∈ derivation.actions) => readsBack_action action).map
    fun actions (_ : Option (List Action)) => some actions
  exact Json.readsBack_record (.member rfl rfl actions (.complete rfl))

theorem readsBack_direction (direction : Direction) :
    ReadsBack Direction.decoder direction.written direction := by
  refine Json.readsBack_variant ?_
  cases direction <;> rfl

theorem readsBack_config (config : Config) : ReadsBack Config.decoder config.written config := by
  have direction := (readsBack_direction config.direction).map
    fun direction (d : Config.Draft) => { d with direction := some direction }
  have reduceOnLoad := (Json.readsBack_bool config.reduceOnLoad).map
    fun b (d : Config.Draft) => { d with reduceOnLoad := some b }
  have timing := (Json.readsBack_bool config.timing).map
    fun b (d : Config.Draft) => { d with timing := some b }
  exact Json.readsBack_record (.member rfl rfl direction (.member rfl rfl reduceOnLoad
    (.member rfl rfl timing (.complete rfl))))

/-- Whatever is written is read back as it was: no text, number or map is lost or changed on the
way. -/
theorem written_values_read_back :
    (∀ records, Relation.listOfJson (Relation.listToJson records) = .ok records) ∧
    (∀ action : Action, Action.decoder.decode (String.ofList action.written) = .ok action) ∧
    (∀ version : Version, Version.decoder.decode (String.ofList version.written) = .ok version) ∧
    (∀ derivation : Derivation,
      Derivation.decoder.decode (String.ofList derivation.written) = .ok derivation) ∧
    (∀ id : ImageId, ImageId.decoder.decode (String.ofList id.written) = .ok id) ∧
    (∀ config : Config, Config.ofJson config.toJson = .ok config) := by
  refine ⟨listOfJson_listToJson, fun action => (readsBack_action action).decode,
    fun version => (readsBack_version version).decode,
    fun derivation => (readsBack_derivation derivation).decode,
    fun id => (readsBack_imageId id).decode, fun config => ?_⟩
  rw [Config.ofJson, Config.toJson, (readsBack_config config).decode]
  rfl

end Provenance
