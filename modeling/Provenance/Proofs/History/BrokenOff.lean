import Provenance.Proofs.Image.ReadBack
import Provenance.Proofs.Json.BrokenOff

/-! # Files that break off

A saved history is one list, so no file that is cut short holds a shorter history: wherever the text
of the relations breaks off, loading it fails because the end comes too early.
-/

namespace Provenance

open Json (RunsOut WantsAll)

theorem runsOut_imageId (id : ImageId) : RunsOut ImageId.decoder id.written :=
  (Json.runsOut_int64 id.value).map ImageId.mk

theorem wantsAll_relation (r : Relation) : WantsAll Relation.decoder r.written := by
  have subject := (runsOut_imageId r.subject).map
    fun id (d : Relation.Draft) => { d with subject := some id }
  have object := (runsOut_imageId r.object).map
    fun id (d : Relation.Draft) => { d with object := some id }
  refine Json.wantsAll_record (fills_relation r) fun member listed field named => ?_
  simp only [List.mem_cons, List.not_mem_nil, or_false] at listed
  rcases listed with rfl | rfl
  · cases named
    exact subject
  · cases named
    exact object

theorem wantsAll_relations (records : List Relation) :
    WantsAll Relation.decoder.list (Json.writeList (records.map Relation.written)) :=
  Json.wantsAll_list (fun r _ => readsBack_relation r) fun r _ => (wantsAll_relation r).runsOut

namespace History

/-- Loading what is left of a saved history fails for want of the rest, wherever the text breaks off
and however the history would be set up. -/
theorem broken_off_never_loads (records : List Relation) {p : String}
    (front : p.toList <+: (Relation.listToJson records).toList)
    (proper : p ≠ Relation.listToJson records) :
    Relation.listOfJson p = .error (.json .truncated) ∧
      ∀ config, ofJson p config = .error (.json .truncated) := by
  have cut : Json.Cut p.toList (Json.writeList (records.map Relation.written)) := by
    rw [Relation.listToJson, String.toList_ofList] at front
    refine .of_front front fun whole => proper ?_
    rw [Relation.listToJson, ← whole, String.ofList_toList]
  have ended : Relation.listOfJson p = .error (.json .truncated) := by
    rw [Relation.listOfJson, (wantsAll_relations records).decode cut]
    rfl
  refine ⟨ended, fun config => ?_⟩
  rw [ofJson, ended]
  rfl

/-- The first record of the file breaks off after the first digit of its subject. -/
theorem cut_in_subject_never_loads :
    Relation.listOfJson "[\x7b\"subject\":1" = .error (.json .truncated) ∧
      ∀ config, ofJson "[\x7b\"subject\":1" config = .error (.json .truncated) :=
  broken_off_never_loads [⟨⟨12⟩, ⟨-3⟩⟩] (by decide +kernel) (by decide +kernel)

end History

end Provenance
