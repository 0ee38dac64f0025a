import Mathlib
import Provenance.Proofs.History.Cloud
import Provenance.Proofs.History.Loading
import Provenance.Proofs.History.Runs
import Provenance.Proofs.Image.ReadBack

/-! # Saving and loading

The text of a list of records is read back as that list. A loaded history splits the versions that
had several files and may store its edges the other way and reduced, but its records imply the same
chains, and these fix the cloud and the placement of every image.
-/

open Relation (TransGen)

namespace Provenance

namespace History

theorem ofJson_listToJson (records : List Relation) (config : Config) :
    ofJson (Relation.listToJson records) config = ofRelations records config := by
  rw [ofJson, listOfJson_listToJson]
  rfl

/-! ## Loading what was saved -/

theorem transGen_ofRelations {records : List Relation} {config : Config} {h : History}
    (opened : ofRelations records config = .ok h) {a b : ImageId} :
    TransGen h.Recorded a b ↔ TransGen ((empty config).addRelations records).Recorded a b := by
  have valid := (grows_addRelations (valid_empty config) records).valid
  rcases loaded_or_reduced opened with rfl | ⟨removed, reduced⟩
  · rfl
  · exact valid.transGen_reduceEdges reduced

/-- Every chain of a loaded history was there when it was saved. -/
theorem transGen_of_loaded {h : History} {config : Config} {a b : ImageId}
    (chain : TransGen ((empty config).addRelations h.relations).Recorded a b) :
    TransGen h.Recorded a b := by
  have fewer : ((empty config).addRelations h.relations).Recorded ≤ h.Recorded :=
    fun _ _ => listed_of_recorded config
  exact TransGen.mono fewer a b chain

/-- Records without a cycle can be loaded under every configuration. -/
theorem exists_ofRelations {h : History} (acyclic : ∀ a, ¬ TransGen h.Recorded a a)
    (config : Config) : ∃ h', ofRelations h.relations config = .ok h' := by
  have grows := grows_addRelations (valid_empty config) h.relations
  obtain ⟨result, reduced⟩ := grows.valid.reduceEdges_ok_iff.mpr fun a cycle =>
    acyclic a (transGen_of_loaded cycle)
  unfold ofRelations
  dsimp only
  split
  · exact ⟨result.2, by rw [reduced]; rfl⟩
  · exact ⟨_, rfl⟩

theorem contains_of_imagesOf {h : History} (valid : h.Valid) {id : ImageId}
    (listed : id ∈ imagesOf h.relations) : h.contains id = true := by
  obtain ⟨r, record, named⟩ := List.mem_flatMap.mp (List.mem_dedup.mp listed)
  have recorded : h.Recorded r.object r.subject := record
  obtain ⟨p, c, -, object, subject⟩ := valid.recorded_iff.mp recorded
  rcases List.mem_pair.mp named with rfl | rfl
  · exact contains_iff.mpr ⟨p, object⟩
  · exact contains_iff.mpr ⟨c, subject⟩

theorem contains_of_loaded {records : List Relation} {config : Config} {h : History}
    (opened : ofRelations records config = .ok h)
    (vertex_room : (imagesOf records).length < Handle.nullIndex) {id : ImageId}
    (listed : id ∈ imagesOf records) : h.contains id = true := by
  have grows := grows_addRelations (valid_empty config) records
  have room := Nat.lt_of_le_of_lt (size_loaded_le config records).1 vertex_room
  obtain ⟨v, holds⟩ := contains_iff.mp (grows.present room id (List.mem_dedup.mp listed))
  exact contains_iff.mpr ⟨v, (grows_loaded opened).keeps v id holds⟩

/-- Every record is in the cloud, so the edges of a loaded history have room if the cloud has. -/
theorem length_records_le {h : History} (valid : h.Valid) {cloud : List Relation}
    (known : h.relationCloud = .ok cloud) (room : cloud.length < Handle.nullIndex) :
    h.relations.dedup.length ≤ cloud.length := by
  obtain ⟨-, -, all⟩ := valid.relationCloud_spec known
  refine (List.nodup_dedup h.relations).length_le_of_subset fun r listed => ?_
  exact all (.inl room) r (.single (List.mem_dedup.mp listed))

theorem transGen_reloaded_iff {h h' : History} {config : Config}
    (loaded : ofRelations h.relations config = .ok h')
    (vertex_room : (imagesOf h.relations).length < Handle.nullIndex)
    (edge_room : h.relations.dedup.length < Handle.nullIndex) {a b : ImageId} :
    TransGen h'.Recorded a b ↔ TransGen h.Recorded a b := by
  have same : ((empty config).addRelations h.relations).Recorded = h.Recorded := by
    funext a b
    exact propext (recorded_loaded_iff config vertex_room edge_room)
  rw [transGen_ofRelations loaded, same]

/-- Whatever can be reached and has a cloud can be saved and loaded again, in either direction and
reduced or not, and the loaded history has a cloud. As long as there are handles for the images and
for the cloud, it is the same cloud, and every image of the records is placed as it was. -/
theorem ancestry_of_reloaded (start : Start) {h₀ : History} (opened : start.initial = .ok h₀)
    (cs : List Change) {cloud : List Relation}
    (known : (h₀.after cs).relationCloud = .ok cloud) (config : Config) :
    let h := h₀.after cs
    ∃ h', ofJson (Relation.listToJson h.relations) config = .ok h' ∧
      (∃ cloud', h'.relationCloud = .ok cloud') ∧
      ((imagesOf h.relations).length < Handle.nullIndex → cloud.length < Handle.nullIndex →
        h'.relationCloud = .ok cloud ∧
          ∀ id ∈ imagesOf h.relations, h'.categorize id = h.categorize id) := by
  intro h
  obtain ⟨_, opening⟩ := Start.grows opened
  have valid : h.Valid := (grows_after opening.valid cs).valid
  have acyclic := valid.relationCloud_ok_iff.mp ⟨cloud, known⟩
  obtain ⟨h', loaded⟩ := exists_ofRelations acyclic config
  have valid' := (grows_ofRelations loaded).valid
  refine ⟨h', by rw [ofJson_listToJson, loaded], ?_, fun vertex_room cloud_room => ?_⟩
  · refine valid'.relationCloud_ok_iff.mpr fun a cycle => acyclic a ?_
    exact transGen_of_loaded ((transGen_ofRelations loaded).mp cycle)
  · have edge_room := Nat.lt_of_le_of_lt (length_records_le valid known cloud_room) cloud_room
    have same : ∀ a b, TransGen h'.Recorded a b ↔ TransGen h.Recorded a b :=
      fun a b => transGen_reloaded_iff loaded vertex_room edge_room
    refine ⟨relationCloud_eq_of_chains valid valid' same known cloud_room, fun id listed => ?_⟩
    exact categorize_eq_of_chains valid valid' same (contains_of_imagesOf valid listed)
      (contains_of_loaded loaded vertex_room listed)

/-- A version with two files, stored one way and loaded the other way as two versions. -/
theorem ancestry_of_reloaded_chain :
    let opened := (empty { direction := .childToParent }).addRelations
      [⟨⟨2⟩, ⟨1⟩⟩, ⟨⟨3⟩, ⟨2⟩⟩, ⟨⟨3⟩, ⟨1⟩⟩]
    let h := opened.after [.addDuplicate ⟨2⟩ ⟨4⟩]
    ∃ h', ofJson (Relation.listToJson h.relations) { reduceOnLoad := true } = .ok h' ∧
      h'.relationCloud =
        .ok [⟨⟨2⟩, ⟨1⟩⟩, ⟨⟨3⟩, ⟨1⟩⟩, ⟨⟨3⟩, ⟨2⟩⟩, ⟨⟨3⟩, ⟨4⟩⟩, ⟨⟨4⟩, ⟨1⟩⟩] ∧
      h'.categorize ⟨4⟩ = h.categorize ⟨4⟩ := by
  intro opened h
  have start : (Start.ofRelations [⟨⟨2⟩, ⟨1⟩⟩, ⟨⟨3⟩, ⟨2⟩⟩, ⟨⟨3⟩, ⟨1⟩⟩]
      { direction := .childToParent }).initial = .ok opened := rfl
  have cloud : h.relationCloud =
      .ok [⟨⟨2⟩, ⟨1⟩⟩, ⟨⟨3⟩, ⟨1⟩⟩, ⟨⟨3⟩, ⟨2⟩⟩, ⟨⟨3⟩, ⟨4⟩⟩, ⟨⟨4⟩, ⟨1⟩⟩] := by
    dsimp only [h, opened]
    cbv
  have images : imagesOf h.relations = [⟨2⟩, ⟨4⟩, ⟨1⟩, ⟨3⟩] := by
    dsimp only [h, opened]
    cbv
  obtain ⟨h', loaded, -, kept⟩ :=
    ancestry_of_reloaded _ start [.addDuplicate ⟨2⟩ ⟨4⟩] cloud { reduceOnLoad := true }
  obtain ⟨same, placed⟩ := kept (by rw [images]; decide) (by decide)
  exact ⟨h', loaded, same, placed ⟨4⟩ (by rw [images]; decide)⟩

end History

end Provenance
