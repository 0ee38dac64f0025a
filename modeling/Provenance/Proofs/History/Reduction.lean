import Provenance.Proofs.Graph.Detours
import Provenance.Proofs.History.Loading
import Provenance.Proofs.History.Runs
import Provenance.Proofs.History.Cloud

/-! # Reduction

Reduction removes the records that a longer chain implies. What it leaves depends on the chains
alone, so it does not matter how often a history is reduced while its records come in.
-/

open Relation (TransGen)

namespace Provenance

namespace History

/-! ## What a reduction leaves -/

theorem detour_parent {h : History} {p c : Vertex} :
    Detour h.Parent p c ↔ Detour h.graph.Joined (h.orient p c).1 (h.orient p c).2 := by
  unfold Detour
  simp only [transGen_parent]
  unfold orient
  cases h.config.direction with
  | parentToChild => rfl
  | childToParent => exact exists_congr fun x => and_comm

theorem Valid.detour_recorded {h : History} (valid : h.Valid) {a b : ImageId} :
    Detour h.Recorded a b ↔ ∃ p c, Detour h.Parent p c ∧ h.Holds p a ∧ h.Holds c b := by
  constructor
  · intro ⟨x, first, rest⟩
    obtain ⟨p, v, first, holds_a, holds_x⟩ := valid.transGen_recorded.mp first
    obtain ⟨w, c, rest, holds_x', holds_b⟩ := valid.transGen_recorded.mp rest
    obtain rfl := valid.holder_unique v w x holds_x holds_x'
    exact ⟨p, c, ⟨v, first, rest⟩, holds_a, holds_b⟩
  · intro ⟨p, c, ⟨v, first, rest⟩, holds_a, holds_b⟩
    obtain ⟨x, holds_x⟩ := valid.exists_holds (valid.live_of_parents rest).1
    exact ⟨x, valid.transGen_recorded.mpr ⟨p, v, first, holds_a, holds_x⟩,
      valid.transGen_recorded.mpr ⟨v, c, rest, holds_x, holds_b⟩⟩

/-- A derivation stays unless there is a detour for it. -/
theorem Valid.parent_reduceEdges {h h' : History} (valid : h.Valid) {removed : List Relation}
    (reduced : h.reduceEdges = .ok (removed, h')) {p c : Vertex} :
    h'.Parent p c ↔ h.Parent p c ∧ ¬ Detour h.Parent p c := by
  obtain ⟨r, edges, result, rfl⟩ := valid.reduceEdges_eq_ok reduced
  have acyclic := (Graph.transitiveReduction_ok_iff valid.graph .nothing).mp ⟨_, result⟩
  rw [detour_parent, ← Graph.bridged_iff_detour acyclic]
  exact Graph.joined_dropRemoved valid.graph result

/-- A record stays unless there is a detour for it. -/
theorem Valid.recorded_reduceEdges {h h' : History} (valid : h.Valid) {removed : List Relation}
    (reduced : h.reduceEdges = .ok (removed, h')) {a b : ImageId} :
    h'.Recorded a b ↔ h.Recorded a b ∧ ¬ Detour h.Recorded a b := by
  have valid' := (grows_reduceEdges valid reduced).valid
  rw [valid'.recorded_iff, valid.recorded_iff, valid.detour_recorded]
  simp only [valid.parent_reduceEdges reduced, valid.holds_reduceEdges reduced]
  constructor
  · intro ⟨p, c, ⟨parent, direct⟩, holds_a, holds_b⟩
    refine ⟨⟨p, c, parent, holds_a, holds_b⟩, ?_⟩
    intro ⟨p', c', detour, holds_a', holds_b'⟩
    obtain rfl := valid.holder_unique p p' a holds_a holds_a'
    obtain rfl := valid.holder_unique c c' b holds_b holds_b'
    exact direct detour
  · intro ⟨⟨p, c, parent, holds_a, holds_b⟩, direct⟩
    exact ⟨p, c, ⟨parent, fun detour => direct ⟨p, c, detour, holds_a, holds_b⟩⟩, holds_a, holds_b⟩

theorem Valid.contains_reduceEdges {h h' : History} (valid : h.Valid) {removed : List Relation}
    (reduced : h.reduceEdges = .ok (removed, h')) (id : ImageId) :
    h'.contains id = h.contains id := by
  rw [Bool.eq_iff_iff, contains_iff, contains_iff]
  simp only [valid.holds_reduceEdges reduced]

theorem Single.reduceEdges {h h' : History} (single : h.Single) (valid : h.Valid)
    {removed : List Relation} (reduced : h.reduceEdges = .ok (removed, h')) : h'.Single := by
  intro v a b holds_a holds_b
  rw [valid.holds_reduceEdges reduced] at holds_a holds_b
  exact single v a b holds_a holds_b

theorem Valid.reduceEdges_of_cycle {h : History} (valid : h.Valid)
    (cyclic : ¬ ∀ a, ¬ TransGen h.Recorded a a) :
    h.reduceEdges = .error (.graph (.notAcyclic .transitiveReduction)) := by
  rw [← valid.acyclic_iff] at cyclic
  rw [valid.reduceEdges_eq, Graph.reduction_of_cycle valid.graph .nothing cyclic]

/-! ## Loading and reducing by turns -/

/-- A list of records says that the second image was derived from the first. -/
def Listed (records : List Relation) (a b : ImageId) : Prop := ⟨b, a⟩ ∈ records

/-- The records that a change brings in. -/
def Change.records : Change → List Relation
  | .addRelations batch => batch
  | _ => []

/-- What a history keeps of the records that came in: some of them, and all of their chains. -/
structure Loaded (h : History) (records : List Relation) : Prop where
  valid : h.Valid
  single : h.Single
  known : ∀ id, h.contains id = true → id ∈ imagesOf records
  only : ∀ a b, h.Recorded a b → Listed records a b
  chains : ∀ a b, TransGen (Listed records) a b → TransGen h.Recorded a b

namespace Loaded

variable {h h' : History} {records batch : List Relation}

theorem empty (config : Config) : Loaded (History.empty config) [] where
  valid := valid_empty config
  single := single_empty config
  known id known := by
    rw [not_contains_empty] at known
    cases known
  only a b recorded := absurd recorded (not_recorded_empty config a b)
  chains a b chain := by
    obtain ⟨x, listed, _⟩ := TransGen.head'_iff.mp chain
    exact absurd listed List.not_mem_nil

theorem transGen_iff (loaded : Loaded h records) {a b : ImageId} :
    TransGen h.Recorded a b ↔ TransGen (Listed records) a b :=
  ⟨fun chain => TransGen.mono loaded.only a b chain, loaded.chains a b⟩

theorem addRelations (loaded : Loaded h records)
    (vertex_room : (imagesOf (records ++ batch)).length < Handle.nullIndex)
    (edge_room : (records ++ batch).dedup.length < Handle.nullIndex) :
    Loaded (h.addRelations batch) (records ++ batch) := by
  have loads := loads_addRelations loaded.valid batch
  generalize h.addRelations batch = h' at *
  have valid' := loads.grows.valid
  have known : ∀ id, h'.contains id = true → id ∈ imagesOf (records ++ batch) := by
    intro id known
    rw [imagesOf, List.mem_dedup, List.flatMap_append]
    rcases loads.grows.known id known with before | named
    · exact List.mem_append_left _ (List.mem_dedup.mp (loaded.known id before))
    · exact List.mem_append_right _ named
  have only : ∀ a b, h'.Recorded a b → Listed (records ++ batch) a b := by
    intro a b recorded
    rcases loads.only loaded.single a b recorded with before | listed
    · exact List.mem_append_left _ (loaded.only a b before)
    · exact List.mem_append_right _ listed
  have vertices : h'.size < Handle.nullIndex := Nat.lt_of_le_of_lt (valid'.size_le known) vertex_room
  have edges : h'.graph.edgeCount < Handle.nullIndex := by
    refine Nat.lt_of_le_of_lt (valid'.edgeCount_le fun a b recorded => ?_) edge_room
    exact List.mem_dedup.mpr (only a b recorded)
  refine ⟨valid', loads.single loaded.single, known, only, TransGen.closed ?_⟩
  intro a b listed
  rcases List.mem_append.mp listed with before | new
  · exact TransGen.mono loads.keeps a b (loaded.chains a b (.single before))
  · exact .single (loads.all vertices edges ⟨b, a⟩ new)

theorem reduceEdges (loaded : Loaded h records) {removed : List Relation}
    (reduced : h.reduceEdges = .ok (removed, h')) : Loaded h' records where
  valid := (grows_reduceEdges loaded.valid reduced).valid
  single := loaded.single.reduceEdges loaded.valid reduced
  known id known :=
    loaded.known id ((loaded.valid.contains_reduceEdges reduced id).symm.trans known)
  only a b recorded :=
    loaded.only a b ((loaded.valid.recorded_reduceEdges reduced).mp recorded).1
  chains a b chain := (loaded.valid.transGen_reduceEdges reduced).mpr (loaded.chains a b chain)

/-- Records without a cycle can be reduced at any time. -/
theorem exists_reduceEdges (loaded : Loaded h records)
    (acyclic : ∀ a, ¬ TransGen (Listed records) a a) : ∃ result, h.reduceEdges = .ok result :=
  loaded.valid.reduceEdges_ok_iff.mpr fun a cycle => acyclic a (loaded.transGen_iff.mp cycle)

/-- What is left by a reduction are the records without a detour. -/
theorem recorded_reduced (loaded : Loaded h records) {removed : List Relation}
    (reduced : h.reduceEdges = .ok (removed, h')) {a b : ImageId} :
    h'.Recorded a b ↔ Listed records a b ∧ ¬ Detour (Listed records) a b := by
  rw [loaded.valid.recorded_reduceEdges reduced,
    Detour.congr fun a b => loaded.transGen_iff (a := a) (b := b)]
  constructor
  · intro ⟨recorded, direct⟩
    exact ⟨loaded.only a b recorded, direct⟩
  · intro ⟨listed, direct⟩
    refine ⟨step_of_no_detour (loaded.chains a b (.single listed)) ?_, direct⟩
    rwa [Detour.congr fun a b => loaded.transGen_iff (a := a) (b := b)]

end Loaded

theorem acyclic_of_subset {some all : List Relation} (subset : some ⊆ all)
    (acyclic : ∀ a, ¬ TransGen (Listed all) a a) (a : ImageId) : ¬ TransGen (Listed some) a a :=
  fun cycle => acyclic a (TransGen.mono (fun _ _ listed => subset listed) a a cycle)

theorem length_imagesOf_le {some all : List Relation} (subset : some ⊆ all) :
    (imagesOf some).length ≤ (imagesOf all).length := by
  apply (List.nodup_dedup _).length_le_of_subset
  intro id named
  obtain ⟨r, listed, part⟩ := List.mem_flatMap.mp (List.mem_dedup.mp named)
  exact List.mem_dedup.mpr (List.mem_flatMap.mpr ⟨r, subset listed, part⟩)

theorem length_dedup_le {some all : List Relation} (subset : some ⊆ all) :
    some.dedup.length ≤ all.dedup.length := by
  apply (List.nodup_dedup _).length_le_of_subset
  intro r listed
  exact List.mem_dedup.mpr (subset (List.mem_dedup.mp listed))

/-- Loading and reducing by turns keeps the chains of all records that have come in. -/
theorem Loaded.after {h : History} {records all : List Relation} {cs : List Change}
    (loaded : Loaded h records)
    (loading : ∀ c ∈ cs, c = .reduceEdges ∨ ∃ batch, c = .addRelations batch)
    (subset : records ++ cs.flatMap Change.records ⊆ all)
    (acyclic : ∀ a, ¬ TransGen (Listed all) a a)
    (vertex_room : (imagesOf all).length < Handle.nullIndex)
    (edge_room : all.dedup.length < Handle.nullIndex) :
    Loaded (h.after cs) (records ++ cs.flatMap Change.records) := by
  induction cs generalizing h records with
  | nil => simpa [History.after] using loaded
  | cons c cs ih =>
      rw [List.flatMap_cons, ← List.append_assoc] at subset ⊢
      have so_far : records ++ c.records ⊆ all := fun r listed => subset (List.mem_append_left _ listed)
      have later := fun c listed => loading c (List.mem_cons_of_mem _ listed)
      rcases loading c List.mem_cons_self with rfl | ⟨batch, rfl⟩
      · have here : records ⊆ all := fun r listed => so_far (List.mem_append_left _ listed)
        obtain ⟨result, reduced⟩ := loaded.exists_reduceEdges (acyclic_of_subset here acyclic)
        have step : h.after (.reduceEdges :: cs) = result.2.after cs := by
          simp [History.after, Change.apply, reduced, Except.map]
        rw [step]
        apply ih _ later subset
        simpa [Change.records] using loaded.reduceEdges reduced
      · apply ih _ later subset
        apply loaded.addRelations
        · exact Nat.lt_of_le_of_lt (length_imagesOf_le so_far) vertex_room
        · exact Nat.lt_of_le_of_lt (length_dedup_le so_far) edge_room

/-- However often a history is reduced while records without a cycle come in, in whatever batches
and order and with whatever repetitions, no reduction fails, and a last one leaves the records for
which there is no longer chain among all of them. The cloud holds the pairs that they chain. -/
theorem reduced_of_turns (config : Config) (records : List Relation) (cs : List Change)
    (loading : ∀ c ∈ cs, c = .reduceEdges ∨ ∃ batch, c = .addRelations batch)
    (together : ∀ r, r ∈ records ↔ r ∈ cs.flatMap Change.records)
    (acyclic : ∀ a, ¬ TransGen (Listed records) a a)
    (vertex_room : (imagesOf records).length < Handle.nullIndex)
    (edge_room : records.dedup.length < Handle.nullIndex) :
    (∀ before rest, cs = before ++ .reduceEdges :: rest →
      ∃ result, ((empty config).after before).reduceEdges = .ok result) ∧
    ∃ removed h, ((empty config).after cs).reduceEdges = .ok (removed, h) ∧
      (∀ r, r ∈ h.relations ↔
        r ∈ records ∧ ¬ Detour (Listed records) r.object r.subject) ∧
      ∃ cloud, h.relationCloud = .ok cloud ∧ cloud.Pairwise (compare · · = .lt) ∧
        (∀ r ∈ cloud, TransGen (Listed records) r.object r.subject) ∧
        (cloud.length < Handle.nullIndex →
          ∀ r : Relation, TransGen (Listed records) r.object r.subject → r ∈ cloud) := by
  have reach : ∀ before rest, cs = before ++ rest →
      Loaded ((empty config).after before) (before.flatMap Change.records) ∧
        before.flatMap Change.records ⊆ records := by
    intro before rest split
    have some_of : before.flatMap Change.records ⊆ records := by
      intro r listed
      rw [together, split, List.flatMap_append]
      exact List.mem_append_left _ listed
    have loading : ∀ c ∈ before, c = .reduceEdges ∨ ∃ batch, c = .addRelations batch :=
      fun c listed => loading c (split ▸ List.mem_append_left _ listed)
    have loaded := (Loaded.empty config).after loading (by simpa using some_of) acyclic vertex_room
      edge_room
    exact ⟨by simpa using loaded, some_of⟩
  refine ⟨fun before rest split => ?_, ?_⟩
  · obtain ⟨loaded, subset⟩ := reach before _ split
    exact loaded.exists_reduceEdges (acyclic_of_subset subset acyclic)
  · obtain ⟨loaded, subset⟩ := reach cs [] (List.append_nil cs).symm
    have same : Listed (cs.flatMap Change.records) = Listed records := by
      funext a b
      exact propext (together ⟨b, a⟩).symm
    obtain ⟨⟨removed, h⟩, reduced⟩ :=
      loaded.exists_reduceEdges (acyclic_of_subset subset acyclic)
    have kept := loaded.reduceEdges reduced
    obtain ⟨cloud, known⟩ := kept.valid.relationCloud_ok_iff.mpr fun a cycle =>
      acyclic_of_subset subset acyclic a (kept.transGen_iff.mp cycle)
    have spec := kept.valid.relationCloud_spec known
    simp only [kept.transGen_iff, same] at spec
    refine ⟨removed, h, reduced, fun r => ?_, cloud, known, spec.1, spec.2.1,
      fun room => spec.2.2 (.inl room)⟩
    have left := loaded.recorded_reduced reduced (a := r.object) (b := r.subject)
    rwa [same] at left

/-- Records whose objects come before their subjects have no cycle. -/
theorem acyclic_of_ascending {records : List Relation}
    (ascending : ∀ r ∈ records, r.object.value < r.subject.value) (a : ImageId) :
    ¬ TransGen (Listed records) a a := by
  have before : ∀ b, TransGen (Listed records) a b → a.value < b.value := by
    intro b chain
    induction chain with
    | @single b listed => exact ascending ⟨b, a⟩ listed
    | @tail b c _ listed ih => exact Int64.lt_trans ih (ascending ⟨c, b⟩ listed)
  intro cycle
  exact Int64.lt_irrefl (before a cycle)

/-- A derivation that is reduced away comes in again, and is reduced away again. -/
theorem reduced_of_turns_triangle :
    let records : List Relation := [⟨⟨2⟩, ⟨1⟩⟩, ⟨⟨3⟩, ⟨2⟩⟩, ⟨⟨3⟩, ⟨1⟩⟩]
    let cs : List Change := [.addRelations [⟨⟨3⟩, ⟨1⟩⟩, ⟨⟨2⟩, ⟨1⟩⟩, ⟨⟨3⟩, ⟨2⟩⟩], .reduceEdges,
      .addRelations [⟨⟨3⟩, ⟨1⟩⟩, ⟨⟨2⟩, ⟨1⟩⟩]]
    ∃ removed h, ((empty {}).after cs).reduceEdges = .ok (removed, h) ∧
      ∀ r, r ∈ h.relations ↔ r ∈ records ∧ ¬ Detour (Listed records) r.object r.subject := by
  intro records cs
  have loading : ∀ c ∈ cs, c = .reduceEdges ∨ ∃ batch, c = .addRelations batch := by
    intro c listed
    rcases List.mem_cons.mp listed with rfl | listed
    · exact .inr ⟨_, rfl⟩
    rcases List.mem_cons.mp listed with rfl | listed
    · exact .inl rfl
    · exact .inr ⟨_, List.mem_singleton.mp listed⟩
  have together : ∀ r, r ∈ records ↔ r ∈ cs.flatMap Change.records := by
    intro r
    simp only [records, cs, List.flatMap_cons, Change.records]
    grind
  obtain ⟨-, removed, h, reduced, left, -⟩ := reduced_of_turns {} records cs loading together
    (acyclic_of_ascending (by decide)) (by decide) (by decide)
  exact ⟨removed, h, reduced, left⟩

end History

end Provenance
