import Mathlib
import Provenance.Proofs.History.Found
import Provenance.Proofs.History.Reduction

/-! # Records in another order

The order of records decides in which slots versions and derivations are kept. Where every version
has one file, whatever is asked is told by the files that are known and the records between them; so
the order is not seen in the answers, and neither are repetitions.
-/

open Relation (TransGen ReflTransGen)

namespace Provenance.History

variable {h h' : History} {toward : Toward} {p c v w : Vertex} {a b x id : ImageId}

/-! ## Versions by their files -/

theorem Valid.parent_iff_recorded (valid : h.Valid) (holds_a : h.Holds p a)
    (holds_b : h.Holds c b) : h.Parent p c ↔ h.Recorded a b := by
  rw [valid.recorded_iff]
  constructor
  · exact fun parent => ⟨p, c, parent, holds_a, holds_b⟩
  · rintro ⟨p', c', parent, holds, holds'⟩
    rwa [valid.holder_unique p p' a holds_a holds, valid.holder_unique c c' b holds_b holds']

theorem Valid.next_iff (valid : h.Valid) (holds_a : h.Holds v a) (holds_b : h.Holds w b) :
    h.Next toward v w ↔ toward.Step h.Recorded a b := by
  cases toward with
  | roots => exact valid.parent_iff_recorded holds_b holds_a
  | leaves => exact valid.parent_iff_recorded holds_a holds_b

theorem Valid.known_of_recorded (valid : h.Valid) (recorded : h.Recorded a b) :
    h.contains a = true ∧ h.contains b = true := by
  obtain ⟨p, c, -, holds_a, holds_b⟩ := valid.recorded_iff.mp recorded
  exact ⟨contains_iff.mpr ⟨p, holds_a⟩, contains_iff.mpr ⟨c, holds_b⟩⟩

theorem Valid.known_of_step (valid : h.Valid) (step : toward.Step h.Recorded a b) :
    h.contains a = true ∧ h.contains b = true := by
  cases toward with
  | roots => exact (valid.known_of_recorded step).symm
  | leaves => exact valid.known_of_recorded step

/-- Ways from version to version are ways from file to file, also if some of the steps are left
out. -/
theorem Single.way_iff (single : h.Single) (valid : h.Valid) {R : Vertex → Vertex → Prop}
    {S : ImageId → ImageId → Prop}
    (same : ∀ {v w a b}, h.Holds v a → h.Holds w b → (R v w ↔ S a b))
    (live : ∀ v w, R v w → h.graph.containsVertex w = true)
    (known : ∀ a b, S a b → h.contains b = true) (holds_a : h.Holds v a) (holds_b : h.Holds w b) :
    ReflTransGen R v w ↔ ReflTransGen S a b := by
  constructor
  · intro way
    have reached : ∀ w, ReflTransGen R v w → ∃ b, h.Holds w b ∧ ReflTransGen S a b := by
      intro w way
      induction way with
      | refl => exact ⟨a, holds_a, .refl⟩
      | @tail u w _ step ih =>
          obtain ⟨x, holds_x, way⟩ := ih
          obtain ⟨b, holds_b⟩ := valid.exists_holds (live u w step)
          exact ⟨b, holds_b, way.tail ((same holds_x holds_b).mp step)⟩
    obtain ⟨b', holds_b', way⟩ := reached w way
    rwa [single w b b' holds_b holds_b']
  · intro way
    have reached : ∀ b, ReflTransGen S a b → ∃ w, h.Holds w b ∧ ReflTransGen R v w := by
      intro b way
      induction way with
      | refl => exact ⟨v, holds_a, .refl⟩
      | @tail x b _ step ih =>
          obtain ⟨u, holds_x, way⟩ := ih
          obtain ⟨w, holds_b⟩ := contains_iff.mp (known x b step)
          exact ⟨w, holds_b, way.tail ((same holds_x holds_b).mpr step)⟩
    obtain ⟨w', holds_b', way⟩ := reached b way
    rwa [valid.holder_unique w w' b holds_b holds_b']

theorem Single.next_way_iff (single : h.Single) (valid : h.Valid) (holds_a : h.Holds v a)
    (holds_b : h.Holds w b) :
    ReflTransGen (h.Next toward) v w ↔ ReflTransGen (toward.Step h.Recorded) a b :=
  single.way_iff valid valid.next_iff (fun _ _ next => (valid.live_of_next next).2)
    (fun _ _ step => (valid.known_of_step step).2) holds_a holds_b

/-- A known file from which there is no step toward an end. -/
structure LastFile (h : History) (toward : Toward) (x : ImageId) : Prop where
  known : h.contains x = true
  stays : ∀ y, ¬ toward.Step h.Recorded x y

theorem Valid.last_iff (valid : h.Valid) (holds : h.Holds v x) :
    h.Last toward v ↔ h.LastFile toward x := by
  constructor
  · intro last
    refine ⟨contains_iff.mpr ⟨v, holds⟩, fun y step => ?_⟩
    obtain ⟨w, holds_y⟩ := contains_iff.mp (valid.known_of_step step).2
    exact last.stays w ((valid.next_iff holds holds_y).mpr step)
  · intro last
    refine ⟨holds.live, fun w next => ?_⟩
    obtain ⟨y, holds_y⟩ := valid.exists_holds (valid.live_of_next next).2
    exact last.stays y ((valid.next_iff holds holds_y).mp next)

/-! ## Answers by the records -/

theorem Valid.mem_extreme_files (valid : h.Valid) :
    x ∈ h.idsOf (h.graph.extremes toward) ↔ h.LastFile toward x := by
  simp only [mem_idsOf, valid.mem_extremes]
  constructor
  · rintro ⟨v, last, holds⟩
    exact (valid.last_iff holds).mp last
  · intro last
    obtain ⟨v, holds⟩ := contains_iff.mp last.known
    exact ⟨v, (valid.last_iff holds).mpr last, holds⟩

theorem Single.mem_end_files (single : h.Single) (valid : h.Valid) (holds : h.Holds v id) :
    x ∈ h.idsOf (h.endsToward v toward) ↔
      ReflTransGen (toward.Step h.Recorded) id x ∧ h.LastFile toward x := by
  simp only [mem_idsOf, valid.mem_endsToward holds.live]
  constructor
  · rintro ⟨u, ⟨way, last⟩, holds_x⟩
    exact ⟨(single.next_way_iff valid holds holds_x).mp way, (valid.last_iff holds_x).mp last⟩
  · rintro ⟨way, last⟩
    obtain ⟨u, holds_x⟩ := contains_iff.mp last.known
    exact ⟨u, ⟨(single.next_way_iff valid holds holds_x).mpr way,
      (valid.last_iff holds_x).mpr last⟩, holds_x⟩

/-- Origins lead to the second file, but none does without a step to the first, unless it is the
first itself. -/
structure BelowFile (h : History) (id x : ImageId) : Prop where
  reached : ∃ o, h.LastFile .roots o ∧ ReflTransGen h.Recorded o x
  only : ¬ ∃ o, h.LastFile .roots o ∧ o ≠ id ∧
    ReflTransGen (fun a b => h.Recorded a b ∧ b ≠ id) o x

theorem Single.below_iff (single : h.Single) (valid : h.Valid) (holds : h.Holds v id)
    (holds_x : h.Holds w x) : h.Below v w ↔ h.BelowFile id x := by
  have apart : ∀ {u y}, h.Holds u y → (u ≠ v ↔ y ≠ id) := by
    intro u y holds_y
    refine not_congr ⟨?_, ?_⟩
    · rintro rfl
      exact single u y id holds_y holds
    · rintro rfl
      exact valid.holder_unique u v y holds_y holds
  have origins : ∀ {q : Vertex → Prop} {q' : ImageId → Prop},
      (∀ {o y}, h.Holds o y → (q o ↔ q' y)) →
        ((∃ o, h.Last .roots o ∧ q o) ↔ ∃ y, h.LastFile .roots y ∧ q' y) := by
    intro q q' same
    constructor
    · rintro ⟨o, last, rest⟩
      obtain ⟨y, holds_y⟩ := valid.exists_holds last.live
      exact ⟨y, (valid.last_iff holds_y).mp last, (same holds_y).mp rest⟩
    · rintro ⟨y, last, rest⟩
      obtain ⟨o, holds_y⟩ := contains_iff.mp last.known
      exact ⟨o, (valid.last_iff holds_y).mpr last, (same holds_y).mpr rest⟩
  have reached : (∃ o, h.Last .roots o ∧ ReflTransGen h.Parent o w) ↔
      ∃ o, h.LastFile .roots o ∧ ReflTransGen h.Recorded o x :=
    origins fun holds_y => single.way_iff valid valid.parent_iff_recorded
      (fun _ _ parent => (valid.live_of_parent parent).2)
      (fun _ _ recorded => (valid.known_of_recorded recorded).2) holds_y holds_x
  have around : (∃ o, h.Last .roots o ∧ o ≠ v ∧
        ReflTransGen (fun s t => h.Parent s t ∧ t ≠ v) o w) ↔
      ∃ o, h.LastFile .roots o ∧ o ≠ id ∧
        ReflTransGen (fun a b => h.Recorded a b ∧ b ≠ id) o x :=
    origins fun holds_y => and_congr (apart holds_y) (single.way_iff valid
      (fun holds_a holds_b => and_congr (valid.parent_iff_recorded holds_a holds_b) (apart holds_b))
      (fun _ _ step => (valid.live_of_parent step.1).2)
      (fun _ _ step => (valid.known_of_recorded step.1).2) holds_y holds_x)
  constructor
  · exact fun below => ⟨reached.mp below.reached, around.not.mp below.only⟩
  · exact fun below => ⟨reached.mpr below.reached, around.not.mpr below.only⟩

theorem Single.mem_descendant_files (single : h.Single) (valid : h.Valid) (roomy : h.Roomy)
    (holds : h.Holds v id) {order : SearchOrder} :
    x ∈ h.idsOf (h.descendants v order) ↔
      h.contains x = true ∧ x ≠ id ∧ h.BelowFile id x := by
  simp only [mem_idsOf, valid.mem_descendants roomy holds.live]
  constructor
  · rintro ⟨u, ⟨other, below⟩, holds_x⟩
    refine ⟨contains_iff.mpr ⟨u, holds_x⟩, ?_, (single.below_iff valid holds holds_x).mp below⟩
    rintro rfl
    exact other (valid.holder_unique u v x holds_x holds)
  · rintro ⟨known, other, below⟩
    obtain ⟨u, holds_x⟩ := contains_iff.mp known
    refine ⟨u, ⟨?_, (single.below_iff valid holds holds_x).mpr below⟩, holds_x⟩
    rintro rfl
    exact other (single u x id holds_x holds)

/-! ## Histories with the same records -/

/-- Two histories know the same files, one in each version, and have the same records. -/
structure Agree (h h' : History) : Prop where
  valid : h.Valid
  valid' : h'.Valid
  single : h.Single
  single' : h'.Single
  contains : ∀ id, h'.contains id = h.contains id
  recorded : h'.Recorded = h.Recorded

/-- The answers to a question about an image are related, or it is unknown to both. -/
theorem alike_require {α : Type} {related : α → α → Prop} {f f' : Vertex → α}
    (known : h'.contains id = h.contains id)
    (each : ∀ v v', h.Holds v id → h'.Holds v' id → related (f v) (f' v')) :
    Alike related (h.require id >>= fun v => pure (f v))
      (h'.require id >>= fun v => pure (f' v)) := by
  unfold History.contains at known
  unfold require
  cases found : h.vertexFor? id with
  | none =>
      rw [found, Option.isSome_none, Option.isSome_eq_false_iff, Option.isNone_iff_eq_none] at known
      rw [known]
      exact .error _
  | some v =>
      rw [found, Option.isSome_some] at known
      obtain ⟨v', found'⟩ := Option.isSome_iff_exists.mp known
      rw [found']
      exact .ok (each v v' (holds_of_vertexFor? found) (holds_of_vertexFor? found'))

/-- Two histories list the same, in whatever order, and otherwise answer in the same way. A cloud
takes handles for the chains that it is read off. -/
structure SameAnswers (h h' : History) : Prop where
  relations : ∀ r, r ∈ h'.relations ↔ r ∈ h.relations
  roots : List.Perm h.roots h'.roots
  leaves : List.Perm h.leaves h'.leaves
  categorize : ∀ id, h'.categorize id = h.categorize id
  rootsFor : ∀ id, Alike List.Perm (h.rootsFor id) (h'.rootsFor id)
  leavesFor : ∀ id, Alike List.Perm (h.leavesFor id) (h'.leavesFor id)
  cycles : ∀ group, group ∈ h.cycles → ∃ group' ∈ h'.cycles, ∀ id, id ∈ group' ↔ id ∈ group
  cycles' : ∀ group', group' ∈ h'.cycles → ∃ group ∈ h.cycles, ∀ id, id ∈ group' ↔ id ∈ group
  relationCloud : Alike (fun cloud cloud' => h.graph.ClosureFits → cloud' = cloud)
    h.relationCloud h'.relationCloud

namespace Agree

theorem symm (agree : Agree h h') : Agree h' h where
  valid := agree.valid'
  valid' := agree.valid
  single := agree.single'
  single' := agree.single
  contains id := (agree.contains id).symm
  recorded := agree.recorded.symm

theorem lastFile (agree : Agree h h') : h'.LastFile toward x ↔ h.LastFile toward x := by
  constructor
  · intro last
    exact ⟨(agree.contains x).symm.trans last.known, agree.recorded ▸ last.stays⟩
  · intro last
    exact ⟨(agree.contains x).trans last.known, agree.recorded.symm ▸ last.stays⟩

theorem belowFile (agree : Agree h h') : h'.BelowFile id x ↔ h.BelowFile id x := by
  have same : ∀ {h h' : History}, Agree h h' → h.BelowFile id x → h'.BelowFile id x := by
    intro h h' agree below
    obtain ⟨reached, only⟩ := below
    simp only [← agree.lastFile, ← agree.recorded] at reached only
    exact ⟨reached, only⟩
  exact ⟨same agree.symm, same agree⟩

theorem extremes (agree : Agree h h') (toward : Toward) :
    List.Perm (h.idsOf (h.graph.extremes toward)) (h'.idsOf (h'.graph.extremes toward)) := by
  refine agree.valid.perm_idsOf agree.valid' Graph.nodup_extremes Graph.nodup_extremes fun x => ?_
  rw [agree.valid.mem_extreme_files, agree.valid'.mem_extreme_files, agree.lastFile]

theorem endsToward (agree : Agree h h') (toward : Toward) {v' : Vertex} (holds : h.Holds v id)
    (holds' : h'.Holds v' id) :
    List.Perm (h.idsOf (h.endsToward v toward)) (h'.idsOf (h'.endsToward v' toward)) := by
  refine agree.valid.perm_idsOf agree.valid' nodup_endsToward nodup_endsToward fun x => ?_
  rw [agree.single.mem_end_files agree.valid holds, agree.single'.mem_end_files agree.valid' holds',
    agree.recorded, agree.lastFile]

theorem derivedFrom (agree : Agree h h') (roomy : h.Roomy) (roomy' : h'.Roomy) (id : ImageId)
    (order order' : SearchOrder) :
    Alike List.Perm (h.derivedFrom id order) (h'.derivedFrom id order') := by
  have derived : ∀ (h : History) order, h.derivedFrom id order =
      (h.require id >>= fun v => pure (h.idsOf (h.descendants v order))) := fun _ _ => rfl
  rw [derived, derived]
  refine alike_require (agree.contains id) fun v v' holds holds' => ?_
  refine agree.valid.perm_idsOf agree.valid' nodup_descendants nodup_descendants fun x => ?_
  rw [agree.single.mem_descendant_files agree.valid roomy holds,
    agree.single'.mem_descendant_files agree.valid' roomy' holds', agree.contains, agree.belowFile]

theorem cycles (agree : Agree h h') {group : List ImageId} (listed : group ∈ h.cycles) :
    ∃ group' ∈ h'.cycles, ∀ id, id ∈ group' ↔ id ∈ group := by
  have entangled : h'.Entangled = h.Entangled := by
    funext a b
    rw [Entangled, agree.recorded, Entangled]
  obtain ⟨a, around, member⟩ := agree.valid.cycles_spec.1 group listed
  obtain ⟨group', listed', member'⟩ := agree.valid'.cycles_spec.2 a (entangled ▸ around)
  exact ⟨group', listed', fun id => by rw [member', member, entangled]⟩

theorem finer (agree : Agree h h') : h.Finer h' := by
  intro v w a b holds_a holds_b holds_a'
  rwa [agree.single v b a holds_b holds_a]

theorem sameAnswers (agree : Agree h h') : SameAnswers h h' where
  relations r := iff_of_eq (congrFun (congrFun agree.recorded r.object) r.subject)
  roots := agree.extremes .roots
  leaves := agree.extremes .leaves
  categorize := categorize_congr agree.valid agree.valid'
    (fun a b => by rw [agree.recorded]) agree.contains
  rootsFor id := alike_require (agree.contains id) fun _ _ => agree.endsToward .roots
  leavesFor id := alike_require (agree.contains id) fun _ _ => agree.endsToward .leaves
  cycles group listed := agree.cycles listed
  cycles' group' listed := by
    obtain ⟨group, listed, same⟩ := agree.symm.cycles listed
    exact ⟨group, listed, fun id => (same id).symm⟩
  relationCloud := agree.finer.relationCloud agree.valid agree.valid' fun a b => by
    rw [agree.recorded]

/-- Reduction keeps histories in agreement, or refuses both. -/
theorem reduceEdges (agree : Agree h h') :
    Alike (fun result result' => Agree result.2 result'.2) h.reduceEdges h'.reduceEdges := by
  by_cases acyclic : ∀ a, ¬ TransGen h.Recorded a a
  · obtain ⟨⟨removed, k⟩, reduced⟩ := agree.valid.reduceEdges_ok_iff.mpr acyclic
    obtain ⟨⟨removed', k'⟩, reduced'⟩ :=
      agree.valid'.reduceEdges_ok_iff.mpr (agree.recorded.symm ▸ acyclic)
    rw [reduced, reduced']
    exact .ok {
      valid := (grows_reduceEdges agree.valid reduced).valid
      valid' := (grows_reduceEdges agree.valid' reduced').valid
      single := agree.single.reduceEdges agree.valid reduced
      single' := agree.single'.reduceEdges agree.valid' reduced'
      contains := fun id => by
        rw [agree.valid'.contains_reduceEdges reduced', agree.valid.contains_reduceEdges reduced,
          agree.contains]
      recorded := by
        funext a b
        rw [agree.valid'.recorded_reduceEdges reduced', agree.valid.recorded_reduceEdges reduced,
          agree.recorded] }
  · rw [agree.valid.reduceEdges_of_cycle acyclic,
      agree.valid'.reduceEdges_of_cycle (agree.recorded.symm ▸ acyclic)]
    exact .error _

end Agree

/-! ## Loading -/

theorem mem_imagesOf {records : List Relation} :
    id ∈ imagesOf records ↔ ∃ r ∈ records, id = r.object ∨ id = r.subject := by
  simp [imagesOf]

/-- What is known are the images of the records. -/
theorem Loaded.contains_iff {records : List Relation} (loaded : Loaded h records) :
    h.contains id = true ↔ id ∈ imagesOf records := by
  refine ⟨loaded.known id, fun named => ?_⟩
  obtain ⟨r, listed, which⟩ := mem_imagesOf.mp named
  have chain := loaded.chains r.object r.subject (.single listed)
  obtain ⟨y, first, -⟩ := TransGen.head'_iff.mp chain
  obtain ⟨z, -, last⟩ := TransGen.tail'_iff.mp chain
  rcases which with rfl | rfl
  · exact (loaded.valid.known_of_recorded first).1
  · exact (loaded.valid.known_of_recorded last).2

theorem loaded_addRelations (config : Config) {records : List Relation}
    (vertex_room : (imagesOf records).length < Handle.nullIndex)
    (edge_room : records.dedup.length < Handle.nullIndex) :
    Loaded ((empty config).addRelations records) records := by
  have loaded : Loaded ((empty config).addRelations records) ([] ++ records) :=
    (Loaded.empty config).addRelations vertex_room edge_room
  exact loaded

/-- There are handles for a vertex above the origins and for its edges. -/
theorem Loaded.roomy {records : List Relation} (loaded : Loaded h records)
    (vertex_room : (imagesOf records).length < Handle.nullIndex)
    (crown_room : (imagesOf records).length + records.dedup.length ≤ Handle.nullIndex) :
    h.Roomy := by
  have size : h.size ≤ (imagesOf records).length := loaded.valid.size_le loaded.known
  have edges : h.graph.edgeCount ≤ records.dedup.length :=
    loaded.valid.edgeCount_le fun a b recorded => List.mem_dedup.mpr (loaded.only a b recorded)
  have vertices : h.graph.vertexList.length = h.size := loaded.valid.graph.vertices.length_handles
  have roots : h.graph.roots.length ≤ h.graph.vertexList.length := List.length_filter_le _ _
  exact ⟨by omega, by omega⟩

/-- What is loaded from the same records in another order, some of them repeated, agrees. -/
theorem agree_loaded (config : Config) {records records' : List Relation}
    (same : ∀ r, r ∈ records ↔ r ∈ records')
    (vertex_room : (imagesOf records).length < Handle.nullIndex)
    (edge_room : records.dedup.length < Handle.nullIndex) :
    Loaded ((empty config).addRelations records) records ∧
      Loaded ((empty config).addRelations records') records' ∧
      Agree ((empty config).addRelations records) ((empty config).addRelations records') := by
  have subset : records' ⊆ records := fun r listed => (same r).mpr listed
  have vertex_room' := Nat.lt_of_le_of_lt (length_imagesOf_le subset) vertex_room
  have edge_room' := Nat.lt_of_le_of_lt (length_dedup_le subset) edge_room
  have loaded := loaded_addRelations config vertex_room edge_room
  have loaded' := loaded_addRelations config vertex_room' edge_room'
  refine ⟨loaded, loaded', {
    valid := loaded.valid
    valid' := loaded'.valid
    single := loaded.single
    single' := loaded'.single
    contains := fun id => ?_
    recorded := ?_ }⟩
  · rw [Bool.eq_iff_iff, loaded.contains_iff, loaded'.contains_iff, mem_imagesOf, mem_imagesOf]
    simp only [same]
  · funext a b
    rw [eq_iff_iff, recorded_loaded_iff config vertex_room' edge_room',
      recorded_loaded_iff config vertex_room edge_room, same]

/-- The order of records and their repetitions are not seen in a history that is loaded from them,
whether it is reduced or refused because of a cycle. What only one image leads to is told by a
vertex above the origins, for which there has to be room. -/
theorem order_of_records_unseen (config : Config) (records records' : List Relation)
    (same : ∀ r, r ∈ records ↔ r ∈ records')
    (vertex_room : (imagesOf records).length < Handle.nullIndex)
    (edge_room : records.dedup.length < Handle.nullIndex) :
    Alike (fun h h' => SameAnswers h h' ∧
        ((imagesOf records).length + records.dedup.length ≤ Handle.nullIndex →
          ∀ id order order', Alike List.Perm (h.derivedFrom id order) (h'.derivedFrom id order')))
      (ofRelations records config) (ofRelations records' config) := by
  have subset : records' ⊆ records := fun r listed => (same r).mpr listed
  have fewer := length_imagesOf_le subset
  have fewer' := length_dedup_le subset
  have told : ∀ {h h'}, Loaded h records → Loaded h' records' → Agree h h' → SameAnswers h h' ∧
      ((imagesOf records).length + records.dedup.length ≤ Handle.nullIndex →
        ∀ id order order',
          Alike List.Perm (h.derivedFrom id order) (h'.derivedFrom id order')) := by
    intro h h' loaded loaded' agree
    refine ⟨agree.sameAnswers, fun room => agree.derivedFrom ?_ ?_⟩
    · exact loaded.roomy vertex_room room
    · exact loaded'.roomy (Nat.lt_of_le_of_lt fewer vertex_room) (by omega)
  obtain ⟨loaded, loaded', agree⟩ := agree_loaded config same vertex_room edge_room
  unfold ofRelations
  dsimp only
  generalize (empty config).addRelations records = h at *
  generalize (empty config).addRelations records' = h' at *
  cases config.reduceOnLoad with
  | false => exact .ok (told loaded loaded' agree)
  | true =>
      exact agree.reduceEdges.map fun _ _ reduced reduced' agree =>
        told (loaded.reduceEdges reduced) (loaded'.reduceEdges reduced') agree

/-- Two images that descend from each other, one derived from both, and one derived from itself. The
second list has the records in another order and one of them twice. -/
theorem order_of_records_unseen_cycle :
    let records : List Relation := [⟨⟨2⟩, ⟨1⟩⟩, ⟨⟨1⟩, ⟨2⟩⟩, ⟨⟨3⟩, ⟨2⟩⟩, ⟨⟨4⟩, ⟨4⟩⟩]
    let records' : List Relation := [⟨⟨4⟩, ⟨4⟩⟩, ⟨⟨3⟩, ⟨2⟩⟩, ⟨⟨1⟩, ⟨2⟩⟩, ⟨⟨3⟩, ⟨2⟩⟩, ⟨⟨2⟩, ⟨1⟩⟩]
    ∃ h h', ofRelations records {} = .ok h ∧ ofRelations records' {} = .ok h' ∧
      h.cycles = [[⟨1⟩, ⟨2⟩], [⟨4⟩]] ∧ h'.cycles = [[⟨4⟩], [⟨2⟩, ⟨1⟩]] ∧ SameAnswers h h' ∧
      ∀ id order order', Alike List.Perm (h.derivedFrom id order) (h'.derivedFrom id order') := by
  intro records records'
  have same : ∀ r, r ∈ records ↔ r ∈ records' := by
    intro r
    simp only [records, records', List.mem_cons, List.not_mem_nil, or_false]
    tauto
  have told := order_of_records_unseen {} records records' same (by decide) (by decide)
  cases told with
  | ok both =>
    refine ⟨_, _, rfl, rfl, ?_, ?_, both.1, both.2 (by decide)⟩
    · cbv
    · cbv

end Provenance.History
