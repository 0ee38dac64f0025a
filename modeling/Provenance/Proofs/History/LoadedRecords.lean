import Mathlib
import Provenance.Proofs.Graph.Outline
import Provenance.Proofs.History.FirstFiles
import Provenance.Proofs.History.Loading
import Provenance.Proofs.History.Runs

/-! # The records of a loaded history

Loading gives every image a version and every record an edge of its own when it is met first. As
nothing is removed, the edges are stored in the order of the records that they were made for. Both
come to an end with the handles; of what is met later, only what is there already is kept.
-/

namespace Provenance

/-! ## First occurrences -/

section Firsts

variable {α : Type} [BEq α] {n : Nat} {l m : List α} {a : α}

/-- The members of a list in the order in which they first occur, but no more than `n`. -/
def firsts (n : Nat) (l : List α) : List α := l.eraseDups.take n

theorem firsts_of_le (few : l.eraseDups.length ≤ n) : firsts n l = l.eraseDups :=
  List.take_of_length_le few

variable [LawfulBEq α]

theorem mem_of_mem_firsts (listed : a ∈ firsts n l) : a ∈ l :=
  List.mem_eraseDups.mp (List.mem_of_mem_take listed)

theorem firsts_append (n : Nat) (l m : List α) :
    firsts n (l ++ m) =
      firsts n l ++ (m.removeAll l).eraseDups.take (n - l.eraseDups.length) := by
  rw [firsts, List.eraseDups_append, List.take_append, firsts]

/-- What comes later in a list does not matter for the members that are met before. -/
theorem mem_firsts_append (listed : a ∈ l) : a ∈ firsts n (l ++ m) ↔ a ∈ firsts n l := by
  rw [firsts_append, List.mem_append, or_iff_left]
  intro later
  have left := List.mem_eraseDups.mp (List.mem_of_mem_take later)
  simp [List.removeAll, listed] at left

/-- One more member is taken in if it is new and there is room for it. -/
theorem firsts_concat (n : Nat) (l : List α) (a : α) :
    firsts n (l ++ [a]) =
      if a ∈ firsts n l ∨ n ≤ (firsts n l).length then firsts n l else firsts n l ++ [a] := by
  have length : (firsts n l).length = min n l.eraseDups.length := List.length_take
  rw [firsts_append]
  by_cases known : a ∈ l
  · have nothing : [a].removeAll l = [] := by simp [List.removeAll, known]
    have taken : a ∈ firsts n l ∨ n ≤ (firsts n l).length := by
      by_cases room : n ≤ l.eraseDups.length
      · exact .inr (by omega)
      · rw [firsts_of_le (by omega)]
        exact .inl (List.mem_eraseDups.mpr known)
    rw [if_pos taken, nothing, List.eraseDups_nil, List.take_nil, List.append_nil]
  · have alone : [a].removeAll l = [a] := by simp [List.removeAll, known]
    have single : [a].eraseDups = [a] := by simp [List.eraseDups_cons]
    rw [alone, single]
    have fresh : a ∉ firsts n l := fun listed => known (mem_of_mem_firsts listed)
    by_cases room : n ≤ l.eraseDups.length
    · rw [if_pos (.inr (by omega)), Nat.sub_eq_zero_of_le room, List.take_zero, List.append_nil]
    · rw [if_neg (not_or.mpr ⟨fresh, by omega⟩), List.take_of_length_le (l := [a])]
      rw [List.length_singleton]
      omega

end Firsts

theorem Graph.edgePairs_modifyEdge {N E : Type} (g : Graph N E) (e : Edge) (f : E → E) :
    (g.modifyEdge e f).edgePairs = g.edgePairs := by
  rw [← edgePairs_outline, outline_modifyEdge, edgePairs_outline]

namespace History

variable {h : History} {ids : List ImageId} {records : List Relation} {id a b : ImageId}
  {p c v : Vertex}

/-! ## Images -/

/-- The history has a version for each of the images as far as there are handles, and a file of its
own in every version. -/
structure Admits (h : History) (ids : List ImageId) : Prop where
  valid : h.Valid
  single : h.Single
  contains_iff : ∀ id, h.contains id = true ↔ id ∈ firsts Handle.nullIndex ids
  size : h.size = (firsts Handle.nullIndex ids).length

theorem admits_empty (config : Config) : (empty config).Admits [] where
  valid := valid_empty config
  single := single_empty config
  contains_iff id := by simp [not_contains_empty, firsts]
  size := by simp [firsts, History.size, empty, Graph.empty, Graph.vertexCount]; rfl

theorem addImage_of_full (full : h.graph.vertices.isFull = true) (id : ImageId) :
    (h.addImage id).2 = h := by
  cases found : h.vertexFor? id with
  | some v => rw [addImage_of_known found]
  | none => rw [addImage_of_unknown found, Graph.addVertexWith_of_full full]

theorem holds_addImage (valid : h.Valid) (room : h.graph.vertices.isFull = false) (id : ImageId) :
    (h.addImage id).2.Holds (h.addImage id).1 id := by
  cases found : h.vertexFor? id with
  | some v =>
      rw [addImage_of_known found]
      exact holds_of_vertexFor? found
  | none =>
      rw [addImage_of_unknown found]
      refine holds_iff.mpr ⟨.ofId id, ?_, List.mem_singleton_self id⟩
      rw [Graph.vertexPayload?_addVertexWith valid.graph room, if_pos rfl]

theorem Admits.addImage (admits : h.Admits ids) (id : ImageId) :
    (h.addImage id).2.Admits (ids ++ [id]) := by
  have grows := grows_addImage admits.valid id
  have single := single_addImage admits.valid id admits.single
  have concat := firsts_concat Handle.nullIndex ids id
  cases found : h.vertexFor? id with
  | some v =>
      have known := (admits.contains_iff id).mp (Option.isSome_of_eq_some found)
      rw [if_pos (.inl known)] at concat
      rw [addImage_of_known found] at grows single ⊢
      exact ⟨grows.valid, single, concat ▸ admits.contains_iff, concat ▸ admits.size⟩
  | none =>
      cases room : h.graph.vertices.isFull with
      | true =>
          have full : h.size = Handle.nullIndex := admits.valid.graph.vertices.isFull_iff.mp room
          rw [if_pos (.inr (by rw [← admits.size, full]))] at concat
          rw [addImage_of_full room id]
          exact ⟨admits.valid, admits.single, concat ▸ admits.contains_iff, concat ▸ admits.size⟩
      | false =>
          have bound : h.size ≤ Handle.nullIndex := admits.valid.graph.vertexCount_le
          have not_full : h.size ≠ Handle.nullIndex := fun full => by
            rw [admits.valid.graph.vertices.isFull_iff.mpr full] at room
            cases room
          have unknown : id ∉ firsts Handle.nullIndex ids := fun listed => by
            have known := (admits.contains_iff id).mpr listed
            rw [contains, found] at known
            cases known
          have more := Graph.vertexCount_addVertexWith room (Version.ofId id)
          rw [if_neg (not_or.mpr ⟨unknown, by rw [← admits.size]; omega⟩)] at concat
          refine ⟨grows.valid, single, fun id' => ?_, ?_⟩
          · rw [concat, List.mem_append, ← admits.contains_iff]
            refine ⟨grows.known id', fun either => ?_⟩
            rcases either with known | listed
            · obtain ⟨v, holds⟩ := History.contains_iff.mp known
              exact History.contains_iff.mpr ⟨v, grows.keeps v id' holds⟩
            · rw [List.mem_singleton.mp listed]
              exact History.contains_iff.mpr ⟨_, holds_addImage admits.valid room id⟩
          · rw [concat, List.length_append, ← admits.size, addImage_of_unknown found]
            exact more

/-- What the vertex of an image is like: a version that holds it, or the null handle once there is
no other left. -/
def Spotted (h : History) (v : Vertex) (id : ImageId) : Prop :=
  h.Holds v id ∨ v = .null ∧ h.contains id = false ∧ h.graph.vertices.isFull = true

theorem spotted_addImage (valid : h.Valid) (id : ImageId) :
    (h.addImage id).2.Spotted (h.addImage id).1 id := by
  cases found : h.vertexFor? id with
  | some v =>
      rw [addImage_of_known found]
      exact .inl (holds_of_vertexFor? found)
  | none =>
      cases room : h.graph.vertices.isFull with
      | true =>
          rw [addImage_of_unknown found, Graph.addVertexWith_of_full room]
          exact .inr ⟨rfl, by rw [contains, found]; rfl, room⟩
      | false => exact .inl (holds_addImage valid room id)

theorem Spotted.addImage (spotted : h.Spotted v id) (valid : h.Valid) (id' : ImageId) :
    (h.addImage id').2.Spotted v id := by
  rcases spotted with holds | ⟨null, unknown, full⟩
  · exact .inl ((grows_addImage valid id').keeps v id holds)
  · rw [addImage_of_full full]
    exact .inr ⟨null, unknown, full⟩

theorem Spotted.live_iff (spotted : h.Spotted v id) (valid : h.Valid) :
    h.graph.containsVertex v = true ↔ h.contains id = true := by
  rcases spotted with holds | ⟨rfl, unknown, -⟩
  · exact iff_of_true holds.live (contains_iff.mpr ⟨v, holds⟩)
  · rw [valid.graph.null_dead, unknown]

theorem Spotted.holds (spotted : h.Spotted v id) (known : h.contains id = true) :
    h.Holds v id := by
  rcases spotted with holds | ⟨-, unknown, -⟩
  · exact holds
  · rw [unknown] at known
    cases known

/-! ## Records -/

/-- The records between two versions. -/
def recordsAt (h : History) (ends : Vertex × Vertex) : List Relation :=
  (h.filesAt (h.orient ends.1 ends.2).2).flatMap fun b =>
    (h.filesAt (h.orient ends.1 ends.2).1).map fun a => ⟨b, a⟩

theorem relations_eq_flatMap (h : History) :
    h.relations = h.graph.edgePairs.flatMap h.recordsAt := by
  rw [relations, Graph.edgeList, Graph.edgePairs, Arena.handles, List.flatMap_map, List.flatMap_map]
  apply List.flatMap_congr
  rintro ⟨e, link⟩ listed
  have found := Arena.mem_entries.mp listed
  simp only [relationsOf, found, recordsAt, filesAt, Link.ends]
  cases h.graph.vertexPayload? (h.orient link.source link.target).1 with
  | none => cases h.graph.vertexPayload? (h.orient link.source link.target).2 <;> simp
  | some parent => cases h.graph.vertexPayload? (h.orient link.source link.target).2 <;> rfl

theorem Single.filesAt_eq (single : h.Single) (valid : h.Valid) (holds : h.Holds v id) :
    h.filesAt v = [id] := by
  have all : ∀ x ∈ h.filesAt v, x = id := fun x listed => single v x id listed holds
  have once := valid.nodup_filesAt v
  rw [List.eq_replicate_of_mem all] at once ⊢
  have positive := List.length_pos_of_mem holds
  have at_most := List.nodup_replicate.mp once
  rw [show (h.filesAt v).length = 1 by omega]
  rfl

theorem Single.recordsAt_eq (single : h.Single) (valid : h.Valid) (holds_a : h.Holds p a)
    (holds_b : h.Holds c b) : h.recordsAt (h.orient p c) = [⟨b, a⟩] := by
  rw [recordsAt, orient_orient, single.filesAt_eq valid holds_a, single.filesAt_eq valid holds_b]
  rfl

/-- Without second files there is one record for every edge. -/
theorem Single.length_relations (single : h.Single) (valid : h.Valid) :
    h.relations.length = h.graph.edgeCount := by
  have one : ∀ ends ∈ h.graph.edgePairs, (h.recordsAt ends).length = 1 := by
    rintro ⟨s, t⟩ listed
    have parent := joined_iff_parent.mp (valid.graph.mem_edgePairs.mp listed)
    obtain ⟨a, holds_a⟩ := valid.exists_holds (valid.live_of_parent parent).1
    obtain ⟨b, holds_b⟩ := valid.exists_holds (valid.live_of_parent parent).2
    have record := single.recordsAt_eq valid holds_a holds_b
    rw [orient_orient] at record
    rw [record, List.length_singleton]
  rw [relations_eq_flatMap, List.length_flatMap, List.map_congr_left one, List.map_const',
    List.sum_replicate, valid.graph.length_edgePairs, smul_eq_mul, mul_one]

theorem edges_addImage (h : History) (id : ImageId) :
    (h.addImage id).2.graph.edges = h.graph.edges := by
  cases found : h.vertexFor? id with
  | some v => rw [addImage_of_known found]
  | none => rw [addImage_of_unknown found, Graph.edges_addVertexWith]

/-- A new version has no records yet. -/
theorem relations_addImage (valid : h.Valid) (id : ImageId) :
    (h.addImage id).2.relations = h.relations := by
  cases found : h.vertexFor? id with
  | some v => rw [addImage_of_known found]
  | none =>
      rw [addImage_of_unknown found]
      cases room : h.graph.vertices.isFull with
      | true => rw [Graph.addVertexWith_of_full room]
      | false =>
          have versions := Graph.vertexPayload?_addVertexWith valid.graph room (.ofId id)
          have fresh := Graph.addVertexWith_dead valid.graph (Version.ofId id)
          have pairs : (h.graph.addVertexWith (.ofId id)).2.edgePairs = h.graph.edgePairs := by
            rw [Graph.edgePairs, Graph.edges_addVertexWith, Graph.edgePairs]
          have kept : ∀ v, h.graph.containsVertex v = true →
              filesAt { h with graph := (h.graph.addVertexWith (.ofId id)).2 } v = h.filesAt v := by
            intro v live
            have old : v ≠ (h.graph.addVertexWith (.ofId id)).1 := by
              rintro rfl
              rw [fresh] at live
              cases live
            rw [filesAt, filesAt, versions, if_neg old]
          rw [relations_eq_flatMap, relations_eq_flatMap, pairs]
          apply List.flatMap_congr
          rintro ⟨s, t⟩ listed
          have parent := joined_iff_parent.mp (valid.graph.mem_edgePairs.mp listed)
          obtain ⟨live, live'⟩ := valid.live_of_parent parent
          change ((filesAt _ (h.orient s t).2).flatMap fun b =>
            (filesAt _ (h.orient s t).1).map fun a => (⟨b, a⟩ : Relation)) = _
          rw [kept _ live, kept _ live']
          rfl

/-- A record that is new gets an edge behind all others, as long as there are handles. -/
theorem Single.relations_recorded (single : h.Single) (valid : h.Valid)
    (no_free : h.graph.edges.free = []) (holds_a : h.Holds p a) (holds_b : h.Holds c b) :
    let h' : History :=
      { h with graph := (recorded h.graph (h.orient p c).1 (h.orient p c).2 []).2 }
    h'.graph.edges.free = [] ∧ h'.relations =
      if ⟨b, a⟩ ∈ h.relations ∨ Handle.nullIndex ≤ h.relations.length then h.relations
      else h.relations ++ [⟨b, a⟩] := by
  intro h'
  have here : h.recordsAt (h.orient p c) = [⟨b, a⟩] := single.recordsAt_eq valid holds_a holds_b
  have same : h'.recordsAt = h.recordsAt := by
    funext ends
    have files : h'.filesAt = h.filesAt := funext (valid.filesAt_recorded _ _ [])
    rw [recordsAt, recordsAt, files]
    rfl
  have live : h.graph.containsVertex (h.orient p c).1 = true ∧
      h.graph.containsVertex (h.orient p c).2 = true := by
    rw [← Bool.and_eq_true_iff, live_orient, holds_a.live, holds_b.live]
    rfl
  have listed_iff :
      ⟨b, a⟩ ∈ h.relations ↔ (h.graph.edge? (h.orient p c).1 (h.orient p c).2).isSome := by
    refine valid.recorded_iff.trans ⟨?_, fun joined => ⟨p, c, joined, holds_a, holds_b⟩⟩
    rintro ⟨p', c', parent, holds_a', holds_b'⟩
    rwa [valid.holder_unique p p' a holds_a holds_a', valid.holder_unique c c' b holds_b holds_b']
  rw [relations_eq_flatMap h', same]
  dsimp only [h']
  unfold recorded
  cases found : h.graph.edge? (h.orient p c).1 (h.orient p c).2 with
  | some e =>
      rw [found] at listed_iff
      rw [if_pos (.inl (listed_iff.mpr rfl)), relations_eq_flatMap h]
      refine ⟨(Arena.free_modify _ _ _).trans no_free, ?_⟩
      rw [Graph.edgePairs_modifyEdge]
  | none =>
      rw [found] at listed_iff
      have new : ⟨b, a⟩ ∉ h.relations := fun listed => nomatch listed_iff.mp listed
      have count := single.length_relations valid
      dsimp only
      rw [Graph.addEdgeWith_of_apart live.1 live.2 found]
      cases room : h.graph.edges.isFull with
      | true =>
          have full : h.graph.edgeCount = Handle.nullIndex := valid.graph.edges.isFull_iff.mp room
          rw [Graph.joinWith_of_full room, if_pos (.inr (by rw [count, full])),
            relations_eq_flatMap h]
          exact ⟨no_free, rfl⟩
      | false =>
          have bound := valid.graph.edgeCount_le
          have not_full : h.graph.edgeCount ≠ Handle.nullIndex := fun full => by
            rw [valid.graph.edges.isFull_iff.mpr full] at room
            cases room
          obtain ⟨pairs, free⟩ := Graph.edgePairs_joinWith room no_free (h.orient p c).1
            (h.orient p c).2 (⟨[]⟩ : Derivation)
          rw [if_neg (not_or.mpr ⟨new, by omega⟩), pairs, List.flatMap_append,
            List.flatMap_singleton, here, relations_eq_flatMap h]
          exact ⟨free, rfl⟩

/-! ## Lists of records -/

/-- The images that records mention, as often as they do. -/
def mentionedIn (records : List Relation) : List ImageId :=
  records.flatMap fun r => [r.object, r.subject]

/-- The images that there are handles for. -/
def admitted (records : List Relation) : List ImageId :=
  firsts Handle.nullIndex (mentionedIn records)

/-- The records between admitted images that there are handles for. -/
def keptOf (records : List Relation) : List Relation :=
  firsts Handle.nullIndex
    (records.filter fun r => r.object ∈ admitted records ∧ r.subject ∈ admitted records)

/-- The history has the images and the records of a list, each once and in order, as far as there
are handles. -/
structure Stores (h : History) (records : List Relation) : Prop where
  admits : h.Admits (mentionedIn records)
  no_free : h.graph.edges.free = []
  relations : h.relations = keptOf records

theorem filter_admitted (records : List Relation) (r : Relation) :
    (records ++ [r]).filter (fun x => x.object ∈ admitted (records ++ [r]) ∧
        x.subject ∈ admitted (records ++ [r])) =
      records.filter (fun x => x.object ∈ admitted records ∧ x.subject ∈ admitted records) ++
        if r.object ∈ admitted (records ++ [r]) ∧ r.subject ∈ admitted (records ++ [r]) then [r]
        else [] := by
  have before : ∀ x ∈ records, ∀ id ∈ [x.object, x.subject],
      (id ∈ admitted (records ++ [r]) ↔ id ∈ admitted records) := by
    intro x listed id named
    rw [admitted, mentionedIn, List.flatMap_append]
    exact mem_firsts_append (List.mem_flatMap.mpr ⟨x, listed, named⟩)
  rw [List.filter_append]
  congr 1
  · refine List.filter_congr fun x listed => ?_
    simp only [before x listed x.object (by simp), before x listed x.subject (by simp)]
  · by_cases both : r.object ∈ admitted (records ++ [r]) ∧ r.subject ∈ admitted (records ++ [r]) <;>
      simp [both]

theorem Admits.recorded (admits : h.Admits ids) (source target : Vertex) (actions : List Action) :
    Admits { h with graph := (recorded h.graph source target actions).2 } ids := by
  have grows := grows_recorded admits.valid source target actions
  have holds : ∀ v id, Holds { h with graph := (History.recorded h.graph source target actions).2 }
      v id ↔ h.Holds v id := by
    intro v id
    rw [Holds, admits.valid.filesAt_recorded]
    rfl
  refine ⟨grows.valid, fun v a b holds_a holds_b => ?_, fun id => ?_, ?_⟩
  · exact admits.single v a b ((holds v a).mp holds_a) ((holds v b).mp holds_b)
  · rw [← admits.contains_iff, History.contains_iff, History.contains_iff]
    exact exists_congr fun v => holds v id
  · rw [← admits.size]
    unfold History.recorded
    split
    · rfl
    · exact (Graph.addEdgeWith_vertices admits.valid.graph source target _).2.1

theorem Stores.addDerivation (stores : h.Stores records) (r : Relation) :
    (h.addDerivation r.object r.subject []).2.Stores (records ++ [r]) := by
  have valid := stores.admits.valid
  have first := stores.admits.addImage r.object
  have second := first.addImage r.subject
  have parent := (spotted_addImage valid r.object).addImage first.valid r.subject
  have child := spotted_addImage first.valid r.subject
  have relations : ((h.addImage r.object).2.addImage r.subject).2.relations = keptOf records := by
    rw [relations_addImage first.valid, relations_addImage valid, stores.relations]
  have no_free : ((h.addImage r.object).2.addImage r.subject).2.graph.edges.free = [] := by
    rw [edges_addImage, edges_addImage, stores.no_free]
  have mentions : mentionedIn (records ++ [r]) =
      (mentionedIn records ++ [r.object]) ++ [r.subject] := by
    simp [mentionedIn]
  rw [addDerivation_eq]
  dsimp only
  generalize ((h.addImage r.object).2.addImage r.subject).2 = h₂ at *
  generalize (h.addImage r.object).1 = p at *
  generalize ((h.addImage r.object).2.addImage r.subject).1 = c at *
  rw [← mentions] at second
  have contains_iff : ∀ id, h₂.contains id = true ↔ id ∈ admitted (records ++ [r]) :=
    second.contains_iff
  have kept : keptOf (records ++ [r]) = firsts Handle.nullIndex
      (records.filter (fun x => x.object ∈ admitted records ∧ x.subject ∈ admitted records) ++
        if r.object ∈ admitted (records ++ [r]) ∧ r.subject ∈ admitted (records ++ [r]) then [r]
        else []) := by
    rw [keptOf, filter_admitted]
  -- a record is lost where one of its images found no handle: its vertex is the null one then
  cases live : h₂.graph.containsVertex (h₂.orient p c).1 &&
      h₂.graph.containsVertex (h₂.orient p c).2 with
  | false =>
      rw [recorded_of_dead second.valid.graph live]
      rw [live_orient, ← Bool.not_eq_true, Bool.and_eq_true, parent.live_iff second.valid,
        child.live_iff second.valid, contains_iff, contains_iff] at live
      refine ⟨second, no_free, ?_⟩
      rw [relations, kept, if_neg live, List.append_nil, keptOf]
  | true =>
      rw [live_orient, Bool.and_eq_true, parent.live_iff second.valid,
        child.live_iff second.valid] at live
      have holds_a := parent.holds live.1
      have holds_b := child.holds live.2
      rw [contains_iff, contains_iff] at live
      obtain ⟨free, recorded⟩ :=
        second.single.relations_recorded second.valid no_free holds_a holds_b
      refine ⟨second.recorded _ _ [], free, ?_⟩
      rw [recorded, relations, kept, if_pos live, firsts_concat, keptOf]

theorem stores_addRelations (config : Config) (records : List Relation) :
    ((empty config).addRelations records).Stores records := by
  induction records using List.reverseRecOn with
  | nil => exact ⟨admits_empty config, rfl, by simp [keptOf, firsts]; rfl⟩
  | append_singleton rs r ih =>
      rw [addRelations, List.foldl_append]
      exact ih.addDerivation r

theorem admitted_of_room (room : (mentionedIn records).eraseDups.length ≤ Handle.nullIndex) :
    admitted records = (mentionedIn records).eraseDups := firsts_of_le room

theorem mem_mentionedIn {r : Relation} (listed : r ∈ records) :
    r.object ∈ mentionedIn records ∧ r.subject ∈ mentionedIn records := by
  constructor <;> exact List.mem_flatMap.mpr ⟨r, listed, by simp⟩

theorem keptOf_of_room (room : (mentionedIn records).eraseDups.length ≤ Handle.nullIndex)
    (edge_room : records.eraseDups.length ≤ Handle.nullIndex) :
    keptOf records = records.eraseDups := by
  have all : ∀ r ∈ records,
      decide (r.object ∈ admitted records ∧ r.subject ∈ admitted records) = true := by
    intro r listed
    obtain ⟨object, subject⟩ := mem_mentionedIn listed
    rw [decide_eq_true_iff, admitted_of_room room]
    exact ⟨List.mem_eraseDups.mpr object, List.mem_eraseDups.mpr subject⟩
  rw [keptOf, List.filter_eq_self.mpr all, firsts_of_le edge_room]

/-- Loading fails on no list of records. The history has the records in the order in which they are
met first, each once, and a version of its own for each image, as far as there are handles for the
images and for the derivations. -/
theorem records_of_loaded (records : List Relation) (config : Config)
    (as_is : config.reduceOnLoad = false) :
    ∃ h, ofRelations records config = .ok h ∧
      (∀ a b v, h.vertexFor? a = some v → h.vertexFor? b = some v → a = b) ∧
      h.relations = keptOf records ∧ h.size = (admitted records).length ∧
      (∀ id, h.contains id = true ↔ id ∈ admitted records) ∧
      ((mentionedIn records).eraseDups.length ≤ Handle.nullIndex →
        records.eraseDups.length ≤ Handle.nullIndex →
          h.relations = records.eraseDups ∧ h.size = (mentionedIn records).eraseDups.length ∧
          ∀ id, h.contains id = true ↔ id ∈ mentionedIn records) := by
  have stores := stores_addRelations config records
  have single := stores.admits.single
  refine ⟨_, by rw [ofRelations, as_is]; rfl, fun a b v found_a found_b => ?_, stores.relations,
    stores.admits.size, stores.admits.contains_iff,
    fun room edge_room => ⟨?_, ?_, fun id => ?_⟩⟩
  · exact single v a b (holds_of_vertexFor? found_a) (holds_of_vertexFor? found_b)
  · rw [stores.relations, keptOf_of_room room edge_room]
  · rw [stores.admits.size, firsts_of_le room]
  · rw [stores.admits.contains_iff, firsts_of_le room, List.mem_eraseDups]

/-- A repeated record, two in opposite senses and one of an image from itself. -/
theorem records_of_loaded_repeated :
    let a : ImageId := ⟨1⟩
    let b : ImageId := ⟨2⟩
    let records : List Relation := [⟨b, a⟩, ⟨a, b⟩, ⟨b, a⟩, ⟨b, b⟩]
    let config : Config := ⟨.childToParent, false, false⟩
    config.reduceOnLoad = false ∧
    ∃ h, ofRelations records config = .ok h ∧
      h.relations = [⟨b, a⟩, ⟨a, b⟩, ⟨b, b⟩] ∧ h.size = 2 := by
  intro a b records config
  have as_is : config.reduceOnLoad = false := rfl
  obtain ⟨h, loaded, -, -, -, -, told⟩ := records_of_loaded records config as_is
  obtain ⟨relations, size, -⟩ := told (by decide) (by decide)
  exact ⟨as_is, h, loaded, relations.trans (by decide), size.trans (by decide)⟩

end History

end Provenance
