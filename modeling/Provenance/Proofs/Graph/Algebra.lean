import Mathlib
import Provenance.Proofs.Graph.Copied
import Provenance.Proofs.Graph.Cycles
import Provenance.Proofs.Graph.Reached

/-! # Closing and reducing again

The closure lists the chains of a graph and the reduction its edges without a detour. Both are told
by the chains alone, so a closure is its own closure, a reduction is its own reduction, and each can
be made from the other.
-/

open Relation (TransGen)

namespace Provenance

/-- Two sorted lists start alike if the second one holds the start of the first one and nothing that
the first one has not. -/
theorem take_eq_of_sorted {α : Type} {r : α → α → Prop} (asymm : ∀ a b, r a b → ¬ r b a) (k : Nat)
    {l l' : List α} (sorted : l.Pairwise r) (sorted' : l'.Pairwise r) (sub : ∀ a ∈ l', a ∈ l)
    (start : ∀ a ∈ l.take k, a ∈ l') : l'.take k = l.take k := by
  induction k generalizing l l' with
  | zero => rfl
  | succ k ih =>
      cases l with
      | nil =>
          have empty : l' = [] := List.eq_nil_iff_forall_not_mem.mpr fun a listed =>
            List.not_mem_nil (sub a listed)
          rw [empty]
      | cons a l =>
          have here := start a List.mem_cons_self
          cases l' with
          | nil => cases here
          | cons b l' =>
              obtain ⟨first, rest⟩ := List.pairwise_cons.mp sorted
              obtain ⟨first', rest'⟩ := List.pairwise_cons.mp sorted'
              have same : b = a := by
                rcases List.mem_cons.mp here with rfl | later
                · rfl
                · rcases List.mem_cons.mp (sub b List.mem_cons_self) with rfl | earlier
                  · rfl
                  · exact absurd (first' a later) (asymm a b (first b earlier))
              subst same
              have apart : ∀ c, r b c → c ≠ b := by
                rintro c step rfl
                exact asymm c c step step
              rw [List.take_succ_cons, List.take_succ_cons, ih rest rest' ?_ ?_]
              · intro c listed
                exact (List.mem_cons.mp (sub c (List.mem_cons_of_mem b listed))).resolve_left
                  (apart c (first' c listed))
              · intro c listed
                have among := start c (List.mem_cons_of_mem b listed)
                exact (List.mem_cons.mp among).resolve_left
                  (apart c (first c (List.mem_of_mem_take listed)))

namespace Graph

variable {N E : Type} {flags flags' : CopyFlags} {g c r : Graph N E}

/-! ## Edges and chains among the slots of a copy -/

/-- The vertices that stand for the ends of an edge in every copy. -/
def Copied (g : Graph N E) : Vertex → Vertex → Prop :=
  Relation.Map g.snapshot.digraph.Edge (fun i => spot i) fun i => spot i

theorem copied_iff (valid : g.Valid) {s t : Vertex} :
    g.Copied s t ↔ ∃ i j, g.Joined (g.snapshot.label i) (g.snapshot.label j) ∧
      spot i = s ∧ spot j = t :=
  exists_congr fun _ => exists_congr fun _ => and_congr_left fun _ => valid.edge_snapshot

theorem transGen_copied {s t : Vertex} :
    TransGen g.Copied s t ↔ ∃ i j, TransGen g.snapshot.digraph.Edge i j ∧
      spot i = s ∧ spot j = t :=
  transGen_map fun _ _ => spot_inj

theorem acyclic_copied (valid : g.Valid) (acyclic : ∀ v, ¬ TransGen g.Joined v v) (v : Vertex) :
    ¬ TransGen g.Copied v v := by
  intro cycle
  obtain ⟨i, j, chain, source, target⟩ := transGen_copied.mp cycle
  obtain rfl := spot_inj (source.trans target.symm)
  exact valid.acyclic_snapshot.mpr acyclic i chain

theorem detour_copied {i j : Fin g.snapshot.size} :
    Detour g.Copied (spot i) (spot j) ↔ Detour g.snapshot.digraph.Edge i j := by
  constructor
  · rintro ⟨v, first, rest⟩
    obtain ⟨a, x, before, source, rfl⟩ := transGen_copied.mp first
    obtain ⟨x', b, after, same, target⟩ := transGen_copied.mp rest
    obtain rfl := spot_inj source
    obtain rfl := spot_inj same
    obtain rfl := spot_inj target
    exact ⟨_, before, after⟩
  · rintro ⟨x, first, rest⟩
    exact ⟨spot x, transGen_copied.mpr ⟨i, x, first, rfl, rfl⟩,
      transGen_copied.mpr ⟨x, j, rest, rfl, rfl⟩⟩

/-- In a copy an edge stands for itself. -/
theorem Copies.copied_iff {pairs : List (Fin g.snapshot.size × Fin g.snapshot.size)}
    (copies : Copies flags g c pairs) {s t : Vertex} : c.Copied s t ↔ c.Joined s t := by
  rw [Graph.copied_iff copies.valid]
  constructor
  · rintro ⟨i, j, joined, rfl, rfl⟩
    rwa [copies.label, copies.label] at joined
  · intro joined
    obtain ⟨source, target⟩ := copies.valid.live_of_joined joined
    obtain ⟨i, rfl⟩ := exists_label source
    obtain ⟨j, rfl⟩ := exists_label target
    exact ⟨i, j, joined, (copies.label i).symm, (copies.label j).symm⟩

theorem Copies.copied_eq {pairs : List (Fin g.snapshot.size × Fin g.snapshot.size)}
    (copies : Copies flags g c pairs) : c.Copied = c.Joined := by
  funext s t
  exact propext copies.copied_iff

/-- The pairs of ends of the edges, by the vertices that stand for them in a copy. -/
def copiedPairs (g : Graph N E) : List (Vertex × Vertex) :=
  spots (g.edgeList.filterMap (g.endNumbers? g.snapshot))

theorem map_label_numbers (valid : g.Valid) :
    (g.edgeList.filterMap (g.endNumbers? g.snapshot)).map
      (fun (i, j) => (g.snapshot.label i, g.snapshot.label j)) = g.edgePairs := by
  rw [edgeList, Arena.handles, List.filterMap_map, List.map_filterMap, edgePairs,
    ← List.filterMap_eq_map]
  refine List.filterMap_congr ?_
  rintro ⟨e, link⟩ listed
  have found := Arena.mem_entries.mp listed
  obtain ⟨source, target⟩ := valid.ends_live e link found
  obtain ⟨i, hi⟩ := exists_label source
  obtain ⟨j, hj⟩ := exists_label target
  have numbers : g.endNumbers? g.snapshot e = some (i, j) :=
    endNumbers?_eq_some.mpr ⟨link, found, Prod.ext hi.symm hj.symm⟩
  simp only [Function.comp_apply, numbers, Option.map_some, hi, hj]
  rfl

theorem nodup_keptPairs (valid : g.Valid) (reach : Reach g.snapshot.size) :
    (g.keptPairs reach).Nodup := by
  have labels := valid.nodup_edgePairs
  rw [← map_label_numbers valid] at labels
  exact (List.Nodup.of_map _ labels).filter _

theorem Copies.copiedPairs_eq {pairs : List (Fin g.snapshot.size × Fin g.snapshot.size)}
    (copies : Copies flags g c pairs) : c.copiedPairs = c.edgePairs := by
  rw [← map_label_numbers copies.valid, copiedPairs, spots]
  simp only [copies.label]

theorem mem_copiedPairs (valid : g.Valid) {s t : Vertex} :
    (s, t) ∈ g.copiedPairs ↔ g.Copied s t := by
  rw [copied_iff valid, copiedPairs, mem_spots]
  refine exists_congr fun i => exists_congr fun j => and_congr_left fun _ => ?_
  simp only [List.mem_filterMap, endNumbers?_eq_some, valid.joined_iff]
  constructor
  · exact fun ⟨e, _, link, found, ends⟩ => ⟨e, link, found, ends⟩
  · exact fun ⟨e, link, found, ends⟩ =>
      ⟨e, Arena.mem_handles.mpr (containsEdge_iff.mpr ⟨link, found⟩), link, found, ends⟩

/-! ## Payloads by place -/

/-- The vertices have the same place in storage order. -/
def SamePlace (g g' : Graph N E) (v v' : Vertex) : Prop := (v, v') ∈ g.vertexList.zip g'.vertexList

/-- Each edge of the second graph has the payload of an edge of the first that joins the vertices in
the places of its ends. -/
def Inherits (g g' : Graph N E) : Prop :=
  ∀ e' link', g'.edges.get? e' = some link' → ∃ e link, g.edges.get? e = some link ∧
    SamePlace g g' link.source link'.source ∧ SamePlace g g' link.target link'.target ∧
    link'.payload = link.payload

theorem Copies.samePlace {pairs : List (Fin g.snapshot.size × Fin g.snapshot.size)}
    (copies : Copies flags g c pairs) (i : Fin g.snapshot.size) :
    SamePlace g c (g.snapshot.label i) (spot i) := by
  have here : g.vertexList[i.val]? = some (g.snapshot.label i) := List.getElem?_eq_getElem i.isLt
  have there : c.vertexList[i.val]? = some (spot i) := by
    rw [copies.vertexList, List.getElem?_map, List.getElem?_range i.isLt]
    rfl
  refine List.mem_of_getElem? (i := i.val) ?_
  rw [List.getElem?_zip_eq_some]
  exact ⟨here, there⟩

/-- A copied edge that stands for one of the graph has its payload. -/
theorem Copies.inherits {pairs : List (Fin g.snapshot.size × Fin g.snapshot.size)}
    (copies : Copies .all g c pairs) (valid : g.Valid) {e' : Edge} {link' : Link E}
    (found : c.edges.get? e' = some link') (copied : g.Copied link'.source link'.target) :
    ∃ e link, g.edges.get? e = some link ∧ SamePlace g c link.source link'.source ∧
      SamePlace g c link.target link'.target ∧ link'.payload = link.payload := by
  obtain ⟨i, j, joined, source, target⟩ := (Graph.copied_iff valid).mp copied
  obtain ⟨e, link, entry, ends⟩ := valid.joined_iff.mp joined
  have between : c.edge? (spot i) (spot j) = some e' := by
    rw [source, target]
    exact copies.valid.edge?_ends found
  have payload := copies.edgePayload? rfl e link i j entry ends e' between
  rw [Graph.edgePayload?, found, Option.map_some, Option.some.injEq] at payload
  obtain ⟨source', target'⟩ := Prod.mk.inj ends
  refine ⟨e, link, entry, ?_, ?_, payload⟩
  · rw [← source, source']
    exact copies.samePlace i
  · rw [← target, target']
    exact copies.samePlace j

/-- A copy of a copy keeps every vertex in its place. -/
theorem Copies.vertexList_eq {pairs : List (Fin g.snapshot.size × Fin g.snapshot.size)}
    {pairs' : List (Fin c.snapshot.size × Fin c.snapshot.size)} (copies : Copies flags g c pairs)
    (copies' : Copies flags' c r pairs') : r.vertexList = c.vertexList := by
  rw [copies'.vertexList, copies.size, copies.vertexList]

theorem Copies.eq_of_samePlace {pairs : List (Fin g.snapshot.size × Fin g.snapshot.size)}
    {pairs' : List (Fin c.snapshot.size × Fin c.snapshot.size)} (copies : Copies flags g c pairs)
    (copies' : Copies flags' c r pairs') {v v' : Vertex} (same : SamePlace c r v v') : v = v' := by
  obtain ⟨i, here⟩ := List.mem_iff_getElem?.mp same
  rw [List.getElem?_zip_eq_some, copies.vertexList_eq copies'] at here
  exact Option.some.inj (here.1.symm.trans here.2)

/-! ## The closure -/

/-- Pairs in the order in which a closure joins them. -/
def Ahead (p q : Vertex × Vertex) : Prop :=
  p.1.index < q.1.index ∨ p.1.index = q.1.index ∧ p.2.index < q.2.index

theorem Ahead.asymm (p q : Vertex × Vertex) (ahead : Ahead p q) : ¬ Ahead q p := by
  unfold Ahead at *
  omega

/-- All chains of a graph by the vertices that stand for their ends, in the order in which a closure
joins them. -/
structure ListsChains (g : Graph N E) (all : List (Vertex × Vertex)) : Prop where
  sorted : all.Pairwise Ahead
  mem_iff : ∀ s t, (s, t) ∈ all ↔ TransGen g.Copied s t

theorem ListsChains.eq {N' E' : Type} {g' : Graph N' E'} {all all' : List (Vertex × Vertex)}
    (lists : ListsChains g all) (lists' : ListsChains g' all')
    (same : ∀ s t, TransGen g.Copied s t ↔ TransGen g'.Copied s t) : all = all' := by
  have antisymm : Std.Antisymm Ahead := ⟨fun p q first second => absurd second (first.asymm p q)⟩
  have irrefl : Std.Irrefl Ahead := ⟨fun p ahead => ahead.asymm p p ahead⟩
  refine List.Pairwise.eq_of_mem_iff lists.sorted lists'.sorted fun (s, t) => ?_
  rw [lists.mem_iff, same, lists'.mem_iff]

variable [Inhabited N] [Inhabited E]

theorem closure_spec (valid : g.Valid) (closed : g.transitiveClosure flags = .ok c) :
    ∃ pairs, Copies flags g c pairs ∧ ListsChains g (spots pairs) := by
  obtain ⟨reach, found, rfl⟩ := exists_reach_of_closure closed
  refine ⟨reach.pairs, copies_copyPayloads valid _ reach.nodup_pairs, ?_, fun s t => ?_⟩
  · refine List.pairwise_map.mpr (reach.sorted_pairs.imp ?_)
    rintro ⟨u, w⟩ ⟨u', w'⟩ (lt | ⟨same, lt⟩)
    · exact .inl lt
    · exact .inr ⟨congrArg Fin.val same, lt⟩
  · rw [mem_spots, transGen_copied]
    simp only [Reach.mem_pairs, Digraph.reach?_eq_some found]

/-- The edges of a closure are chains, and all of them as long as there are handles. -/
theorem joined_of_closure (valid : g.Valid) (closed : g.transitiveClosure .all = .ok c) :
    (∀ s t, c.Joined s t → TransGen g.Copied s t) ∧
      (c.edgeCount < Handle.nullIndex → ∀ s t, TransGen g.Copied s t → c.Joined s t) := by
  obtain ⟨pairs, copies, lists⟩ := closure_spec valid closed
  refine ⟨fun s t joined => ?_, fun room s t chain => ?_⟩
  · exact (lists.mem_iff s t).mp (List.mem_of_mem_take (copies.joined_iff.mp joined))
  · rw [← copies.valid.length_edgePairs, copies.edgePairs, List.length_take] at room
    rw [copies.joined_iff, List.take_of_length_le (by omega), lists.mem_iff]
    exact chain

theorem transGen_of_closure (valid : g.Valid) (closed : g.transitiveClosure .all = .ok c)
    {s t : Vertex} (chain : TransGen c.Joined s t) : TransGen g.Copied s t := by
  have subrelation : c.Joined ≤ TransGen g.Copied := (joined_of_closure valid closed).1
  exact TransGen.closed subrelation s t chain

theorem acyclic_of_closure (valid : g.Valid) (closed : g.transitiveClosure .all = .ok c)
    (v : Vertex) : ¬ TransGen c.Joined v v := by
  have acyclic := (transitiveClosure_ok_iff valid .all).mp ⟨c, closed⟩
  exact fun cycle => acyclic_copied valid acyclic v (transGen_of_closure valid closed cycle)

/-- A closure is closed, also when it ran out of handles: its chains are chains of the graph, so the
same ones come first again. -/
theorem closure_of_closure (valid : g.Valid) (closed : g.transitiveClosure .all = .ok c) :
    c.transitiveClosure .all = .ok c := by
  obtain ⟨pairs, copies, lists⟩ := closure_spec valid closed
  obtain ⟨c', closed'⟩ :=
    (transitiveClosure_ok_iff copies.valid .all).mpr (acyclic_of_closure valid closed)
  obtain ⟨pairs', copies', lists'⟩ := closure_spec copies.valid closed'
  have start : (spots pairs').take Handle.nullIndex = (spots pairs).take Handle.nullIndex := by
    refine take_eq_of_sorted Ahead.asymm _ lists.sorted lists'.sorted ?_ ?_
    · intro (s, t) listed
      rw [lists'.mem_iff, copies.copied_eq] at listed
      exact (lists.mem_iff s t).mpr (transGen_of_closure valid closed listed)
    · intro (s, t) listed
      rw [lists'.mem_iff, copies.copied_eq]
      exact .single (copies.joined_iff.mpr listed)
  rw [closed', copies.eq_self copies' (by rw [copies'.edgePairs, start, copies.edgePairs])]

/-! ## The reduction -/

open Classical in
theorem reduction_spec (valid : g.Valid) (reduced : g.transitiveReduction flags = .ok r) :
    ∃ pairs, Copies flags g r pairs ∧
      r.edgePairs = g.copiedPairs.filter (fun p => ¬ Detour g.Copied p.1 p.2) ∧
      ∀ s t, TransGen r.Joined s t ↔ TransGen g.Copied s t := by
  obtain ⟨removed, reduced⟩ := exists_removed reduced
  obtain ⟨reach, reduction, found, built, copied, -⟩ := exists_reach_of_reduction reduced
  have acyclic := (reach?_snapshot_isSome_iff valid).mp (Option.isSome_of_eq_some found)
  have implied : ∀ i j, g.snapshot.digraph.implied reach i j = true ↔
      Detour g.Copied (spot i) (spot j) := by
    intro i j
    rw [Digraph.implied_iff found, detour_copied,
      detour_iff_first (valid.acyclic_snapshot.mpr acyclic)]
  have copies : Copies flags g r (g.keptPairs reach) := by
    subst copied built
    exact copies_copyPayloads valid _ (nodup_keptPairs valid reach)
  have few : (spots (g.keptPairs reach)).length ≤ Handle.nullIndex := by
    rw [spots, List.length_map]
    exact valid.length_keptPairs_le reach
  have pairs := copies.edgePairs
  rw [List.take_of_length_le few] at pairs
  refine ⟨g.keptPairs reach, copies, ?_, fun s t => ?_⟩
  · rw [pairs, spots, keptPairs, copiedPairs, spots, List.filter_map]
    refine congrArg (List.map _) (List.filter_congr fun pair _ => ?_)
    rw [Bool.eq_iff_iff, Bool.not_eq_true', Function.comp_apply, decide_eq_true_iff, ← implied,
      Bool.not_eq_true]
  · have joined : r.Joined = Relation.Map (fun i j => g.snapshot.digraph.Edge i j ∧
        g.snapshot.digraph.implied reach i j = false) (fun i => spot i) fun i => spot i := by
      funext s t
      rw [← copies.valid.mem_edgePairs, pairs, mem_spots]
      simp only [mem_keptPairs valid, ← valid.edge_snapshot]
      rfl
    rw [joined, transGen_map fun _ _ => spot_inj, transGen_copied]
    simp only [Digraph.transGen_kept found]

open Classical in
/-- The edges of a reduction are the chains with nothing in between. -/
theorem joined_of_reduction (valid : g.Valid) (reduced : g.transitiveReduction flags = .ok r)
    {s t : Vertex} : r.Joined s t ↔ TransGen g.Copied s t ∧ ¬ Detour g.Copied s t := by
  obtain ⟨pairs, copies, listed, -⟩ := reduction_spec valid reduced
  rw [← copies.valid.mem_edgePairs, listed, List.mem_filter, decide_eq_true_iff,
    mem_copiedPairs valid]
  refine and_congr_left fun direct => ?_
  exact ⟨fun copied => .single copied, fun chain => step_of_no_detour chain direct⟩

theorem exists_reduction (valid : g.Valid) (acyclic : ∀ v, ¬ TransGen g.Joined v v) :
    ∃ r, g.transitiveReduction .all = .ok r := by
  obtain ⟨result, reduced⟩ := (transitiveReduction_ok_iff valid .all).mpr acyclic
  exact ⟨result.1, by rw [transitiveReduction, reduced]; rfl⟩

theorem acyclic_of_reduction (valid : g.Valid) (acyclic : ∀ v, ¬ TransGen g.Joined v v)
    (reduced : g.transitiveReduction flags = .ok r) (v : Vertex) : ¬ TransGen r.Joined v v := by
  obtain ⟨-, -, -, chains⟩ := reduction_spec valid reduced
  exact fun cycle => acyclic_copied valid acyclic v ((chains v v).mp cycle)

open Classical in
/-- A reduction is reduced: what is left has no detour over what is left. -/
theorem reduction_of_reduction (valid : g.Valid) (acyclic : ∀ v, ¬ TransGen g.Joined v v)
    (reduced : g.transitiveReduction .all = .ok r) : r.transitiveReduction .all = .ok r := by
  obtain ⟨pairs, copies, listed, chains⟩ := reduction_spec valid reduced
  obtain ⟨r', reduced'⟩ :=
    exists_reduction copies.valid (acyclic_of_reduction valid acyclic reduced)
  obtain ⟨pairs', copies', listed', -⟩ := reduction_spec copies.valid reduced'
  have kept : r'.edgePairs = r.edgePairs := by
    rw [listed', copies.copiedPairs_eq, copies.copied_eq]
    refine List.filter_eq_self.mpr fun (s, t) edge => ?_
    have joined := copies.valid.mem_edgePairs.mp edge
    rw [decide_eq_true_iff, Detour.congr chains]
    exact ((joined_of_reduction valid reduced).mp joined).2
  rw [reduced', copies.eq_self copies' kept]

/-! ## One made from the other -/

theorem closure_of_reduction (valid : g.Valid) (closed : g.transitiveClosure .all = .ok c)
    (reduced : g.transitiveReduction .all = .ok r) :
    ∃ c', r.transitiveClosure .all = .ok c' ∧ c'.edgePairs = c.edgePairs := by
  have acyclic := (transitiveClosure_ok_iff valid .all).mp ⟨c, closed⟩
  obtain ⟨_, copies, -, chains⟩ := reduction_spec valid reduced
  obtain ⟨c', closed'⟩ :=
    (transitiveClosure_ok_iff copies.valid .all).mpr (acyclic_of_reduction valid acyclic reduced)
  obtain ⟨pairs, closure_copies, lists⟩ := closure_spec valid closed
  obtain ⟨pairs', closure_copies', lists'⟩ := closure_spec copies.valid closed'
  have same : spots pairs' = spots pairs := by
    refine lists'.eq lists fun s t => ?_
    rw [copies.copied_eq, chains]
  exact ⟨c', closed', by rw [closure_copies'.edgePairs, same, closure_copies.edgePairs]⟩

theorem reduction_of_closure (valid : g.Valid) (closed : g.transitiveClosure .all = .ok c)
    (reduced : g.transitiveReduction .all = .ok r) :
    ∃ r', c.transitiveReduction .all = .ok r' ∧ (c.edgeCount < Handle.nullIndex →
      (∀ p, p ∈ r'.edgePairs ↔ p ∈ r.edgePairs) ∧ Inherits g r') := by
  obtain ⟨_, copies, -⟩ := closure_spec valid closed
  obtain ⟨_, copies_r, -⟩ := reduction_spec valid reduced
  obtain ⟨r', reduced'⟩ := exists_reduction copies.valid (acyclic_of_closure valid closed)
  obtain ⟨_, copies', -⟩ := reduction_spec copies.valid reduced'
  refine ⟨r', reduced', fun room => ?_⟩
  have same : ∀ s t, TransGen c.Copied s t ↔ TransGen g.Copied s t := by
    intro s t
    rw [copies.copied_eq]
    exact ⟨transGen_of_closure valid closed, fun chain =>
      .single ((joined_of_closure valid closed).2 room s t chain)⟩
  have joined_iff : ∀ s t, r'.Joined s t ↔ r.Joined s t := by
    intro s t
    rw [joined_of_reduction copies.valid reduced', joined_of_reduction valid reduced, same,
      Detour.congr same]
  refine ⟨fun (s, t) => ?_, fun e' link' found => ?_⟩
  · rw [copies'.valid.mem_edgePairs, copies_r.valid.mem_edgePairs, joined_iff]
  · have joined : r'.Joined link'.source link'.target :=
      copies'.valid.joined_iff.mpr ⟨e', link', found, rfl⟩
    obtain ⟨chain, direct⟩ := (joined_of_reduction valid reduced).mp ((joined_iff _ _).mp joined)
    obtain ⟨chain', direct'⟩ := (joined_of_reduction copies.valid reduced').mp joined
    obtain ⟨e₁, link₁, found₁, source₁, target₁, payload₁⟩ :=
      copies'.inherits copies.valid found (step_of_no_detour chain' direct')
    have same_source := copies.eq_of_samePlace copies' source₁
    have same_target := copies.eq_of_samePlace copies' target₁
    have copied : g.Copied link₁.source link₁.target := by
      rw [same_source, same_target]
      exact step_of_no_detour chain direct
    obtain ⟨e, link, entry, source, target, payload⟩ := copies.inherits valid found₁ copied
    refine ⟨e, link, entry, ?_, ?_, payload₁.trans payload⟩
    · rwa [SamePlace, copies.vertexList_eq copies', ← same_source]
    · rwa [SamePlace, copies.vertexList_eq copies', ← same_target]

/-! ## Two graphs -/

section

variable {N' E' : Type} [Inhabited N'] [Inhabited E'] {g' c' r' : Graph N' E'}

/-- Reductions with the same edges belong to graphs with the same chains. -/
theorem closure_of_same_reduction (valid : g.Valid) (valid' : g'.Valid)
    (closed : g.transitiveClosure .all = .ok c) (closed' : g'.transitiveClosure .all = .ok c')
    (reduced : g.transitiveReduction .all = .ok r) (reduced' : g'.transitiveReduction .all = .ok r')
    (same : ∀ p, p ∈ r.edgePairs ↔ p ∈ r'.edgePairs) : c.edgePairs = c'.edgePairs := by
  obtain ⟨_, copies, lists⟩ := closure_spec valid closed
  obtain ⟨_, copies', lists'⟩ := closure_spec valid' closed'
  obtain ⟨_, copies_r, -, chains⟩ := reduction_spec valid reduced
  obtain ⟨_, copies_r', -, chains'⟩ := reduction_spec valid' reduced'
  have joined_eq : r.Joined = r'.Joined := by
    funext s t
    rw [← copies_r.valid.mem_edgePairs, same, copies_r'.valid.mem_edgePairs]
  have all_eq := lists.eq lists' fun s t => by rw [← chains, ← chains', joined_eq]
  rw [copies.edgePairs, copies'.edgePairs, all_eq]

/-- Closures with the same edges, and all of them, belong to graphs with the same reduction. -/
theorem reduction_of_same_closure (valid : g.Valid) (valid' : g'.Valid)
    (closed : g.transitiveClosure .all = .ok c) (closed' : g'.transitiveClosure .all = .ok c')
    (reduced : g.transitiveReduction .all = .ok r) (reduced' : g'.transitiveReduction .all = .ok r')
    (room : c.edgeCount < Handle.nullIndex) (same : c.edgePairs = c'.edgePairs)
    (p : Vertex × Vertex) : p ∈ r.edgePairs ↔ p ∈ r'.edgePairs := by
  obtain ⟨_, copies, -⟩ := closure_spec valid closed
  obtain ⟨_, copies', -⟩ := closure_spec valid' closed'
  obtain ⟨_, copies_r, -⟩ := reduction_spec valid reduced
  obtain ⟨_, copies_r', -⟩ := reduction_spec valid' reduced'
  have room' : c'.edgeCount < Handle.nullIndex := by
    rwa [← copies'.valid.length_edgePairs, ← same, copies.valid.length_edgePairs]
  have chains : ∀ s t, TransGen g.Copied s t ↔ TransGen g'.Copied s t := by
    obtain ⟨only, all⟩ := joined_of_closure valid closed
    obtain ⟨only', all'⟩ := joined_of_closure valid' closed'
    have joined_iff : ∀ s t, c.Joined s t ↔ c'.Joined s t := fun s t => by
      rw [← copies.valid.mem_edgePairs, same, copies'.valid.mem_edgePairs]
    exact fun s t => ⟨fun chain => only' s t ((joined_iff s t).mp (all room s t chain)),
      fun chain => only s t ((joined_iff s t).mpr (all' room' s t chain))⟩
  obtain ⟨s, t⟩ := p
  rw [copies_r.valid.mem_edgePairs, copies_r'.valid.mem_edgePairs,
    joined_of_reduction valid reduced, joined_of_reduction valid' reduced', chains, Detour.congr chains]

end

/-- Closing a closure and reducing a reduction change nothing, the reduction can be closed instead
of the graph, and the closure can be reduced instead of the graph unless it ran out of handles. Then
the edges have the payloads that they have in the graph. Graphs have the same closure exactly if
they have the same reduction. -/
theorem closing_and_reducing (reached : g.Reached) (acyclic : ∀ v, ¬ TransGen g.Joined v v) :
    ∃ c r : Graph N E, g.transitiveClosure .all = .ok c ∧ g.transitiveReduction .all = .ok r ∧
      c.transitiveClosure .all = .ok c ∧ r.transitiveReduction .all = .ok r ∧
      (∃ c₂, r.transitiveClosure .all = .ok c₂ ∧ c₂.edgePairs = c.edgePairs) ∧
      (∃ r₂, c.transitiveReduction .all = .ok r₂ ∧ (c.edgeCount < Handle.nullIndex →
        (∀ p, p ∈ r₂.edgePairs ↔ p ∈ r.edgePairs) ∧ Inherits g r₂)) ∧
      ∀ {N' E' : Type} [Inhabited N'] [Inhabited E'] (g' : Graph N' E'), g'.Reached →
        (∀ v, ¬ TransGen g'.Joined v v) → ∃ c' r',
          g'.transitiveClosure .all = .ok c' ∧ g'.transitiveReduction .all = .ok r' ∧
          ((∀ p, p ∈ r.edgePairs ↔ p ∈ r'.edgePairs) → c.edgePairs = c'.edgePairs) ∧
          (c.edgeCount < Handle.nullIndex → c.edgePairs = c'.edgePairs →
            ∀ p, p ∈ r.edgePairs ↔ p ∈ r'.edgePairs) := by
  have valid := reached.valid
  obtain ⟨c, closed⟩ := (transitiveClosure_ok_iff valid .all).mpr acyclic
  obtain ⟨r, reduced⟩ := exists_reduction valid acyclic
  refine ⟨c, r, closed, reduced, closure_of_closure valid closed,
    reduction_of_reduction valid acyclic reduced, closure_of_reduction valid closed reduced,
    reduction_of_closure valid closed reduced, fun g' reached' acyclic' => ?_⟩
  have valid' := reached'.valid
  obtain ⟨c', closed'⟩ := (transitiveClosure_ok_iff valid' .all).mpr acyclic'
  obtain ⟨r', reduced'⟩ := exists_reduction valid' acyclic'
  exact ⟨c', r', closed', reduced',
    closure_of_same_reduction valid valid' closed closed' reduced reduced',
    reduction_of_same_closure valid valid' closed closed' reduced reduced'⟩

/-- Three vertices, one of them in a slot used before, and an edge that a chain implies. -/
theorem closing_and_reducing_shortcut :
    let g := (empty .parentToChild : Graph Nat Nat).after
      [.addVertexWith 0, .addVertexWith 1, .removeVertex ⟨0, 0⟩, .addVertexWith 2, .addVertexWith 3,
        .addEdgeWith ⟨1, 0⟩ ⟨2, 0⟩ 13, .addEdgeWith ⟨1, 0⟩ ⟨0, 1⟩ 12, .addEdgeWith ⟨0, 1⟩ ⟨2, 0⟩ 23]
    ∃ c r r₂, g.transitiveClosure .all = .ok c ∧ g.transitiveReduction .all = .ok r ∧
      c.transitiveClosure .all = .ok c ∧ r.transitiveReduction .all = .ok r ∧
      c.transitiveReduction .all = .ok r₂ ∧ (∀ p, p ∈ r₂.edgePairs ↔ p ∈ r.edgePairs) ∧
      Inherits g r₂ ∧ r.edgePairs = [(⟨1, 0⟩, ⟨0, 0⟩), (⟨0, 0⟩, ⟨2, 0⟩)] := by
  intro g
  have reached : g.Reached := ⟨_, _, rfl⟩
  have acyclic : ∀ v, ¬ TransGen g.Joined v v := by
    refine (isAcyclic_iff reached.valid).mp ?_
    dsimp only [g]
    cbv
  have count : (g.transitiveClosure .all).map edgeCount = .ok 3 := by
    dsimp only [g]
    cbv
  have pairs : (g.transitiveReduction .all).map edgePairs =
      .ok [(⟨1, 0⟩, ⟨0, 0⟩), (⟨0, 0⟩, ⟨2, 0⟩)] := by
    dsimp only [g]
    cbv
  obtain ⟨c, r, closed, reduced, closed', reduced', -, ⟨r₂, reduced₂, same⟩, -⟩ :=
    closing_and_reducing reached acyclic
  rw [closed] at count
  rw [reduced] at pairs
  have room : c.edgeCount < Handle.nullIndex := by
    rw [Except.ok.inj count]
    decide
  exact ⟨c, r, r₂, closed, reduced, closed', reduced', reduced₂, (same room).1, (same room).2,
    Except.ok.inj pairs⟩
end Graph

end Provenance
