import Mathlib
import Provenance.Proofs.Graph.Copied
import Provenance.Proofs.History.FirstFiles
import Provenance.Proofs.History.TakenOut

/-! # Collected actions

The actions of a derivation are those recorded for it since a reduction last took it out, one record
after the other. Nothing but a record of the derivation and taking it out makes a difference to
them.
-/

namespace Provenance

/-! ## Payloads -/

namespace Graph

variable {N E : Type} [Inhabited E] {g g' : Graph N E} {s t : Vertex} {e : Edge}

theorem payloadBetween_congr (between : g'.between = g.between) (edges : g'.edges = g.edges)
    (s t : Vertex) : g'.payloadBetween s t = g.payloadBetween s t := by
  have payloads : g'.edgePayload? = g.edgePayload? := by
    funext e
    rw [edgePayload?, edges, edgePayload?]
  rw [payloadBetween, payloadBetween, edge?, edge?, between, payloads]

theorem payloadBetween_of_apart (apart : g.edge? s t = none) :
    g.payloadBetween s t = default := by
  rw [payloadBetween, apart]
  rfl

theorem payloadBetween_modifyEdge (valid : g.Valid) (found : g.edge? s t = some e) (f : E → E)
    (v w : Vertex) :
    (g.modifyEdge e f).payloadBetween v w =
      if (v, w) = (s, t) then f (g.payloadBetween s t) else g.payloadBetween v w := by
  obtain ⟨payload, stored⟩ := (valid.edge?_eq_some _ _ _).mp found
  have same : (g.modifyEdge e f).edge? v w = g.edge? v w := rfl
  rw [payloadBetween, same]
  split
  next ends =>
    obtain ⟨rfl, rfl⟩ := Prod.mk.inj ends
    have held : g.edgePayload? e = some payload := by rw [edgePayload?, stored]; rfl
    simp only [payloadBetween, found, Option.bind_some, edgePayload?_modifyEdge, if_true, held,
      Option.map_some, Option.getD_some]
  next other =>
    rw [payloadBetween]
    cases found' : g.edge? v w with
    | none => rfl
    | some e' =>
        have apart : e' ≠ e := by
          rintro rfl
          obtain ⟨payload', stored'⟩ := (valid.edge?_eq_some _ _ _).mp found'
          have link := Option.some.inj (stored'.symm.trans stored)
          injection link with source target
          exact other (Prod.ext source target)
        rw [Option.bind_some, Option.bind_some, edgePayload?_modifyEdge, if_neg apart]

theorem payloadBetween_joinWith (valid : g.Valid) (room : g.edges.isFull = false) (payload : E)
    (v w : Vertex) :
    (g.joinWith s t payload).2.payloadBetween v w =
      if (v, w) = (s, t) then payload else g.payloadBetween v w := by
  rw [payloadBetween, edge?_joinWith room]
  split
  next => simp [edgePayload?, get?_edges_joinWith valid room]
  next =>
    rw [payloadBetween]
    cases found : g.edge? v w with
    | none => rfl
    | some e =>
        have old : e ≠ (g.joinWith s t payload).1 := by
          rintro rfl
          obtain ⟨payload', stored⟩ := (valid.edge?_eq_some _ _ _).mp found
          rw [joinWith_fresh valid room] at stored
          cases stored
        rw [Option.bind_some, Option.bind_some, edgePayload?, get?_edges_joinWith valid room,
          if_neg old, edgePayload?]

end Graph

namespace History

variable {h h' : History} {p c : Vertex} {a b : ImageId} {cs : List Change}

/-! ## Single changes -/

/-- The actions of the derivation of `c` from `p`, of which there are none if it is not recorded. -/
def actionsAt (h : History) (p c : Vertex) : List Action :=
  (h.graph.payloadBetween (h.orient p c).1 (h.orient p c).2).actions

/-- What a change adds to the actions of the derivation of `c` from `p`. -/
def added (h : History) (p c : Vertex) : Change → List Action
  | .addDerivation parent child actions =>
      if h.vertexFor? parent = some p ∧ h.vertexFor? child = some c then actions else []
  | .addImage _ | .addDuplicate _ _ | .addRelations _ | .reduceEdges => []

/-- A reduction of the history would take out the derivation of `c` from `p`. -/
def ReducedAway (h : History) (p c : Vertex) : Prop :=
  h.Parent p c ∧ ¬ (h.after [.reduceEdges]).Parent p c

theorem actionsAt_of_no_parent (apart : ¬ h.Parent p c) : h.actionsAt p c = [] := by
  have none_found : h.graph.edge? (h.orient p c).1 (h.orient p c).2 = none :=
    Option.not_isSome_iff_eq_none.mp apart
  rw [actionsAt, Graph.payloadBetween_of_apart none_found]
  rfl

theorem actionsAt_addImage (h : History) (id : ImageId) (p c : Vertex) :
    (h.addImage id).2.actionsAt p c = h.actionsAt p c := by
  cases found : h.vertexFor? id with
  | some v => rw [addImage_of_known found]
  | none =>
      rw [addImage_of_unknown found]
      exact congrArg Derivation.actions (Graph.payloadBetween_congr (by simp) (by simp) _ _)

theorem actionsAt_addDuplicate (taken : h.addDuplicate a b = .ok h') (p c : Vertex) :
    h'.actionsAt p c = h.actionsAt p c := by
  obtain ⟨v, found, absent | found'⟩ := addDuplicate_eq_ok_iff.mp ⟨h', taken⟩
  · rw [addDuplicate_of_new found absent] at taken
    obtain rfl := Except.ok.inj taken
    exact congrArg Derivation.actions (Graph.payloadBetween_congr rfl rfl _ _)
  · rw [addDuplicate_of_known found found', if_pos rfl] at taken
    rw [Except.ok.inj taken]

theorem payloadBetween_recorded {g : Graph Version Derivation} (valid : g.Valid) {s t : Vertex}
    {actions : List Action}
    (told : actions = [] ∨ ((recorded g s t actions).2.edge? s t).isSome) (v w : Vertex) :
    ((recorded g s t actions).2.payloadBetween v w).actions =
      (g.payloadBetween v w).actions ++ if (v, w) = (s, t) then actions else [] := by
  revert told
  unfold recorded
  cases found : g.edge? s t with
  | some e =>
      intro told
      dsimp only
      rw [Graph.payloadBetween_modifyEdge valid found]
      split
      next ends =>
        obtain ⟨rfl, rfl⟩ := Prod.mk.inj ends
        rfl
      next => rw [List.append_nil]
  | none =>
      intro told
      dsimp only at told ⊢
      have nothing : (if (v, w) = (s, t) then ([] : List Action) else []) = [] := ite_self []
      cases live : g.containsVertex s && g.containsVertex t with
      | false =>
          rw [Graph.addEdgeWith_of_dead live, found] at told
          obtain rfl := told.resolve_right nofun
          rw [Graph.addEdgeWith_of_dead live, nothing, List.append_nil]
      | true =>
          obtain ⟨source, target⟩ := Bool.and_eq_true_iff.mp live
          rw [Graph.addEdgeWith_of_apart source target found] at told ⊢
          cases room : g.edges.isFull with
          | true =>
              rw [Graph.joinWith_of_full room, found] at told
              obtain rfl := told.resolve_right nofun
              rw [Graph.joinWith_of_full room, nothing, List.append_nil]
          | false =>
              rw [Graph.payloadBetween_joinWith valid room]
              split
              next ends =>
                obtain ⟨rfl, rfl⟩ := Prod.mk.inj ends
                rw [Graph.payloadBetween_of_apart found]
                rfl
              next => rw [List.append_nil]

/-- A derivation can only be lost if it is a new one and there is no handle for it. -/
theorem Valid.actionsAt_recorded (valid : h.Valid) {p' c' : Vertex} {actions : List Action}
    (told : actions = [] ∨ Parent
      { h with graph := (recorded h.graph (h.orient p' c').1 (h.orient p' c').2 actions).2 } p' c')
    (p c : Vertex) :
    actionsAt { h with graph :=
        (recorded h.graph (h.orient p' c').1 (h.orient p' c').2 actions).2 } p c =
      h.actionsAt p c ++ if p' = p ∧ c' = c then actions else [] := by
  have same : ((h.orient p c).1, (h.orient p c).2) = ((h.orient p' c').1, (h.orient p' c').2) ↔
      p' = p ∧ c' = c := by
    constructor
    · intro ends
      obtain ⟨rfl, rfl⟩ := orient_inj ends
      exact ⟨rfl, rfl⟩
    · rintro ⟨rfl, rfl⟩
      rfl
  rw [actionsAt, actionsAt, ← if_congr same rfl rfl]
  exact payloadBetween_recorded valid.graph told _ _

/-- A record without actions can make a derivation, but it adds nothing to one. -/
theorem Valid.actionsAt_addRelations (valid : h.Valid) (records : List Relation) (p c : Vertex) :
    (h.addRelations records).actionsAt p c = h.actionsAt p c := by
  induction records generalizing h with
  | nil => rfl
  | cons r rs ih =>
      have first := grows_addImage valid r.object
      have second := grows_addImage first.valid r.subject
      have here : (h.addDerivation r.object r.subject []).2.actionsAt p c = h.actionsAt p c := by
        rw [addDerivation_eq]
        dsimp only
        rw [second.valid.actionsAt_recorded (.inl rfl), ite_self, List.append_nil,
          actionsAt_addImage, actionsAt_addImage]
      exact (ih (grows_addDerivation valid r.object r.subject []).valid).trans here

theorem Valid.actionsAt_addDerivation (valid : h.Valid) (actions : List Action)
    (room : (h.addDerivation a b actions).2.size < Handle.nullIndex)
    (edge_room : (h.addDerivation a b actions).2.graph.edgeCount < Handle.nullIndex)
    (p c : Vertex) :
    (h.addDerivation a b actions).2.actionsAt p c =
      h.actionsAt p c ++
        (h.addDerivation a b actions).2.added p c (.addDerivation a b actions) := by
  have first := grows_addImage valid a
  have second := grows_addImage first.valid b
  have placed := (placed_addImage valid a).grow second
  have placed' := placed_addImage first.valid b
  have before : ((h.addImage a).2.addImage b).2.actionsAt p c = h.actionsAt p c := by
    rw [actionsAt_addImage, actionsAt_addImage]
  rw [addDerivation_eq] at room edge_room ⊢
  dsimp only at room edge_room ⊢
  generalize ((h.addImage a).2.addImage b).2 = h₂ at *
  generalize (h.addImage a).1 = p' at *
  generalize ((h.addImage a).2.addImage b).1 = c' at *
  have recorded := grows_recorded second.valid (h₂.orient p' c').1 (h₂.orient p' c').2 actions
  have roomy := Nat.lt_of_le_of_lt recorded.size_le room
  have holds_a : h₂.Holds p' a := placed.resolve_right fun full => by omega
  have holds_b : h₂.Holds c' b := placed'.resolve_right fun full => by omega
  have live := h₂.live_orient p' c'
  rw [holds_a.live, holds_b.live, Bool.and_self, Bool.and_eq_true_iff] at live
  have joins := joins_recorded second.valid.graph live.1 live.2 actions
  have joined := joins.all (.inr edge_room) _ _ (List.mem_singleton_self _)
  have found_a := recorded.valid.vertexFor?_eq_some.mpr (recorded.keeps _ _ holds_a)
  have found_b := recorded.valid.vertexFor?_eq_some.mpr (recorded.keeps _ _ holds_b)
  rw [second.valid.actionsAt_recorded (.inr joined), before]
  simp only [added, found_a, found_b, Option.some.injEq]

theorem Valid.actionsAt_reduceEdges (valid : h.Valid) (kept : ¬ h.ReducedAway p c) :
    (h.after [.reduceEdges]).actionsAt p c = h.actionsAt p c := by
  cases reduced : h.reduceEdges with
  | error cause => simp [after, Change.apply, reduced, Except.map]
  | ok result =>
      obtain ⟨removed, h'⟩ := result
      have here : h.after [.reduceEdges] = h' := by simp [after, Change.apply, reduced, Except.map]
      rw [ReducedAway, here, valid.parent_reduceEdges reduced] at kept
      obtain ⟨gone, -, dropped⟩ := valid.exists_dropped reduced
      rw [here, actionsAt, actionsAt, dropped.orient, dropped.graph,
        Graph.payloadBetween_of_kept valid.graph fun e stored listed => ?_]
      have parent : h.Parent p c := Option.isSome_of_eq_some stored
      exact kept ⟨parent, fun stays => stays.2 ((dropped.mem_gone_iff stored).mp listed)⟩

/-- What a single change does to the actions of a derivation that it does not take out. -/
theorem Valid.actionsAt_change (valid : h.Valid) (change : Change)
    (room : (h.after [change]).size < Handle.nullIndex)
    (edge_room : (h.after [change]).graph.edgeCount < Handle.nullIndex)
    (kept : change = .reduceEdges → ¬ h.ReducedAway p c) :
    (h.after [change]).actionsAt p c =
      h.actionsAt p c ++ (h.after [change]).added p c change := by
  cases change with
  | addImage id =>
      rw [added, List.append_nil]
      exact actionsAt_addImage h id p c
  | addDuplicate existing duplicate =>
      rw [added, List.append_nil]
      cases taken : h.addDuplicate existing duplicate with
      | error cause => simp [after, Change.apply, taken]
      | ok h' =>
          simp only [after, Change.apply, taken]
          exact actionsAt_addDuplicate taken p c
  | addRelations records =>
      rw [added, List.append_nil]
      exact valid.actionsAt_addRelations records p c
  | addDerivation parent child actions =>
      exact valid.actionsAt_addDerivation actions room edge_room p c
  | reduceEdges =>
      rw [added, List.append_nil]
      exact valid.actionsAt_reduceEdges (kept rfl)

/-! ## Runs -/

theorem after_cons (h : History) (change : Change) (cs : List Change) :
    h.after (change :: cs) = (h.after [change]).after cs :=
  h.after_append [change] cs

/-- Versions stay, so that a change is told later on to have added the same. -/
theorem added_of_grows {ids : List ImageId} (valid : h.Valid) {change : Change}
    (room : (h.after [change]).size < Handle.nullIndex)
    (grows : Grows (h.after [change]) h' ids) (p c : Vertex) :
    h'.added p c change = (h.after [change]).added p c change := by
  cases change with
  | addDerivation parent child actions =>
      have now := grows_addDerivation valid parent child actions
      have same : ∀ id ∈ [parent, child], h'.vertexFor? id =
          (h.addDerivation parent child actions).2.vertexFor? id := by
        intro id named
        obtain ⟨v, found⟩ := Option.isSome_iff_exists.mp (now.present room id named)
        rw [found]
        exact grows.vertexFor? now.valid found
      rw [added, same parent (by simp), same child (by simp)]
      rfl
  | _ => rfl

/-- As long as no reduction takes it out, a derivation collects what is recorded for it. -/
theorem Valid.actionsAt_after (valid : h.Valid) (cs : List Change)
    (room : (h.after cs).size < Handle.nullIndex)
    (edge_room : ∀ earlier, earlier <+: cs →
      (h.after earlier).graph.edgeCount < Handle.nullIndex)
    (kept : ∀ before rest, cs = before ++ .reduceEdges :: rest →
      ¬ (h.after before).ReducedAway p c) :
    (h.after cs).actionsAt p c = h.actionsAt p c ++ cs.flatMap ((h.after cs).added p c) := by
  induction cs generalizing h with
  | nil => simp [after]
  | cons change cs ih =>
      have now := grows_after valid [change]
      have later := grows_after now.valid cs
      rw [after_cons] at room ⊢
      have room_now := Nat.lt_of_le_of_lt later.size_le room
      have edge_room_now := edge_room [change] (List.prefix_append [change] cs)
      have kept_now : change = .reduceEdges → ¬ h.ReducedAway p c := by
        rintro rfl
        exact kept [] cs rfl
      have step := valid.actionsAt_change change room_now edge_room_now kept_now
      have told := ih now.valid room
        (fun earlier listed => after_cons h change earlier ▸
          edge_room (change :: earlier) (List.cons_prefix_cons.mpr ⟨rfl, listed⟩))
        (fun before rest split => after_cons h change before ▸
          kept (change :: before) rest (congrArg (change :: ·) split))
      rw [told, step, List.flatMap_cons, added_of_grows valid room_now later, List.append_assoc]

/-! ## Since a reduction -/

/-- A run in two parts. The second one begins after the last reduction that took out the derivation
of `c` from `p`, or it is the whole run if there is no such. -/
structure Since (h : History) (p c : Vertex) (earlier later : List Change) : Prop where
  begins : earlier = [] ∨
    ∃ before, earlier = before ++ [.reduceEdges] ∧ (h.after before).ReducedAway p c
  kept : ∀ before rest, later = before ++ .reduceEdges :: rest →
    ¬ (h.after (earlier ++ before)).ReducedAway p c

theorem exists_since (h : History) (p c : Vertex) (cs : List Change) :
    ∃ earlier later, cs = earlier ++ later ∧ h.Since p c earlier later := by
  induction cs using List.reverseRecOn with
  | nil => exact ⟨[], [], rfl, .inl rfl, fun before rest split => by simp at split⟩
  | append_singleton cs change ih =>
      by_cases gone : change = .reduceEdges ∧ (h.after cs).ReducedAway p c
      · obtain ⟨rfl, gone⟩ := gone
        exact ⟨cs ++ [.reduceEdges], [], by simp, .inr ⟨cs, rfl, gone⟩,
          fun before rest split => by simp at split⟩
      · obtain ⟨earlier, later, rfl, since⟩ := ih
        refine ⟨earlier, later ++ [change], by simp, since.begins, fun before rest split => ?_⟩
        rcases List.eq_nil_or_concat rest with rfl | ⟨rest, last, rfl⟩
        · obtain ⟨rfl, same⟩ := List.append_inj' split rfl
          exact fun away => gone ⟨List.singleton_inj.mp same, away⟩
        · rw [List.concat_eq_append, ← List.cons_append, ← List.append_assoc] at split
          exact since.kept before rest (List.append_inj_left' split rfl)

theorem Since.actionsAt_earlier {earlier later : List Change} {config : Config}
    (since : (empty config).Since p c earlier later) :
    ((empty config).after earlier).actionsAt p c = [] := by
  apply actionsAt_of_no_parent
  rcases since.begins with rfl | ⟨before, rfl, -, gone⟩
  · intro parent
    simp [after, Parent, Graph.Joined, Graph.hasEdge, Graph.edge?, empty, Graph.empty] at parent
  · rwa [after_append]

/-- Whatever is done to a history from the start, the actions of a derivation are those recorded for
it since a reduction took it out for the last time, in the order of the records. -/
theorem actions_of_run (config : Config) (cs : List Change) {a b : ImageId} {p c : Vertex} :
    let h := (empty config).after cs
    (found_a : h.vertexFor? a = some p) → (found_b : h.vertexFor? b = some c) →
    (room : h.size < Handle.nullIndex) →
    (edge_room : ∀ earlier, earlier <+: cs →
      ((empty config).after earlier).graph.edgeCount < Handle.nullIndex) →
    (∃ earlier later, cs = earlier ++ later ∧ (empty config).Since p c earlier later) ∧
    ∀ earlier later, cs = earlier ++ later → (empty config).Since p c earlier later →
      h.actions a b = .ok (later.flatMap (h.added p c)) := by
  intro h found_a found_b room edge_room
  have valid : h.Valid := (grows_after (valid_empty config) cs).valid
  refine ⟨exists_since _ p c cs, fun earlier later split since => ?_⟩
  have valid_earlier := (grows_after (valid_empty config) earlier).valid
  have parted : h = ((empty config).after earlier).after later := by
    rw [← after_append, ← split]
  have told := valid_earlier.actionsAt_after later (parted ▸ room)
    (fun next listed => after_append _ earlier next ▸
      edge_room (earlier ++ next) (split ▸ (List.prefix_append_right_inj earlier).mpr listed))
    (fun before rest here => after_append _ earlier before ▸ since.kept before rest here)
  rw [since.actionsAt_earlier, List.nil_append, ← parted] at told
  rw [valid.actions_eq (holds_of_vertexFor? found_a) (holds_of_vertexFor? found_b)]
  exact congrArg Except.ok told

/-- The second derivation of the third image from the first one is recorded under its other file,
after the first derivation has gone by way of the second image. -/
theorem actions_of_run_anew :
    let crop : Action := .named "crop" 1
    let blur : Action := .named "blur" 1
    let earlier : List Change := [.addDerivation ⟨1⟩ ⟨3⟩ [crop],
      .addRelations [⟨⟨2⟩, ⟨1⟩⟩, ⟨⟨3⟩, ⟨2⟩⟩], .reduceEdges]
    let later : List Change := [.addDuplicate ⟨3⟩ ⟨4⟩, .addDerivation ⟨1⟩ ⟨4⟩ [blur],
      .addDerivation ⟨3⟩ ⟨1⟩ [crop], .addDerivation ⟨1⟩ ⟨3⟩ [crop]]
    let h := (empty { direction := .childToParent }).after (earlier ++ later)
    (empty { direction := .childToParent }).Since ⟨0, 0⟩ ⟨1, 0⟩ earlier later ∧
      h.actions ⟨1⟩ ⟨3⟩ = .ok [blur, crop] := by
  intro crop blur earlier later h
  have found : h.vertexFor? ⟨1⟩ = some ⟨0, 0⟩ := by decide +kernel
  have found' : h.vertexFor? ⟨3⟩ = some ⟨1, 0⟩ := by decide +kernel
  have room : h.size < Handle.nullIndex := by decide +kernel
  have edge_room : ∀ cs ∈ (earlier ++ later).inits,
      ((empty { direction := .childToParent }).after cs).graph.edgeCount < Handle.nullIndex := by
    decide +kernel
  have since : (empty { direction := .childToParent }).Since ⟨0, 0⟩ ⟨1, 0⟩ earlier later := by
    refine ⟨.inr ⟨earlier.dropLast, rfl, ?_⟩, fun before rest split => ?_⟩
    · unfold ReducedAway Parent Graph.Joined
      decide +kernel
    · have listed : Change.reduceEdges ∈ later := by simp [split]
      simp [later] at listed
  have told := (actions_of_run { direction := .childToParent } (earlier ++ later) found found' room
    fun cs listed => edge_room cs ((List.mem_inits _ _).mpr listed)).2 earlier later rfl since
  exact ⟨since, told.trans (by decide +kernel)⟩

end History

end Provenance
