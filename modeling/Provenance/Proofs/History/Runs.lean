import Provenance.History.Load
import Provenance.Proofs.History.Valid

/-! # Runs of a history

A history is opened empty, from records or from their text, and then changed step by step. A step
that fails leaves the history as it is.
-/

namespace Provenance

namespace History

inductive Start where
  | blank (config : Config)
  | default
  | ofRelations (records : List Relation) (config : Config)
  | ofJson (text : String) (config : Config)

namespace Start

def initial : Start → Except HistoryError History
  | .blank config => .ok (empty config)
  | .default => .ok Inhabited.default
  | .ofRelations records config => History.ofRelations records config
  | .ofJson text config => History.ofJson text config

/-- The images in the records that a history is opened with. -/
def mentions : Start → List ImageId
  | .blank _ | .default => []
  | .ofRelations records _ => records.flatMap fun r => [r.object, r.subject]
  | .ofJson text _ =>
      match Relation.listOfJson text with
      | .ok records => records.flatMap fun r => [r.object, r.subject]
      | .error _ => []

end Start

inductive Change where
  | addImage (id : ImageId)
  | addDuplicate (existing duplicate : ImageId)
  | addRelations (relations : List Relation)
  | addDerivation (parent child : ImageId) (actions : List Action)
  | reduceEdges

namespace Change

def apply (h : History) : Change → Except HistoryError History
  | .addImage id => .ok (h.addImage id).2
  | .addDuplicate existing duplicate => h.addDuplicate existing duplicate
  | .addRelations relations => .ok (h.addRelations relations)
  | .addDerivation parent child actions => .ok (h.addDerivation parent child actions).2
  | .reduceEdges => h.reduceEdges.map Prod.snd

/-- The images that a change names. -/
def names : Change → List ImageId
  | .addImage id => [id]
  | .addDuplicate existing duplicate => [existing, duplicate]
  | .addRelations relations => relations.flatMap fun r => [r.object, r.subject]
  | .addDerivation parent child _ => [parent, child]
  | .reduceEdges => []

end Change

/-- The history at the end of a run. -/
def after (h : History) : List Change → History
  | [] => h
  | c :: cs =>
      match c.apply h with
      | .ok h' => h'.after cs
      | .error _ => h.after cs

/-- The images that the successful changes of a run name. -/
def mentioned (h : History) : List Change → List ImageId
  | [] => []
  | c :: cs =>
      match c.apply h with
      | .ok h' => c.names ++ h'.mentioned cs
      | .error _ => h.mentioned cs

/-! ## Growth along a run -/

theorem loaded_or_reduced {records : List Relation} {config : Config} {h : History}
    (opened : ofRelations records config = .ok h) :
    h = (empty config).addRelations records ∨
      ∃ removed, ((empty config).addRelations records).reduceEdges = .ok (removed, h) := by
  unfold ofRelations at opened
  dsimp only at opened
  split at opened
  · cases reduced : ((empty config).addRelations records).reduceEdges with
    | error cause => simp [reduced, Except.map] at opened
    | ok result =>
        simp only [reduced, Except.map, Except.ok.injEq] at opened
        exact .inr ⟨result.1, opened ▸ rfl⟩
  · exact .inl (Except.ok.inj opened).symm

theorem grows_loaded {records : List Relation} {config : Config} {h : History}
    (opened : ofRelations records config = .ok h) :
    Grows ((empty config).addRelations records) h [] := by
  have grows := grows_addRelations (valid_empty config) records
  rcases loaded_or_reduced opened with rfl | ⟨removed, reduced⟩
  · exact .refl grows.valid
  · exact grows_reduceEdges grows.valid reduced

theorem grows_ofRelations {records : List Relation} {config : Config} {h : History}
    (opened : ofRelations records config = .ok h) :
    Grows (empty config) h (records.flatMap fun r => [r.object, r.subject]) := by
  have grows := grows_addRelations (valid_empty config) records
  simpa using grows.trans (grows_loaded opened)

theorem Start.grows {start : Start} {h : History} (opened : start.initial = .ok h) :
    ∃ config, Grows (empty config) h start.mentions := by
  cases start with
  | blank config => exact ⟨config, Except.ok.inj opened ▸ .refl (valid_empty config)⟩
  | default => exact ⟨Inhabited.default, Except.ok.inj opened ▸ .refl (valid_empty _)⟩
  | ofRelations records config => exact ⟨config, grows_ofRelations opened⟩
  | ofJson text config =>
      simp only [Start.initial, History.ofJson] at opened
      cases read : Relation.listOfJson text with
      | error cause => simp [read, bind, Except.bind] at opened
      | ok records =>
          simp only [read, bind, Except.bind] at opened
          refine ⟨config, ?_⟩
          simpa only [Start.mentions, read] using grows_ofRelations opened

theorem Change.grows {h h' : History} (valid : h.Valid) {c : Change} (done : c.apply h = .ok h') :
    Grows h h' c.names := by
  cases c with
  | addImage id => exact Except.ok.inj done ▸ grows_addImage valid id
  | addDuplicate existing duplicate => exact (grows_addDuplicate valid done).1
  | addRelations relations => exact Except.ok.inj done ▸ grows_addRelations valid relations
  | addDerivation parent child actions =>
      exact Except.ok.inj done ▸ grows_addDerivation valid parent child actions
  | reduceEdges =>
      cases reduced : h.reduceEdges with
      | error cause => simp [Change.apply, reduced, Except.map] at done
      | ok result =>
          simp only [Change.apply, reduced, Except.map, Except.ok.injEq] at done
          exact done ▸ grows_reduceEdges valid reduced

theorem grows_after {h : History} (valid : h.Valid) (cs : List Change) :
    Grows h (h.after cs) (h.mentioned cs) := by
  induction cs generalizing h with
  | nil => exact .refl valid
  | cons c cs ih =>
      simp only [after, mentioned]
      cases done : c.apply h with
      | error cause => exact ih valid
      | ok h' =>
          have first := Change.grows valid done
          exact first.trans (ih first.valid)

/-! ## What every history is like -/

/-- When a duplicate is taken, and what becomes of the history if it is or is not. -/
structure TakesDuplicates (h : History) : Prop where
  taken_iff : ∀ a b, (∃ h', h.addDuplicate a b = .ok h') ↔
    ∃ v, h.vertexFor? a = some v ∧ (h.vertexFor? b = none ∨ h.vertexFor? b = some v)
  unknown : ∀ a b, h.vertexFor? a = none → h.addDuplicate a b = .error (.unknownImage a)
  conflicting : ∀ a b v w, h.vertexFor? a = some v → h.vertexFor? b = some w → w ≠ v →
    h.addDuplicate a b = .error (.conflictingDuplicate a b)
  unchanged : ∀ a b cause, h.addDuplicate a b = .error cause → h.after [.addDuplicate a b] = h
  together : ∀ a b h', h.addDuplicate a b = .ok h' →
    ∃ v, h'.vertexFor? a = some v ∧ h'.vertexFor? b = some v

theorem Valid.takesDuplicates {h : History} (valid : h.Valid) : h.TakesDuplicates where
  taken_iff a b := addDuplicate_eq_ok_iff
  unknown a b absent := addDuplicate_of_unknown absent b
  conflicting a b v w found found' apart := by
    rw [addDuplicate_of_known found found', if_neg apart]
  unchanged a b cause failed := by simp [after, Change.apply, failed]
  together a b h' added := by
    obtain ⟨v, found, -⟩ := addDuplicate_eq_ok_iff.mp ⟨h', added⟩
    obtain ⟨grows, same⟩ := grows_addDuplicate valid added
    have found' := grows.vertexFor? valid found
    exact ⟨v, found', same.trans found'⟩

/-- However a history is opened and changed, no image is in two versions or twice in one, no version
is without an image, and the edges are stored as configured. The images in it are those that were
named by changes that succeeded, as long as there are handles left, and each stays where it is. -/
theorem images_of_run (start : Start) {h₀ : History} (opened : start.initial = .ok h₀)
    (cs : List Change) :
    let h := h₀.after cs
    h.Valid ∧
      (∀ id, h.contains id = true → id ∈ start.mentions ++ h₀.mentioned cs) ∧
      (h.size < Handle.nullIndex →
        ∀ id, h.contains id = true ↔ id ∈ start.mentions ++ h₀.mentioned cs) ∧
      (∀ id v, h.vertexFor? id = some v → ∀ more, (h.after more).vertexFor? id = some v) ∧
      h.TakesDuplicates := by
  obtain ⟨config, opening⟩ := Start.grows opened
  have grows := opening.trans (grows_after opening.valid cs)
  have named : ∀ id, (h₀.after cs).contains id = true → id ∈ start.mentions ++ h₀.mentioned cs := by
    intro id known
    rcases grows.known id known with known | listed
    · obtain ⟨v, holds⟩ := contains_iff.mp known
      simp [holds_iff, empty, Graph.empty, Graph.vertexPayload?] at holds
    · exact listed
  refine ⟨grows.valid, named, ?_, ?_, grows.valid.takesDuplicates⟩
  · exact fun room id => ⟨named id, grows.present room id⟩
  · exact fun id v found more => (grows_after grows.valid more).vertexFor? grows.valid found

/-- A chain of three images; the second duplicate is refused. -/
theorem images_of_chain_run :
    let config : Config := { direction := .childToParent }
    let opened := (empty config).addRelations [⟨⟨2⟩, ⟨1⟩⟩, ⟨⟨3⟩, ⟨2⟩⟩]
    let h := opened.after [.addDuplicate ⟨2⟩ ⟨4⟩, .addDuplicate ⟨1⟩ ⟨3⟩, .reduceEdges]
    h.Valid ∧ h.TakesDuplicates := by
  intro config opened h
  have start : (Start.ofRelations [⟨⟨2⟩, ⟨1⟩⟩, ⟨⟨3⟩, ⟨2⟩⟩] config).initial = .ok opened := rfl
  have all := images_of_run _ start [.addDuplicate ⟨2⟩ ⟨4⟩, .addDuplicate ⟨1⟩ ⟨3⟩, .reduceEdges]
  exact ⟨all.1, all.2.2.2.2⟩

end History

end Provenance
