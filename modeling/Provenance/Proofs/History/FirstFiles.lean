import Mathlib.Data.List.Basic
import Provenance.Proofs.History.Mirror

/-! # First files

A version comes into being with one file, and whatever is recorded later goes behind it. So the
first file of a version is the one that was once its only one.
-/

namespace Provenance.History

variable {h h' : History} {v : Vertex} {id : ImageId} {files files' files'' : List ImageId}

/-! ## Single changes -/

/-- The files of a version stay as they are, or a version without a file gets its first one. -/
inductive Founded : List ImageId → List ImageId → Prop where
  | same (files : List ImageId) : Founded files files
  | first (id : ImageId) : Founded [] [id]

/-- The files of a version stay as they are, or one more goes to the end. -/
inductive Appended : List ImageId → List ImageId → Prop where
  | same (files : List ImageId) : Appended files files
  | one (files : List ImageId) (id : ImageId) : Appended files (files ++ [id])

theorem Founded.trans (before : Founded files files') (after : Founded files' files'') :
    Founded files files'' := by
  cases before with
  | same => exact after
  | first id =>
      cases after with
      | same => exact .first id

theorem Founded.appended (founded : Founded files files') : Appended files files' := by
  cases founded with
  | same => exact .same files
  | first id => exact .one [] id

theorem Appended.isPrefix (appended : Appended files files') : files <+: files' := by
  cases appended with
  | same => exact List.prefix_refl files
  | one id => exact List.prefix_append files [id]

theorem Appended.length_le_one (appended : Appended files files') (none_yet : files = []) :
    files'.length ≤ 1 := by
  subst none_yet
  cases appended with
  | same => exact Nat.zero_le 1
  | one id => exact Nat.le_refl 1

theorem filesAt_congr (version : h'.graph.vertexPayload? v = h.graph.vertexPayload? v) :
    h'.filesAt v = h.filesAt v := by
  rw [filesAt, filesAt, version]

theorem Valid.founded_addImage (valid : h.Valid) (id : ImageId) (v : Vertex) :
    Founded (h.filesAt v) ((h.addImage id).2.filesAt v) := by
  cases found : h.vertexFor? id with
  | some w =>
      rw [addImage_of_known found]
      exact .same _
  | none =>
      rw [addImage_of_unknown found]
      cases room : h.graph.vertices.isFull with
      | true =>
          rw [Graph.addVertexWith_of_full room]
          exact .same _
      | false =>
          have version := Graph.vertexPayload?_addVertexWith valid.graph room (.ofId id) v
          by_cases fresh : v = (h.graph.addVertexWith (.ofId id)).1
          · have nothing : h.filesAt v = [] := by
              rw [fresh]
              simp [filesAt, Graph.vertexPayload?,
                Graph.addVertexWith_fresh valid.graph room (.ofId id)]
            rw [if_pos fresh] at version
            rw [nothing, filesAt, version]
            exact .first id
          · rw [if_neg fresh] at version
            rw [filesAt, filesAt, version]
            exact .same _

theorem Valid.filesAt_recorded (valid : h.Valid) (source target : Vertex) (actions : List Action)
    (v : Vertex) :
    filesAt { h with graph := (recorded h.graph source target actions).2 } v = h.filesAt v := by
  apply filesAt_congr
  unfold recorded
  split
  · rfl
  · exact (Graph.addEdgeWith_vertices valid.graph source target ⟨actions⟩).2.2 v

theorem Valid.founded_addDerivation (valid : h.Valid) (parent child : ImageId)
    (actions : List Action) (v : Vertex) :
    Founded (h.filesAt v) ((h.addDerivation parent child actions).2.filesAt v) := by
  have first := grows_addImage valid parent
  have second := grows_addImage first.valid child
  rw [addDerivation_eq]
  dsimp only
  rw [second.valid.filesAt_recorded]
  exact (valid.founded_addImage parent v).trans (first.valid.founded_addImage child v)

theorem Valid.founded_addRelations (valid : h.Valid) (relations : List Relation) (v : Vertex) :
    Founded (h.filesAt v) ((h.addRelations relations).filesAt v) := by
  induction relations generalizing h with
  | nil => exact .same _
  | cons r rs ih =>
      have here := valid.founded_addDerivation r.object r.subject [] v
      exact here.trans (ih (grows_addDerivation valid r.object r.subject []).valid)

theorem Valid.filesAt_reduceEdges (valid : h.Valid) {removed : List Relation}
    (reduced : h.reduceEdges = .ok (removed, h')) (v : Vertex) :
    h'.filesAt v = h.filesAt v := by
  obtain ⟨r, edges, -, rfl⟩ := valid.reduceEdges_eq_ok reduced
  exact filesAt_congr (Graph.vertexPayload?_dropEdges valid.graph edges v)

theorem appended_addDuplicate {a b : ImageId} (added : h.addDuplicate a b = .ok h')
    (v : Vertex) : Appended (h.filesAt v) (h'.filesAt v) := by
  obtain ⟨w, found, absent | found'⟩ := addDuplicate_eq_ok_iff.mp ⟨h', added⟩
  · rw [addDuplicate_of_new found absent] at added
    obtain rfl := Except.ok.inj added
    obtain ⟨version, known, -⟩ := holds_iff.mp (holds_of_vertexFor? found)
    have versions := Graph.vertexPayload?_modifyVertex h.graph w (·.addId b) v
    by_cases same : v = w
    · rw [if_pos same, known] at versions
      rw [filesAt, filesAt, versions, same, known]
      exact .one version.ids b
    · rw [if_neg same] at versions
      rw [filesAt, filesAt, versions]
      exact .same _
  · rw [addDuplicate_of_known found found', if_pos rfl] at added
    obtain rfl := Except.ok.inj added
    exact .same _

theorem Change.appended (valid : h.Valid) {c : Change} (done : c.apply h = .ok h') (v : Vertex) :
    Appended (h.filesAt v) (h'.filesAt v) := by
  cases c with
  | addImage id => exact Except.ok.inj done ▸ (valid.founded_addImage id v).appended
  | addDuplicate existing duplicate => exact appended_addDuplicate done v
  | addRelations relations =>
      exact Except.ok.inj done ▸ (valid.founded_addRelations relations v).appended
  | addDerivation parent child actions =>
      exact Except.ok.inj done ▸ (valid.founded_addDerivation parent child actions v).appended
  | reduceEdges =>
      cases reduced : h.reduceEdges with
      | error cause => simp [Change.apply, reduced, Except.map] at done
      | ok result =>
          simp only [Change.apply, reduced, Except.map, Except.ok.injEq] at done
          subst done
          rw [valid.filesAt_reduceEdges reduced]
          exact .same _

/-! ## Runs -/

theorem after_append (h : History) (cs ds : List Change) :
    h.after (cs ++ ds) = (h.after cs).after ds := by
  induction cs generalizing h with
  | nil => rfl
  | cons c cs ih =>
      simp only [List.cons_append, after]
      cases c.apply h with
      | error cause => exact ih h
      | ok h' => exact ih h'

theorem Valid.filesAt_prefix_after (valid : h.Valid) (cs : List Change) (v : Vertex) :
    h.filesAt v <+: (h.after cs).filesAt v := by
  induction cs generalizing h with
  | nil => exact List.prefix_refl _
  | cons c cs ih =>
      simp only [after]
      cases done : c.apply h with
      | error cause => exact ih valid
      | ok h' =>
          have here := (Change.appended valid done v).isPrefix
          exact here.trans (ih (Change.grows valid done).valid)

theorem length_filesAt_loaded {records : List Relation} {config : Config}
    (opened : ofRelations records config = .ok h) (v : Vertex) : (h.filesAt v).length ≤ 1 := by
  have valid := (grows_addRelations (valid_empty config) records).valid
  have founded := (valid_empty config).founded_addRelations records v
  have short := founded.appended.length_le_one rfl
  rcases loaded_or_reduced opened with rfl | ⟨removed, reduced⟩
  · exact short
  · rwa [valid.filesAt_reduceEdges reduced]

theorem Start.length_filesAt {start : Start} (opened : start.initial = .ok h) (v : Vertex) :
    (h.filesAt v).length ≤ 1 := by
  cases start with
  | blank config => exact Except.ok.inj opened ▸ Nat.zero_le 1
  | default => exact Except.ok.inj opened ▸ Nat.zero_le 1
  | ofRelations records config => exact length_filesAt_loaded opened v
  | ofJson text config =>
      simp only [Start.initial, History.ofJson] at opened
      cases read : Relation.listOfJson text with
      | error cause => simp [read, bind, Except.bind] at opened
      | ok records =>
          simp only [read, bind, Except.bind] at opened
          exact length_filesAt_loaded opened v

/-- At some point of a run the image was the only file of the version. -/
def FirstFile (h : History) (cs : List Change) (v : Vertex) (id : ImageId) : Prop :=
  ∃ earlier later, cs = earlier ++ later ∧ (h.after earlier).filesAt v = [id]

theorem eq_singleton_of_head? (short : files.length ≤ 1) (first : files.head? = some id) :
    files = [id] := by
  obtain ⟨rest, rfl⟩ := List.head?_eq_some_iff.mp first
  rw [List.length_cons] at short
  have none_left : rest = [] := List.eq_nil_of_length_eq_zero (by omega)
  rw [none_left]

theorem Valid.firstFile_of_primaryAt? (valid : h.Valid) (short : (h.filesAt v).length ≤ 1)
    {cs : List Change} (primary : (h.after cs).primaryAt? v = some id) : h.FirstFile cs v id := by
  induction cs generalizing h with
  | nil => exact ⟨[], [], rfl, eq_singleton_of_head? short primary⟩
  | cons c cs ih =>
      cases files : h.filesAt v with
      | cons x xs =>
          obtain ⟨rest, more⟩ := valid.filesAt_prefix_after (c :: cs) v
          rw [primaryAt?, ← more, files] at primary
          have first : (h.filesAt v).head? = some id := files ▸ primary
          exact ⟨[], c :: cs, rfl, eq_singleton_of_head? short first⟩
      | nil =>
          simp only [after] at primary
          cases done : c.apply h with
          | error cause =>
              rw [done] at primary
              obtain ⟨earlier, later, rfl, alone⟩ := ih valid short primary
              exact ⟨c :: earlier, later, rfl, by simp only [after, done, alone]⟩
          | ok h' =>
              rw [done] at primary
              have short' := (Change.appended valid done v).length_le_one files
              have valid' := (Change.grows valid done).valid
              obtain ⟨earlier, later, rfl, alone⟩ := ih valid' short' primary
              exact ⟨c :: earlier, later, rfl, by simp only [after, done, alone]⟩

/-- The first file of a version is the one that it came into being with. -/
theorem Valid.primaryAt?_eq_some (valid : h.Valid) (short : (h.filesAt v).length ≤ 1)
    {cs : List Change} : (h.after cs).primaryAt? v = some id ↔ h.FirstFile cs v id := by
  constructor
  · exact valid.firstFile_of_primaryAt? short
  · rintro ⟨earlier, later, rfl, alone⟩
    have valid' := (grows_after valid earlier).valid
    obtain ⟨rest, more⟩ := valid'.filesAt_prefix_after later v
    rw [after_append, primaryAt?, ← more, alone]
    rfl

end Provenance.History
