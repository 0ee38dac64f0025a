import Mathlib.Data.List.Basic
import Provenance.Digraph.Walk

/-! # The recursive walk

A walk that keeps a stack of frames does what a recursive one does: it visits a vertex, then from
there whatever its neighbours lead to, and skips what has been visited before, in this branch or in
another one.
-/

namespace Provenance

/-- Trees side by side. -/
inductive Trees (α : Type) where
  | none
  | tree (root : α) (below beside : Trees α)

namespace Trees

variable {α β : Type}

/-- The vertices in the order in which they are first met, each before those below it. -/
def preorder : Trees α → List α
  | .none => []
  | .tree root below beside => root :: (below.preorder ++ beside.preorder)

def map (f : α → β) : Trees α → Trees β
  | .none => .none
  | .tree root below beside => .tree (f root) (below.map f) (beside.map f)

@[simp]
theorem preorder_map (f : α → β) (trees : Trees α) :
    (trees.map f).preorder = trees.preorder.map f := by
  induction trees with
  | none => rfl
  | tree root below beside ih ih' =>
      rw [map, preorder, ih, ih', preorder, List.map_cons, List.map_append]

/-- A vertex is entered, left again when all below it have been, and followed by those beside it. -/
def events {n : Nat} : Trees (Fin n) → List (Event n)
  | .none => []
  | .tree root below beside => .enter root :: (below.events ++ .leave root :: beside.events)

@[simp]
theorem entered_events {n : Nat} (trees : Trees (Fin n)) :
    trees.events.filterMap Event.entered? = trees.preorder := by
  induction trees with
  | none => rfl
  | tree root below beside ih ih' =>
      have left : (Event.leave root :: beside.events).filterMap Event.entered? =
          beside.preorder := ih'
      rw [events, preorder, ← ih, ← left, ← List.filterMap_append]
      rfl

end Trees

/-- The recursive walk over a list of vertices, given those that have been visited. A vertex that
has not been is put above the trees of what it leads to, and all of them are visited afterwards. -/
inductive Explores {α : Type} (next : α → List α) : List α → List α → Trees α → Prop where
  | done (visited : List α) : Explores next visited [] .none
  | skip {visited vs : List α} {v : α} {trees : Trees α} (marked : v ∈ visited)
      (later : Explores next visited vs trees) : Explores next visited (v :: vs) trees
  | visit {visited vs : List α} {v : α} {below beside : Trees α} (new : v ∉ visited)
      (deeper : Explores next (v :: visited) (next v) below)
      (later : Explores next (below.preorder ++ v :: visited) vs beside) :
      Explores next visited (v :: vs) (.tree v below beside)

namespace Explores

variable {α β : Type} {next : α → List α} {visited vs : List α} {trees : Trees α}

theorem unique {trees' : Trees α} (explores : Explores next visited vs trees)
    (explores' : Explores next visited vs trees') : trees' = trees := by
  induction explores generalizing trees' with
  | done => cases explores' with
    | done => rfl
  | skip marked _ ih => cases explores' with
    | skip _ later => exact ih later
    | visit new _ _ => exact absurd marked new
  | visit new _ _ ih ih' => cases explores' with
    | skip marked _ => exact absurd marked new
    | visit _ deeper later =>
        obtain rfl := ih deeper
        obtain rfl := ih' later
        rfl

/-- Under other names for the vertices the walk is the same. -/
theorem map {next' : β → List β} {f : α → β} (injective : Function.Injective f)
    (renamed : ∀ v, next' (f v) = (next v).map f) (explores : Explores next visited vs trees) :
    Explores next' (visited.map f) (vs.map f) (trees.map f) := by
  induction explores with
  | done visited => exact .done _
  | skip marked _ ih => exact .skip (List.mem_map_of_mem marked) ih
  | @visit visited vs v below beside new _ _ ih ih' =>
      rw [List.map_append, ← Trees.preorder_map] at ih'
      rw [← renamed] at ih
      exact .visit (fun marked => new ((List.mem_map_of_injective injective).mp marked)) ih ih'

end Explores

/-! ## The walk with a stack -/

variable {n : Nat}

theorem VertexSet.missing_le (cost : Fin n → Nat) {s t : VertexSet n} (sub : ∀ v, v ∈ s → v ∈ t) :
    t.missing cost ≤ s.missing cost :=
  weigh_le cost fun v _ => by simpa using fun outside within => outside (sub v within)

/-- From a frame on, the walk goes through the trees of the vertices listed there, leaves the frame
and goes on with the frames below it. -/
theorem exists_explores (next : Fin n → List (Fin n)) (seen : VertexSet n) {visited : List (Fin n)}
    (same : ∀ v, v ∈ seen ↔ v ∈ visited) (ws : List (Fin n)) :
    ∃ trees, Explores next visited ws trees ∧
      ∀ u frames, walkFrom next seen ((u, ws) :: frames) =
        trees.events ++ .leave u :: walkFrom next (seen.insertMany trees.preorder) frames := by
  match ws with
  | [] =>
      refine ⟨.none, .done visited, fun u frames => ?_⟩
      rw [walkFrom]
      rfl
  | w :: ws =>
      by_cases marked : w ∈ seen
      · obtain ⟨trees, later, walks⟩ := exists_explores next seen same ws
        refine ⟨trees, .skip ((same w).mp marked) later, fun u frames => ?_⟩
        rw [walkFrom, if_pos marked, walks]
      · have same' : ∀ v, v ∈ seen.insert w ↔ v ∈ w :: visited := by
          intro v
          rw [VertexSet.mem_insert, List.mem_cons, same]
        obtain ⟨below, deeper, walks⟩ := exists_explores next (seen.insert w) same' (next w)
        -- the trees below `w` mark just their own vertices before the rest of the list is looked at
        have same'' : ∀ v, v ∈ (seen.insert w).insertMany below.preorder ↔
            v ∈ below.preorder ++ w :: visited := by
          intro v
          rw [VertexSet.mem_insertMany, List.mem_append, same']
        obtain ⟨beside, later, walks'⟩ :=
          exists_explores next ((seen.insert w).insertMany below.preorder) same'' ws
        have new : w ∉ visited := fun listed => marked ((same w).mpr listed)
        refine ⟨.tree w below beside, .visit new deeper later, fun u frames => ?_⟩
        rw [walkFrom, if_neg marked, walks, walks', Trees.events, Trees.preorder]
        simp only [VertexSet.insertMany, List.foldl_cons, List.foldl_append, List.cons_append,
          List.append_assoc]
termination_by seen.missing (fun v => 2 + (next v).length) + ws.length
decreasing_by
  · simp
  · have less := VertexSet.missing_insert_le (fun v => 2 + (next v).length) marked
    simp only [List.length_cons] at less ⊢
    omega
  · have fewer := VertexSet.missing_le (fun v => 2 + (next v).length) (s := seen)
      (t := (seen.insert w).insertMany below.preorder) fun v within =>
        VertexSet.mem_insertMany.mpr (.inr (VertexSet.mem_insert.mpr (.inr within)))
    simp only [List.length_cons]
    omega

theorem explores_walk (next : Fin n → List (Fin n)) (start : Fin n) :
    ∃ trees, Explores next [] [start] trees ∧ walk next start = trees.events := by
  obtain ⟨below, deeper, walks⟩ :=
    exists_explores next (VertexSet.ofList [start]) (fun v => VertexSet.mem_ofList) (next start)
  refine ⟨.tree start below .none, .visit List.not_mem_nil deeper (.done _), ?_⟩
  rw [walk, walks, walkFrom, Trees.events, Trees.events]

/-- The vertices are listed as the recursive walk first meets them. -/
theorem Digraph.explores_depthFirst (d : Digraph n) (way : Way) (start : Fin n) :
    ∃ trees, Explores (d.neighbors way) [] [start] trees ∧
      d.depthFirst way start = trees.preorder := by
  obtain ⟨trees, explores, walks⟩ := explores_walk (d.neighbors way) start
  refine ⟨trees, explores, ?_⟩
  rw [depthFirst, walks, Trees.entered_events]

end Provenance
