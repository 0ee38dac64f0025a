import Provenance.Graph.Dominance
import Provenance.Graph.Order
import Provenance.Proofs.Graph.Paths
import Provenance.Proofs.Tables.Cycles
import Provenance.Proofs.Tables.Dominators
import Provenance.Proofs.Tables.Layout
import Provenance.Proofs.Tables.Searches

/-! # Answers from tables

Every question about a valid graph is answered from the tables of its snapshot without a failing
access, whatever the handles in the question, and the answer is the same.
-/

namespace Provenance

namespace Table

/-- Keeps the farther vertex; of two that are equally far, the first. -/
def farther? (distances : Array (Option Nat)) (best : Option (Nat × Nat)) (v : Nat) :
    Option (Option (Nat × Nat)) := do
  match ← distances[v]?, best with
  | none, _ => return best
  | some d, none => return if d = 0 then none else some (v, d)
  | some d, some (_, e) => return if e < d then some (v, d) else best

def farthest? (distances : Array (Option Nat)) : Option (Option Nat) := do
  return (← (List.range distances.size).foldlM (farther? distances) none).map Prod.fst

end Table

/-! ## Searches -/

namespace Layout

variable (l : Layout)

def search? (l : Layout) (way : Way) (start : Nat) : SearchOrder → Option (List Nat)
  | .breadthFirst => Table.discover? l.vertices.size ((l.next way)[·]?) start
  | .depthFirst => (Table.walk? (l.next way) start).map Prod.fst

def topologicalOrder? (l : Layout) : Option (Option (List Nat)) :=
  Table.topologicalOrder? l.succ l.pred

def routes? (l : Layout) (way : Way) (extent : Extent) (start : Nat) :
    Option (Option Table.Milestones) := do
  match ← Table.reachableOrder? (l.next way) start with
  | some order => return some (← Table.routes? (l.next way) extent start order)
  | none => return none

def chainTo? (l : Layout) (routes : Table.Milestones) (v : Nat) : Option (List Nat) :=
  Table.back? routes.2 l.vertices.size v

/-- A shortest path between two vertices, along the edges or else against them. -/
def between? (l : Layout) (a b : Nat) : Option (Option (List Nat)) := do
  if a = b then return some [a]
  match ← l.routes? .along .shortest a with
  | none => return none
  | some forth =>
      if (← forth.1[b]?).isSome then return some (← l.chainTo? forth b).reverse
      match ← l.routes? .along .shortest b with
      | none => return none
      | some back =>
          if (← back.1[a]?).isSome then return some (← l.chainTo? back a)
          return some []

/-- The chain from the farthest vertex one way over `a` to the farthest one the other way. -/
def through? (l : Layout) (up down : Table.Milestones) (a : Nat) : Option (List Nat) := do
  let above ←
    match ← Table.farthest? up.1 with
    | some root => l.chainTo? up root
    | none => some [a]
  let below ←
    match ← Table.farthest? down.1 with
    | some leaf => (l.chainTo? down leaf).map (·.reverse.tail)
    | none => some []
  return above ++ below

/-- A vertex that is reached, with its distance. -/
def distanceAt? (l : Layout) (routes : Table.Milestones) (v : Nat) :
    Option (Option (Vertex × Nat)) := do
  match ← routes.1[v]? with
  | some distance => return some (← l.vertices[v]?, distance)
  | none => return none

/-- A vertex of the dominator tree other than its root, with its parent. -/
def parentAt? (l : Layout) (parents : Array (Option Nat)) (root v : Nat) :
    Option (Option (Vertex × Vertex)) := do
  if v = root then return none
  match ← parents[v]? with
  | some p => return some (← l.vertices[v]?, ← l.vertices[p]?)
  | none => return none

/-- The parents of the vertices of the dominator tree. -/
def dominators? (l : Layout) (way : Way) (root : Nat) : Option (Array (Option Nat)) := do
  let order := (← Table.walk? (l.next way) root).2.reverse
  Table.dominators? (l.next way.flip) root order

end Layout

namespace Routes

variable {n : Nat} (routes : Routes n)

theorem farther?_tables (best : Option (Fin n × Nat)) (v : Fin n) :
    Table.farther? routes.tables.1 (best.map fun (w, e) => (w.val, e)) v.val =
      some ((routes.farther best v).map fun (w, e) => (w.val, e)) := by
  have read : routes.tables.1[v.val]? = some (routes.distance? v) := by
    simp [tables, distance?]
  unfold Table.farther? farther
  rw [read, Option.bind_eq_bind, Option.bind_some]
  cases routes.distance? v with
  | none => rfl
  | some d =>
      cases best with
      | none =>
          dsimp only [Option.map_none]
          split <;> rfl
      | some best =>
          dsimp only [Option.map_some]
          split <;> rfl

theorem farthest?_tables :
    Table.farthest? routes.tables.1 = some (routes.farthest?.map Fin.val) := by
  have vertices : List.range routes.tables.1.size = (List.finRange n).map Fin.val := by
    simp [tables]
  have loop := Table.foldlM_eq_some routes.farther?_tables (List.finRange n) none
  rw [Option.map_none] at loop
  rw [Table.farthest?, vertices, loop, farthest?]
  simp [Function.comp_def]

end Routes

namespace Snapshot

variable (t : Snapshot)

theorem size_layout : t.layout.vertices.size = t.size := t.labels.size_table

theorem search?_layout (way : Way) (start : Fin t.size) (order : SearchOrder) :
    t.layout.search? way start.val order =
      some ((order.search t.digraph way start).map Fin.val) := by
  cases order with
  | breadthFirst =>
      rw [Layout.search?, size_layout, next_layout]
      exact discover?_eq (t.digraph.getElem?_lists way) start
  | depthFirst =>
      rw [Layout.search?, next_layout, t.digraph.walk?_eq]
      rfl

theorem topologicalOrder?_layout :
    t.layout.topologicalOrder? = some (t.digraph.topologicalOrder?.map (·.map Fin.val)) :=
  topologicalOrder?_eq t.digraph

theorem routes?_layout (way : Way) (extent : Extent) (start : Fin t.size) :
    t.layout.routes? way extent start.val =
      some ((t.digraph.routes? way extent start).map Routes.tables) := by
  rw [Layout.routes?, next_layout, t.digraph.reachableOrder?_eq, Digraph.routes?]
  cases t.digraph.reachableOrder? way start with
  | none => rfl
  | some order => simp [routes?_eq]

theorem chainTo?_layout {way : Way} {extent : Extent} {start : Fin t.size} {routes : Routes t.size}
    (found : t.digraph.routes? way extent start = some routes) (v : Fin t.size) :
    t.layout.chainTo? routes.tables v.val = some ((routes.chainTo v).map Fin.val) := by
  obtain ⟨settled, order, ordered⟩ := Digraph.routes?_eq_some found
  rw [Layout.chainTo?, size_layout]
  refine back?_eq settled fun d known => ?_
  exact (ordered.steps_lt (settled.steps known)).le

theorem between?_layout (a b : Fin t.size) :
    t.layout.between? a.val b.val = some ((t.digraph.between? a b).map (·.map Fin.val)) := by
  have read : ∀ (routes : Routes t.size) (v : Fin t.size),
      routes.tables.1[v.val]? = some (routes.distance? v) := fun routes v => by
    simp [Routes.tables, Routes.distance?]
  have reached : ∀ (routes : Routes t.size) v, (routes.distance? v).isSome = routes.reaches v :=
    fun routes v => Option.isSome_map
  unfold Layout.between? Digraph.between?
  by_cases same : a = b
  · rw [if_pos same, if_pos (congrArg Fin.val same)]
    rfl
  · rw [if_neg same, if_neg (mt Fin.val_inj.mp same)]
    simp only [routes?_layout, Option.bind_eq_bind, Option.bind_some]
    cases first : t.digraph.routes? .along .shortest a with
    | none => rfl
    | some forth =>
        simp only [Option.map_some, read, reached, Option.bind_some, chainTo?_layout t first]
        split
        next => simp
        next =>
          cases second : t.digraph.routes? .along .shortest b with
          | none => rfl
          | some back =>
              simp only [Option.map_some, read, reached, Option.bind_some,
                chainTo?_layout t second]
              split <;> simp

theorem through?_layout {way way' : Way} {a : Fin t.size} {up down : Routes t.size}
    (above : t.digraph.routes? way .longest a = some up)
    (below : t.digraph.routes? way' .longest a = some down) :
    t.layout.through? up.tables down.tables a.val = some ((up.through down a).map Fin.val) := by
  unfold Layout.through? Routes.through
  simp only [Routes.farthest?_tables, Option.bind_eq_bind, Option.bind_some, List.map_append]
  cases up.farthest? with
  | none =>
      cases down.farthest? with
      | none => rfl
      | some leaf => simp [chainTo?_layout t below]
  | some root =>
      cases down.farthest? with
      | none => simp [chainTo?_layout t above]
      | some leaf => simp [chainTo?_layout t above, chainTo?_layout t below]

theorem dominators?_layout (way : Way) (root : Fin t.size) :
    t.layout.dominators? way root.val =
      some (t.digraph.dominators way root).parents.numbers := by
  have found := dominators?_eq t.digraph way root
  rw [Layout.dominators?, next_layout, t.digraph.walk?_eq, next_layout, Option.bind_eq_bind,
    Option.bind_some, ← List.map_reverse]
  exact found

theorem range_layout : List.range t.layout.vertices.size = (List.finRange t.size).map Fin.val := by
  simp [size_layout]

theorem filterMap?_distanceAt? (routes : Routes t.size) :
    Table.filterMap? (t.layout.distanceAt? routes.tables) (List.range t.layout.vertices.size) =
      some ((List.finRange t.size).filterMap fun v =>
        (routes.distance? v).map fun distance => (t.label v, distance)) := by
  rw [range_layout]
  refine Table.filterMap?_eq_some fun v _ => ?_
  unfold Layout.distanceAt? Routes.distance?
  cases known : routes.get v with
  | none => simp [Routes.tables, known]
  | some found => simp [Routes.tables, known, layout, label]

theorem filterMap?_parentAt? (parents : Parents t.size) (root : Fin t.size) :
    Table.filterMap? (t.layout.parentAt? parents.numbers root.val)
        (List.range t.layout.vertices.size) =
      some ((List.finRange t.size).filterMap fun v =>
        if v = root then none else (parents.get v).map fun p => (t.label v, t.label p)) := by
  rw [range_layout]
  refine Table.filterMap?_eq_some fun v _ => ?_
  unfold Layout.parentAt?
  by_cases same : v = root
  · rw [if_pos same, if_pos (congrArg Fin.val same)]
    rfl
  · rw [if_neg same, if_neg (mt Fin.val_inj.mp same)]
    cases known : parents.get v with
    | none => simp [known]
    | some p => simp [known, layout, label]

end Snapshot

/-! ## Questions -/

namespace Graph

variable {N E : Type}

def discovered? (g : Graph N E) (order : SearchOrder) (start : Vertex) (toward : Toward) :
    Option (List Vertex) := do
  let l ← g.layout?
  match ← l.number? start with
  | some s => l.labels? (← l.search? (g.direction.way toward) s order)
  | none => return []

def components? (g : Graph N E) : Option (List (List Vertex)) := do
  let l ← g.layout?
  (← Table.components? l.succ l.pred).mapM l.labels?

def cyclicGroups? (g : Graph N E) : Option (List (List Vertex)) := do
  let l ← g.layout?
  (← Table.cyclicGroups? l.succ).mapM l.labels?

def isAcyclic? (g : Graph N E) : Option Bool := do
  return (← (← g.layout?).topologicalOrder?).isSome

def topologicalSort? (g : Graph N E) : Option (Except GraphError (List Vertex)) := do
  let l ← g.layout?
  match ← l.topologicalOrder? with
  | some order => return .ok (← l.labels? order)
  | none => return .error (.notAcyclic .topologicalSort)

def shortestPath? (g : Graph N E) (v w : Vertex) : Option (Except GraphError (List Vertex)) := do
  let l ← g.layout?
  match ← l.number? v, ← l.number? w with
  | some a, some b =>
      match ← l.between? a b with
      | some path => return .ok (← l.labels? path)
      | none => return .error (.notAcyclic .shortestPath)
  | _, _ => return .ok []

def longestPath? (g : Graph N E) (v : Vertex) : Option (Except GraphError (List Vertex)) := do
  let l ← g.layout?
  match ← l.number? v with
  | none => return .ok []
  | some a =>
      match ← l.routes? (g.direction.way .roots) .longest a,
        ← l.routes? (g.direction.way .leaves) .longest a with
      | some up, some down =>
          let path ← l.labels? (← l.through? up down a)
          match g.direction with
          | .parentToChild => return .ok path
          | .childToParent => return .ok path.reverse
      | _, _ => return .error (.notAcyclic .longestPath)

def distances? (g : Graph N E) (start : Vertex) (extent : Extent) :
    Option (Except GraphError (List (Vertex × Nat))) := do
  let l ← g.layout?
  match ← l.number? start with
  | some s =>
      match ← l.routes? (g.direction.way .leaves) extent s with
      | some routes =>
          let vertices := List.range l.vertices.size
          return .ok (← Table.filterMap? (l.distanceAt? routes) vertices)
      | none => return .error (.notAcyclic .distances)
  | none => return .ok []

def dominatorTree? (g : Graph N E) (root : Vertex) : Option (List (Vertex × Vertex)) := do
  let l ← g.layout?
  match ← l.number? root with
  | some r =>
      let parents ← l.dominators? (g.direction.way .leaves) r
      Table.filterMap? (l.parentAt? parents r) (List.range l.vertices.size)
  | none => return []

def dominatedBy? (g : Graph N E) (v root : Vertex) (order : SearchOrder) :
    Option (List Vertex) := do
  let l ← g.layout?
  match ← l.number? v, ← l.number? root with
  | some a, some r =>
      let toLeaves := g.direction.way .leaves
      let found ← l.search? toLeaves r order
      let marks ← Table.below? (← l.dominators? toLeaves r) a
      l.labels? (← Table.filter? (marks[·]?) found)
  | _, _ => return []

/-! ## Nothing fails -/

variable {g : Graph N E}

theorem discovered?_eq (valid : g.Valid) (order : SearchOrder) (start : Vertex) (toward : Toward) :
    g.discovered? order start toward = some (g.discovered order start toward) := by
  unfold discovered? discovered
  simp only [layout?_eq valid, Option.bind_eq_bind, Option.bind_some, Snapshot.number?_layout]
  cases g.snapshot.number? start with
  | none => rfl
  | some s =>
      simp only [Option.map_some, Snapshot.search?_layout, Option.bind_some]
      exact Snapshot.labels?_layout _ _

theorem mapM_labels?_eq (t : Snapshot) (groups : List (List (Fin t.size))) :
    (groups.map (·.map Fin.val)).mapM t.layout.labels? = some (groups.map (·.map t.label)) :=
  Table.mapM_eq_some t.labels?_layout groups

theorem components?_eq (valid : g.Valid) : g.components? = some g.components := by
  rw [components?, layout?_eq valid, Option.bind_eq_bind, Option.bind_some]
  dsimp only [Snapshot.layout]
  rw [g.snapshot.digraph.components?_eq, Option.bind_eq_bind, Option.bind_some]
  exact mapM_labels?_eq g.snapshot _

theorem cyclicGroups?_eq (valid : g.Valid) : g.cyclicGroups? = some g.cyclicGroups := by
  rw [cyclicGroups?, layout?_eq valid, Option.bind_eq_bind, Option.bind_some]
  dsimp only [Snapshot.layout]
  rw [g.snapshot.digraph.cyclicGroups?_eq, Option.bind_eq_bind, Option.bind_some]
  exact mapM_labels?_eq g.snapshot _

theorem isAcyclic?_eq (valid : g.Valid) : g.isAcyclic? = some g.isAcyclic := by
  simp [isAcyclic?, layout?_eq valid, Snapshot.topologicalOrder?_layout, isAcyclic]

theorem topologicalSort?_eq (valid : g.Valid) : g.topologicalSort? = some g.topologicalSort := by
  rw [topologicalSort?, layout?_eq valid, Option.bind_eq_bind, Option.bind_some,
    Snapshot.topologicalOrder?_layout, topologicalSort_eq, Option.bind_eq_bind, Option.bind_some]
  cases g.snapshot.digraph.topologicalOrder? with
  | none => rfl
  | some order =>
      simp [Snapshot.labels?_layout]

theorem shortestPath?_eq (valid : g.Valid) (v w : Vertex) :
    g.shortestPath? v w = some (g.shortestPath v w) := by
  rw [shortestPath_eq]
  unfold shortestPath? Snapshot.shortestPath
  simp only [layout?_eq valid, Option.bind_eq_bind, Option.bind_some, Snapshot.number?_layout]
  cases g.snapshot.number? v with
  | none => rfl
  | some a =>
      cases g.snapshot.number? w with
      | none => rfl
      | some b =>
          simp only [Option.map_some, Snapshot.between?_layout, Option.bind_some]
          cases g.snapshot.digraph.between? a b with
          | none => rfl
          | some path => simp [Snapshot.labels?_layout]

theorem longestPath?_eq (valid : g.Valid) (v : Vertex) :
    g.longestPath? v = some (g.longestPath v) := by
  rw [longestPath_eq]
  unfold longestPath? Snapshot.longestPath
  simp only [layout?_eq valid, Option.bind_eq_bind, Option.bind_some, Snapshot.number?_layout]
  cases g.snapshot.number? v with
  | none => rfl
  | some a =>
      simp only [Option.map_some, Snapshot.routes?_layout, Option.bind_some]
      cases above : g.snapshot.digraph.routes? (g.direction.way .roots) .longest a with
      | none => rfl
      | some up =>
          cases below : g.snapshot.digraph.routes? (g.direction.way .leaves) .longest a with
          | none => rfl
          | some down =>
              simp only [Option.map_some, Snapshot.through?_layout _ above below,
                Snapshot.labels?_layout, Option.bind_some]
              cases g.direction <;> rfl

theorem distances?_eq (valid : g.Valid) (start : Vertex) (extent : Extent) :
    g.distances? start extent = some (g.distances start extent) := by
  unfold distances? distances
  simp only [layout?_eq valid, Option.bind_eq_bind, Option.bind_some, Snapshot.number?_layout]
  cases g.snapshot.number? start with
  | none => rfl
  | some s =>
      simp only [Option.map_some, Snapshot.routes?_layout, Option.bind_some]
      cases g.snapshot.digraph.routes? (g.direction.way .leaves) extent s with
      | none => rfl
      | some routes =>
          simp only [Option.map_some, Snapshot.filterMap?_distanceAt?, Option.bind_some]
          rfl

theorem dominatorTree?_eq (valid : g.Valid) (root : Vertex) :
    g.dominatorTree? root = some (g.dominatorTree root) := by
  unfold dominatorTree? dominatorTree
  simp only [layout?_eq valid, Option.bind_eq_bind, Option.bind_some, Snapshot.number?_layout]
  cases g.snapshot.number? root with
  | none => rfl
  | some r =>
      simp only [Option.map_some, Snapshot.dominators?_layout, Option.bind_some]
      exact Snapshot.filterMap?_parentAt? _ _ r

theorem dominatedBy?_eq (valid : g.Valid) (v root : Vertex) (order : SearchOrder) :
    g.dominatedBy? v root order = some (g.dominatedBy v root order) := by
  unfold dominatedBy? dominatedBy
  simp only [layout?_eq valid, Option.bind_eq_bind, Option.bind_some, Snapshot.number?_layout]
  cases g.snapshot.number? v with
  | none => rfl
  | some a =>
      cases g.snapshot.number? root with
      | none => rfl
      | some r =>
          simp only [Option.map_some, Snapshot.search?_layout, Snapshot.dominators?_layout,
            DominatorTree.below?_eq, VertexSet.filter?_marks, Option.bind_some]
          exact Snapshot.labels?_layout _ _

end Graph

end Provenance
