import Provenance.Graph.Order
import Provenance.Graph.Paths
import Provenance.Proofs.Digraph.Farthest
import Provenance.Proofs.Graph.Snapshot

/-! # Orders and paths of a graph

What the searches for an order or a path come to, told in terms of the snapshot.
-/

open Relation (TransGen ReflTransGen)

namespace Provenance

/-! ## Between two vertices -/

/-- A path is looked for from `a` and, if none leads to `b`, from there. Neither search that is made
meets a cycle. -/
def Findable {α : Type} (r : α → α → Prop) (a b : α) : Prop :=
  a = b ∨ Clear r a ∧ (ReflTransGen r a b ∨ Clear r b)

namespace Digraph

variable {n : Nat} {d d' : Digraph n} {a b : Fin n}

/-- The shortest path between two vertices, along the edges or else against them. -/
def between? (d : Digraph n) (a b : Fin n) : Option (List (Fin n)) :=
  if a = b then some [a]
  else
    match d.routes? .along .shortest a with
    | none => none
    | some forth =>
        if forth.reaches b then some (forth.chainTo b).reverse
        else
          match d.routes? .along .shortest b with
          | none => none
          | some back => if back.reaches a then some (back.chainTo a) else some []

/-- The fewest steps from one vertex to another. -/
structure Least (d : Digraph n) (a b : Fin n) (k : Nat) : Prop where
  steps : Steps d.Edge a k b
  least : ∀ j, Steps d.Edge a j b → k ≤ j

theorem Least.unique {k k' : Nat} (least : d.Least a b k) (least' : d.Least a b k') : k' = k :=
  Nat.le_antisymm (least'.least k least.steps) (least.least k' least'.steps)

theorem Least.turn (opposite : d.Opposite d') {k : Nat} (least : d'.Least a b k) :
    d.Least b a k where
  steps := by
    have steps := least.steps
    rw [opposite.edge_eq] at steps
    exact steps.swap
  least j steps := by
    apply least.least
    rw [opposite.edge_eq]
    exact steps.swap

theorem reaches_along {extent : Extent} {routes : Routes n}
    (found : d.routes? .along extent a = some routes) :
    routes.reaches b = true ↔ ReflTransGen d.Edge a b :=
  (routes?_eq_some found).1.reaches_iff

theorem clear_of_routes {extent : Extent} {routes : Routes n}
    (found : d.routes? .along extent a = some routes) : Clear d.Edge a :=
  routes?_isSome_iff.mp (Option.isSome_of_eq_some found)

theorem shortest_chain {routes : Routes n} (found : d.routes? .along .shortest a = some routes)
    (reached : routes.reaches b = true) :
    ∃ k, d.Least a b k ∧ (routes.chainTo b).length = k + 1 ∧ (routes.chainTo b).head? = some b ∧
      (routes.chainTo b).getLast? = some a := by
  obtain ⟨settled, -⟩ := routes?_eq_some found
  obtain ⟨j, steps⟩ := exists_steps ((reaches_along found).mp reached)
  obtain ⟨k, known, -⟩ := settled.asGood steps
  obtain ⟨steps, best⟩ := settled.distance?_eq_some.mp known
  refine ⟨k, ⟨steps, ?_⟩, chainTo_spec found known⟩
  intro j steps
  simpa [Extent.improves] using best j steps

theorem between?_isSome_iff :
    (d.between? a b).isSome ↔ Findable d.Edge a b := by
  have clear_iff : ∀ c, Clear d.Edge c ↔ (d.routes? .along .shortest c).isSome := fun c =>
    routes?_isSome_iff.symm
  unfold between? Findable
  by_cases same : a = b
  · simp [same]
  · rw [if_neg same, clear_iff, clear_iff]
    cases forth : d.routes? .along .shortest a with
    | none => simp [same]
    | some routes =>
        have reached := reaches_along (b := b) forth
        dsimp only
        split
        next reaches => simp [reached.mp reaches]
        next missed =>
          have missed : ¬ ReflTransGen d.Edge a b := fun way => missed (reached.mpr way)
          cases d.routes? .along .shortest b with
          | none => simp [same, missed]
          | some back =>
              dsimp only
              split <;> simp

/-- A path of a number of steps has its ends at the given vertices. -/
structure Spans (path : List (Fin n)) (a b : Fin n) (k : Nat) : Prop where
  length : path.length = k + 1
  first : path.head? = some a
  last : path.getLast? = some b

/-- How the path that is found lies between two vertices. -/
inductive Connects (d : Digraph n) (a b : Fin n) (path : List (Fin n)) : Prop where
  | same (equal : a = b) (alone : path = [a])
  | forth (k : Nat) (apart : a ≠ b) (clear : Clear d.Edge a) (least : d.Least a b k)
      (spans : Spans path a b k)
  | back (k : Nat) (apart : a ≠ b) (clear : Clear d.Edge b) (least : d.Least b a k)
      (spans : Spans path a b k)
  | missed (forth : ¬ ReflTransGen d.Edge a b) (back : ¬ ReflTransGen d.Edge b a)
      (empty : path = [])

/-- A path is found on one of the two searches, or else both have missed. -/
theorem search_of_between? {path : List (Fin n)} (found : d.between? a b = some path) :
    a = b ∧ path = [a] ∨
      (∃ forth, a ≠ b ∧ d.routes? .along .shortest a = some forth ∧ forth.reaches b = true ∧
        path = (forth.chainTo b).reverse) ∨
      (∃ back, a ≠ b ∧ d.routes? .along .shortest b = some back ∧ back.reaches a = true ∧
        path = back.chainTo a) ∨
      ¬ ReflTransGen d.Edge a b ∧ ¬ ReflTransGen d.Edge b a ∧ path = [] := by
  unfold between? at found
  by_cases same : a = b
  · rw [if_pos same] at found
    exact .inl ⟨same, (Option.some.inj found).symm⟩
  rw [if_neg same] at found
  cases searched : d.routes? .along .shortest a with
  | none => simp [searched] at found
  | some forth =>
      have reached := reaches_along (b := b) searched
      simp only [searched] at found
      split at found
      next reaches =>
        exact .inr (.inl ⟨forth, same, rfl, reaches, (Option.some.inj found).symm⟩)
      next missed =>
        cases searched' : d.routes? .along .shortest b with
        | none => simp [searched'] at found
        | some back =>
            have reached' := reaches_along (b := a) searched'
            simp only [searched'] at found
            split at found
            next reaches =>
              exact .inr (.inr (.inl ⟨back, same, rfl, reaches, (Option.some.inj found).symm⟩))
            next missed' =>
              exact .inr (.inr (.inr ⟨fun way => missed (reached.mpr way),
                fun way => missed' (reached'.mpr way), (Option.some.inj found).symm⟩))

theorem connects_of_between? {path : List (Fin n)} (found : d.between? a b = some path) :
    d.Connects a b path := by
  rcases search_of_between? found with ⟨same, alone⟩ | ⟨forth, apart, searched, reaches, rfl⟩ |
    ⟨back, apart, searched, reaches, rfl⟩ | ⟨missed, missed', empty⟩
  · exact .same same alone
  · obtain ⟨k, least, length, first, last⟩ := shortest_chain searched reaches
    refine .forth k apart (clear_of_routes searched) least ⟨?_, ?_, ?_⟩
    · rw [List.length_reverse, length]
    · rw [List.head?_reverse, last]
    · rw [List.getLast?_reverse, first]
  · obtain ⟨k, least, spans⟩ := shortest_chain searched reaches
    exact .back k apart (clear_of_routes searched) least ⟨spans.1, spans.2.1, spans.2.2⟩
  · exact .missed missed missed' empty

/-- A path that is found follows the edges from one vertex to the other, or all of them back. -/
theorem isPath_of_between? {path : List (Fin n)} (found : d.between? a b = some path)
    (any : path ≠ []) : IsPath d.Edge a b path ∨ IsPath (Function.swap d.Edge) a b path := by
  rcases search_of_between? found with ⟨same, alone⟩ | ⟨forth, -, searched, reaches, rfl⟩ |
    ⟨back, -, searched, reaches, rfl⟩ | ⟨-, -, empty⟩
  · rw [alone, ← same]
    exact .inl (.refl d.Edge a)
  · exact .inl (isPath_chainTo searched reaches)
  · have along := (isPath_chainTo searched reaches).reverse
    rw [List.reverse_reverse] at along
    exact .inr along
  · exact absurd empty any

/-- The path is empty if no way leads from one of the vertices to the other. -/
theorem between?_eq_nil_iff {path : List (Fin n)} (found : d.between? a b = some path) :
    path = [] ↔ ¬ ReflTransGen d.Edge a b ∧ ¬ ReflTransGen d.Edge b a := by
  have some_steps : ∀ {x y k}, Spans path x y k → path ≠ [] := fun spans none_left =>
    Nat.succ_ne_zero _ (spans.length.symm.trans (congrArg List.length none_left))
  cases connects_of_between? found with
  | same equal alone =>
      refine iff_of_false (by simp [alone]) fun none_found => ?_
      exact none_found.1 (equal ▸ .refl)
  | forth k _ _ least spans =>
      exact iff_of_false (some_steps spans) fun none_found => none_found.1 least.steps.way
  | back k _ _ least spans =>
      exact iff_of_false (some_steps spans) fun none_found => none_found.2 least.steps.way
  | missed forth back empty => exact iff_of_true empty ⟨forth, back⟩

/-- A path that is found between two vertices has the same length and the same ends if all edges
are turned round. -/
theorem Opposite.between? (opposite : d.Opposite d') {path path' : List (Fin n)}
    (found : d.between? a b = some path) (found' : d'.between? a b = some path') :
    path'.length = path.length ∧ path'.head? = path.head? ∧ path'.getLast? = path.getLast? := by
  have turned : ∀ {x y k}, d'.Least x y k → d.Least y x k := Least.turn opposite
  have agree : ∀ {x y k k'}, Spans path a b k → Spans path' a b k' → d.Least x y k →
      d.Least x y k' → path'.length = path.length ∧ path'.head? = path.head? ∧
        path'.getLast? = path.getLast? := by
    intro x y k k' spans spans' least least'
    rw [spans.length, spans'.length, least.unique least', spans.first, spans'.first, spans.last,
      spans'.last]
    exact ⟨rfl, rfl, rfl⟩
  cases connects_of_between? found with
  | same equal alone =>
      cases connects_of_between? found' with
      | same _ alone' => rw [alone, alone']; exact ⟨rfl, rfl, rfl⟩
      | forth _ apart => exact absurd equal apart
      | back _ apart => exact absurd equal apart
      | missed forth => exact absurd (equal ▸ .refl) forth
  | forth k apart clear least spans =>
      cases connects_of_between? found' with
      | same equal => exact absurd equal apart
      | forth k' _ _ least' =>
          exact (clear.no_way_back apart least.steps.way (turned least').steps.way).elim
      | back k' _ _ least' spans' => exact agree spans spans' least (turned least')
      | missed _ back => exact absurd (opposite.reflTransGen_iff.mpr least.steps.way) back
  | back k apart clear least spans =>
      cases connects_of_between? found' with
      | same equal => exact absurd equal apart
      | forth k' _ _ least' spans' => exact agree spans spans' least (turned least')
      | back k' _ _ least' =>
          exact (clear.no_way_back apart.symm least.steps.way (turned least').steps.way).elim
      | missed forth => exact absurd (opposite.reflTransGen_iff.mpr least.steps.way) forth
  | missed forth back empty =>
      cases connects_of_between? found' with
      | same equal => exact absurd (equal ▸ .refl) forth
      | forth k' _ _ least' => exact absurd (turned least').steps.way back
      | back k' _ _ least' => exact absurd (turned least').steps.way forth
      | missed _ _ empty' => rw [empty, empty']; exact ⟨rfl, rfl, rfl⟩

end Digraph

/-- A shortest path between two vertices, as it is found on a snapshot. -/
def Snapshot.shortestPath (t : Snapshot) (v w : Vertex) : Except GraphError (List Vertex) :=
  match t.number? v, t.number? w with
  | some a, some b =>
      match t.digraph.between? a b with
      | some path => .ok (path.map t.label)
      | none => .error (.notAcyclic .shortestPath)
  | _, _ => .ok []

/-- The longest path through a vertex, as it is found on a snapshot. -/
def Snapshot.longestPath (t : Snapshot) (direction : Direction) (v : Vertex) :
    Except GraphError (List Vertex) :=
  match t.number? v with
  | none => .ok []
  | some a =>
      match t.digraph.routes? (direction.way .roots) .longest a,
          t.digraph.routes? (direction.way .leaves) .longest a with
      | some up, some down =>
          match direction with
          | .parentToChild => .ok ((up.through down a).map t.label)
          | .childToParent => .ok ((up.through down a).map t.label).reverse
      | _, _ => .error (.notAcyclic .longestPath)

namespace Graph

variable {N E : Type} {g : Graph N E}

/-! ## Orders -/

theorem topologicalSort_eq (g : Graph N E) :
    g.topologicalSort =
      match g.snapshot.digraph.topologicalOrder? with
      | some order => .ok (order.map g.snapshot.label)
      | none => .error (.notAcyclic .topologicalSort) := by
  unfold topologicalSort
  dsimp only
  cases g.snapshot.digraph.topologicalOrder? <;> rfl

theorem topologicalSort_ok_iff (valid : g.Valid) :
    (∃ order, g.topologicalSort = .ok order) ↔ ∀ v, ¬ TransGen g.Joined v v := by
  rw [← valid.acyclic_snapshot, ← Digraph.topologicalOrder?_isSome_iff, topologicalSort_eq]
  cases g.snapshot.digraph.topologicalOrder? <;> simp

theorem topologicalSort_of_cycle (valid : g.Valid) (cyclic : ¬ ∀ v, ¬ TransGen g.Joined v v) :
    g.topologicalSort = .error (.notAcyclic .topologicalSort) := by
  rw [← valid.acyclic_snapshot, ← Digraph.topologicalOrder?_isSome_iff,
    Option.not_isSome_iff_eq_none] at cyclic
  rw [topologicalSort_eq, cyclic]

/-- An order lists the live vertices, each once, and the start of a chain before its end. -/
theorem Valid.topologicalSort_spec (valid : g.Valid) {order : List Vertex}
    (sorted : g.topologicalSort = .ok order) :
    order.Nodup ∧ (∀ v, v ∈ order ↔ g.containsVertex v = true) ∧
      ∀ s t, TransGen g.Joined s t → [s, t].Sublist order := by
  rw [topologicalSort_eq] at sorted
  cases found : g.snapshot.digraph.topologicalOrder? with
  | none => simp [found] at sorted
  | some numbers =>
      simp only [found, Except.ok.injEq] at sorted
      obtain rfl := sorted
      have topological := Digraph.topologicalOrder?_eq_some found
      refine ⟨topological.nodup.map fun _ _ => label_inj,
        fun v => ⟨live_of_mem_labels, fun live => ?_⟩, fun s t chain => ?_⟩
      · obtain ⟨i, rfl⟩ := exists_label live
        exact List.mem_map_of_mem (topological.complete i)
      · obtain ⟨live, live'⟩ := valid.live_of_chain chain
        obtain ⟨i, rfl⟩ := exists_label live
        obtain ⟨j, rfl⟩ := exists_label live'
        exact (topological.sublist_of_chain (valid.transGen_snapshot.mpr chain)).map _

/-! ## Paths -/

theorem longestPath_eq (g : Graph N E) (v : Vertex) :
    g.longestPath v = g.snapshot.longestPath g.direction v := by
  unfold longestPath Snapshot.longestPath Routes.through
  dsimp only
  cases g.snapshot.number? v with
  | none => rfl
  | some a =>
      dsimp only
      cases g.snapshot.digraph.routes? (g.direction.way .roots) .longest a with
      | none => rfl
      | some up =>
          cases g.snapshot.digraph.routes? (g.direction.way .leaves) .longest a with
          | none => rfl
          | some down =>
              simp only [Operation.require, bind, Except.bind, pure, Except.pure]
              generalize up.farthest? = root
              generalize down.farthest? = leaf
              cases g.direction <;> cases root <;> cases leaf <;> rfl

theorem shortestPath_eq (g : Graph N E) (v w : Vertex) :
    g.shortestPath v w = g.snapshot.shortestPath v w := by
  unfold shortestPath Snapshot.shortestPath Digraph.between?
  dsimp only
  cases number : g.snapshot.number? v with
  | none => rfl
  | some a =>
      cases g.snapshot.number? w with
      | none => rfl
      | some b =>
          dsimp only
          split
          next =>
            dsimp only
            rw [List.map_singleton, number?_eq_some.mp number]
            rfl
          next apart =>
            cases g.snapshot.digraph.routes? .along .shortest a with
            | none => rfl
            | some forth =>
                simp only [Operation.require, bind, Except.bind, pure, Except.pure]
                split
                · rfl
                · cases g.snapshot.digraph.routes? .along .shortest b with
                  | none => rfl
                  | some back =>
                      dsimp only
                      split <;> rfl

theorem live_of_longestPath {v : Vertex} {path : List Vertex} (found : g.longestPath v = .ok path)
    {u : Vertex} (listed : u ∈ path) : g.containsVertex u = true := by
  rw [longestPath_eq] at found
  unfold Snapshot.longestPath at found
  split at found
  · cases found
    cases listed
  · split at found
    · split at found <;> cases found
      · exact live_of_mem_labels listed
      · exact live_of_mem_labels (List.mem_reverse.mp listed)
    · cases found

theorem live_of_shortestPath {v w : Vertex} {path : List Vertex}
    (found : g.shortestPath v w = .ok path) {u : Vertex} (listed : u ∈ path) :
    g.containsVertex u = true := by
  rw [shortestPath_eq] at found
  unfold Snapshot.shortestPath at found
  split at found
  · split at found
    · obtain rfl := Except.ok.inj found
      exact live_of_mem_labels listed
    · cases found
  · cases found
    cases listed

theorem Valid.reflTransGen_snapshot (valid : g.Valid) {i j : Fin g.snapshot.size} :
    ReflTransGen g.snapshot.digraph.Edge i j ↔
      ReflTransGen g.Joined (g.snapshot.label i) (g.snapshot.label j) := by
  rw [Relation.reflTransGen_iff_eq_or_transGen, Relation.reflTransGen_iff_eq_or_transGen,
    valid.transGen_snapshot]
  refine or_congr_left ⟨fun same => by rw [same], fun same => label_inj same⟩

theorem Valid.clear_snapshot (valid : g.Valid) {i : Fin g.snapshot.size} :
    Clear g.snapshot.digraph.Edge i ↔ Clear g.Joined (g.snapshot.label i) := by
  constructor
  · intro clear u way cycle
    obtain ⟨j, rfl⟩ := exists_label (valid.live_of_chain cycle).1
    exact clear j (valid.reflTransGen_snapshot.mpr way) (valid.transGen_snapshot.mpr cycle)
  · intro clear j way cycle
    exact clear _ (valid.reflTransGen_snapshot.mp way) (valid.transGen_snapshot.mp cycle)

theorem Valid.shortestPath_ok_iff (valid : g.Valid) {v w : Vertex}
    (live : g.containsVertex v = true) (live' : g.containsVertex w = true) :
    (∃ path, g.shortestPath v w = .ok path) ↔ Findable g.Joined v w := by
  obtain ⟨a, rfl⟩ := exists_label live
  obtain ⟨b, rfl⟩ := exists_label live'
  have same : g.snapshot.label a = g.snapshot.label b ↔ a = b :=
    ⟨fun same => label_inj same, fun same => by rw [same]⟩
  rw [Findable, same, ← valid.clear_snapshot, ← valid.clear_snapshot,
    ← valid.reflTransGen_snapshot, ← Findable, ← Digraph.between?_isSome_iff, shortestPath_eq,
    Snapshot.shortestPath, number?_eq_some.mpr rfl, number?_eq_some.mpr rfl]
  dsimp only
  cases g.snapshot.digraph.between? a b <;> simp

theorem Valid.shortestPath_eq_nil_iff (valid : g.Valid) {v w : Vertex} {path : List Vertex}
    (live : g.containsVertex v = true) (live' : g.containsVertex w = true)
    (found : g.shortestPath v w = .ok path) :
    path = [] ↔ ¬ ReflTransGen g.Joined v w ∧ ¬ ReflTransGen g.Joined w v := by
  obtain ⟨a, rfl⟩ := exists_label live
  obtain ⟨b, rfl⟩ := exists_label live'
  rw [shortestPath_eq, Snapshot.shortestPath, number?_eq_some.mpr rfl,
    number?_eq_some.mpr rfl] at found
  dsimp only at found
  split at found
  next numbers between =>
    rw [← Except.ok.inj found, List.map_eq_nil_iff, Digraph.between?_eq_nil_iff between,
      valid.reflTransGen_snapshot, valid.reflTransGen_snapshot]
  next => cases found

/-- A path that is not empty follows the edges between its ends, all of them the same way. -/
theorem Valid.isPath_of_shortestPath (valid : g.Valid) {v w : Vertex} {path : List Vertex}
    (found : g.shortestPath v w = .ok path) (any : path ≠ []) :
    IsPath g.Joined v w path ∨ IsPath (Function.swap g.Joined) v w path := by
  rw [shortestPath_eq] at found
  unfold Snapshot.shortestPath at found
  split at found
  next a b number number' =>
    obtain rfl := number?_eq_some.mp number
    obtain rfl := number?_eq_some.mp number'
    split at found
    next numbers between =>
      obtain rfl := Except.ok.inj found
      have any : numbers ≠ [] := fun none_left => any (by rw [none_left]; rfl)
      rcases Digraph.isPath_of_between? between any with along | against
      · exact .inl (along.map fun _ _ => valid.edge_snapshot.mp)
      · exact .inr (against.map fun _ _ => valid.edge_snapshot.mp)
    next => cases found
  next => exact absurd (Except.ok.inj found).symm any

end Graph

end Provenance
