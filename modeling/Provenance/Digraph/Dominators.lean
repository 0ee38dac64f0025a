import Provenance.Digraph.Walk

/-! # Dominators

A vertex dominates another if every walk from the root to the other passes through it. The nearest
such vertices form a tree, found by sweeping over the vertices in reverse finishing order until no
parent changes.
-/

namespace Provenance

variable {n : Nat}

/-- The parent of each vertex in the tree so far; the root is its own parent. -/
abbrev Parents (n : Nat) := VertexMap (Option (Fin n)) n

namespace Parents

/-- The first common ancestor of two vertices. Parents have smaller ranks, so the vertex of the
greater rank goes up; none if one of the two cannot. -/
def meet? (rank : Fin n → Nat) (parents : Parents n) (a b : Fin n) : Option (Fin n) :=
  if a = b then some a
  else if rank b < rank a then
    match parents.get a with
    | some p => if rank p < rank a then meet? rank parents p b else none
    | none => none
  else
    match parents.get b with
    | some p => if rank p < rank b then meet? rank parents a p else none
    | none => none
termination_by rank a + rank b

/-- The common ancestor of the vertices seen before and one more, if that one is in the tree. -/
def join (rank : Fin n → Nat) (parents : Parents n) (best : Option (Fin n)) (p : Fin n) :
    Option (Fin n) :=
  match parents.get p, best with
  | none, _ => best
  | some _, none => some p
  | some _, some q => parents.meet? rank p q

/-- Sets the parent of a vertex to the common ancestor of those it can be reached from. -/
def relax (rank : Fin n → Nat) (prev : Fin n → List (Fin n)) (parents : Parents n) (v : Fin n) :
    Parents n :=
  match (prev v).foldl (parents.join rank) none with
  | none => parents
  | some p => parents.set v (some p)

/-- A sum that sinks when a parent moves to a smaller rank. -/
def height (rank : Fin n → Nat) (parents : Parents n) : Nat :=
  (List.finRange n).foldr (fun v total => ((parents.get v).map rank).getD (n + 1) + total) 0

def sweep (rank : Fin n → Nat) (prev : Fin n → List (Fin n)) (order : List (Fin n))
    (parents : Parents n) : Parents n :=
  order.foldl (relax rank prev) parents

/-- Sweeps over the given vertices until a sweep lowers no parent. -/
def settle (rank : Fin n → Nat) (prev : Fin n → List (Fin n)) (order : List (Fin n))
    (parents : Parents n) : Parents n :=
  let swept := parents.sweep rank prev order
  if swept.height rank < parents.height rank then settle rank prev order swept else swept
termination_by parents.height rank

end Parents

/-- The tree by the parents of its vertices. A vertex without a parent is not in it. -/
structure DominatorTree (n : Nat) where
  parents : Parents n

namespace DominatorTree

/-- The position of each vertex in a list; `n` for one that is not in it. -/
def ranks (order : List (Fin n)) : VertexMap Nat n :=
  order.zipIdx.foldl (fun ranks (v, i) => ranks.set v i) (.const n)

/-- Puts a vertex to the end of the list of its parent, unless it is its own parent. -/
def addChild (tree : DominatorTree n) (lists : Neighbors n) (u : Fin n) : Neighbors n :=
  match tree.parents.get u with
  | none => lists
  | some p => if p = u then lists else lists.set p (lists.get p ++ [u])

/-- The vertices that each vertex is the parent of. -/
def children (tree : DominatorTree n) : Neighbors n :=
  (List.finRange n).foldl tree.addChild (.const [])

/-- Takes vertices from the top of a stack and puts their children there that have no mark yet. The
answer holds the marks at the end. -/
def gather (next : Fin n → List (Fin n)) (seen : VertexSet n) : List (Fin n) → VertexSet n
  | [] => seen
  | u :: stack =>
      gather next (seen.mark (next u)).2 ((seen.mark (next u)).1.reverse ++ stack)
termination_by stack => seen.missing (fun _ => 1) + stack.length
decreasing_by
  have le := seen.missing_mark_le (next u)
  rw [List.length_append, List.length_reverse, List.length_cons]
  omega

/-- A vertex and all vertices below it in the tree. -/
def below (tree : DominatorTree n) (top : Fin n) : VertexSet n :=
  gather tree.children.get (VertexSet.ofList [top]) [top]

end DominatorTree

namespace Digraph

def dominators (d : Digraph n) (way : Way) (root : Fin n) : DominatorTree n :=
  let order := (d.finishing way root).reverse
  let ranks := DominatorTree.ranks order
  let start : Parents n := (VertexMap.const none).set root (some root)
  { parents := start.settle ranks.get (d.neighbors way.flip) order.tail }

end Digraph

end Provenance
