import Provenance.Proofs.Digraph.Dominators
import Provenance.Proofs.Tables.Walks

/-! # Dominators on tables

Ranks and parents are only known for some of the vertices, and to use one that is not known is a
failure. Parents of vertices in the tree are in the tree, up to the root, so it does not happen.
-/

namespace Provenance

namespace Table

/-- The rank of a vertex. A vertex without one has the number of all vertices in its place. -/
def rank? (ranks : Array Nat) (v : Nat) : Option Nat := do
  let rank ← ranks[v]?
  if rank < ranks.size then return rank else none

def ranks? (n : Nat) (order : List Nat) : Option (Array Nat) :=
  order.zipIdx.foldlM (fun ranks (v, rank) => write? ranks v rank) (Array.replicate n n)

/-- The parent of a vertex in the tree. -/
def parent? (parents : Array (Option Nat)) (v : Nat) : Option Nat := parents[v]?.join

/-- Fails if the vertices do not meet within the given number of steps. -/
def meet? (ranks : Array Nat) (parents : Array (Option Nat)) : Nat → Nat → Nat → Option Nat
  | 0, _, _ => none
  | steps + 1, a, b =>
      if a = b then some a
      else do
        let rank ← rank? ranks a
        let rank' ← rank? ranks b
        if rank' < rank then meet? ranks parents steps (← parent? parents a) b
        else meet? ranks parents steps a (← parent? parents b)

def join? (ranks : Array Nat) (parents : Array (Option Nat)) (best : Option Nat) (p : Nat) :
    Option (Option Nat) := do
  match ← parents[p]?, best with
  | none, _ => return best
  | some _, none => return some p
  | some _, some q => return some (← meet? ranks parents (2 * ranks.size) p q)

def relax? (ranks : Array Nat) (prev : Array (List Nat)) (parents : Array (Option Nat)) (v : Nat) :
    Option (Array (Option Nat)) := do
  match ← (← prev[v]?).foldlM (join? ranks parents) none with
  | none => return parents
  | some p => write? parents v (some p)

def sweep? (ranks : Array Nat) (prev : Array (List Nat)) (order : List Nat)
    (parents : Array (Option Nat)) : Option (Array (Option Nat)) :=
  order.foldlM (relax? ranks prev) parents

/-- Sweeps until nothing changes. Fails if that takes more than the given number of sweeps. -/
def sweeps? (ranks : Array Nat) (prev : Array (List Nat)) (order : List Nat) :
    Nat → Array (Option Nat) → Option (Array (Option Nat))
  | 0, _ => none
  | sweeps + 1, parents => do
      let swept ← sweep? ranks prev order parents
      if swept = parents then return parents else sweeps? ranks prev order sweeps swept

def dominators? (prev : Array (List Nat)) (root : Nat) (order : List Nat) :
    Option (Array (Option Nat)) := do
  let n := prev.size
  let ranks ← ranks? n order
  let start ← write? (Array.replicate n none) root (some root)
  sweeps? ranks prev order.tail (n * (n + 1) + 1) start

def addChild? (parents : Array (Option Nat)) (lists : Array (List Nat)) (u : Nat) :
    Option (Array (List Nat)) := do
  match ← parents[u]? with
  | none => return lists
  | some p => if p = u then return lists else write? lists p ((← lists[p]?) ++ [u])

def children? (parents : Array (Option Nat)) : Option (Array (List Nat)) :=
  (List.range parents.size).foldlM (addChild? parents) (Array.replicate parents.size [])

/-- Fails if more vertices get onto the stack than the given number. -/
def gather? (next : Array (List Nat)) : Nat → Array Bool → List Nat → Option (Array Bool)
  | _, marks, [] => some marks
  | 0, _, _ :: _ => none
  | turns + 1, marks, u :: stack => do
      let (fresh, marks) ← unmarked? marks (← next[u]?)
      gather? next turns marks (fresh.reverse ++ stack)

def below? (parents : Array (Option Nat)) (top : Nat) : Option (Array Bool) := do
  let n := parents.size
  gather? (← children? parents) n (← write? (Array.replicate n false) top true) [top]

end Table

variable {n : Nat}

/-! ## Ranks -/

theorem ranks?_eq (order : List (Fin n)) :
    Table.ranks? n (order.map Fin.val) = some (DominatorTree.ranks order).table := by
  have numbers : (order.map Fin.val).zipIdx = order.zipIdx.map fun p => (p.1.val, p.2) := by
    rw [List.zipIdx_map]
    rfl
  have loop : ∀ (ps : List (Fin n × Nat)) (ranks : VertexMap Nat n),
      (ps.map fun p => (p.1.val, p.2)).foldlM
        (fun ranks p => Table.write? ranks p.1 p.2) ranks.table =
      some (ps.foldl (fun ranks p => ranks.set p.1 p.2) ranks).table := by
    intro ps
    induction ps with
    | nil => exact fun _ => rfl
    | cons p ps ih => exact fun ranks => by simp [ih]
  rw [Table.ranks?, numbers, ← VertexMap.table_const]
  exact loop _ _

/-! ## Trees -/

namespace Parents

variable {rank : VertexMap Nat n} {root : Fin n} {parents : Parents n} {a b q : Fin n}

/-- The parents by the numbers of the vertices. -/
def numbers (parents : Parents n) : Array (Option Nat) := (parents.map (·.map Fin.val)).table

@[simp]
theorem getElem?_numbers (v : Fin n) :
    parents.numbers[v.val]? = some ((parents.get v).map Fin.val) := by
  simp [numbers]

theorem numbers_inj {parents' : Parents n} (same : parents.numbers = parents'.numbers) :
    parents = parents' := by
  refine VertexMap.ext_get fun v => ?_
  have entry := congrArg (fun m : VertexMap (Option Nat) n => m.get v) (VertexMap.table_inj same)
  simp only [VertexMap.get_map] at entry
  exact Option.map_injective Fin.val_injective entry

/-- The vertices of the tree have ranks. -/
def Ranked (rank : VertexMap Nat n) (parents : Parents n) : Prop :=
  ∀ v, (parents.get v).isSome → rank.get v < n

theorem Ranked.rank? (ranked : Ranked rank parents) (inside : (parents.get a).isSome) :
    Table.rank? rank.table a.val = some (rank.get a) := by
  simp [Table.rank?, ranked a inside]

theorem parent?_eq {p : Fin n} (found : parents.get a = some p) :
    Table.parent? parents.numbers a.val = some p.val := by
  rw [Table.parent?, getElem?_numbers, found]
  rfl

theorem meet?_eq (tree : Tree rank.get root parents) (ranked : Ranked rank parents)
    (inside : (parents.get a).isSome) (inside' : (parents.get b).isSome)
    (met : parents.meet? rank.get a b = some q) {steps : Nat}
    (enough : rank.get a + rank.get b < steps) :
    Table.meet? rank.table parents.numbers steps a.val b.val = some q.val := by
  induction steps generalizing a b with
  | zero => omega
  | succ steps ih =>
      rw [Parents.meet?] at met
      rw [Table.meet?]
      simp only [Fin.val_inj, ranked.rank? inside, ranked.rank? inside', Option.bind_eq_bind,
        Option.bind_some]
      split at met
      next same =>
        rw [if_pos same, ← Option.some.inj met]
      next apart =>
        rw [if_neg apart]
        split at met
        next deeper =>
          obtain ⟨p, found⟩ := Option.isSome_iff_exists.mp inside
          rw [found] at met
          rw [if_pos deeper, parent?_eq found, Option.bind_some]
          dsimp only at met
          split at met
          next up => exact ih (tree.inside_of_up ⟨found, up⟩) inside' met (by omega)
          next => cases met
        next le =>
          obtain ⟨p, found⟩ := Option.isSome_iff_exists.mp inside'
          rw [found] at met
          rw [if_neg le, parent?_eq found, Option.bind_some]
          dsimp only at met
          split at met
          next up => exact ih inside (tree.inside_of_up ⟨found, up⟩) met (by omega)
          next => cases met

/-- What the vertices of a list come to so far is in the tree. -/
theorem join?_eq (tree : Tree rank.get root parents) (ranked : Ranked rank parents)
    {best : Option (Fin n)} (inside : ∀ q ∈ best, (parents.get q).isSome) (p : Fin n) :
    Table.join? rank.table parents.numbers (best.map Fin.val) p.val =
      some ((parents.join rank.get best p).map Fin.val) := by
  unfold Table.join? Parents.join
  rw [getElem?_numbers]
  cases found : parents.get p with
  | none => rfl
  | some _ =>
      cases best with
      | none => rfl
      | some q =>
          have here : (parents.get p).isSome := by rw [found]; rfl
          have known := inside q rfl
          obtain ⟨c, met, -⟩ := (meet?_spec rank.get parents p q root).mpr
            ⟨tree.root_above here, tree.root_above known⟩
          have steps : rank.get p + rank.get q < 2 * n := by
            have first := ranked p here
            have second := ranked q known
            omega
          have reached := meet?_eq tree ranked here known met steps
          rw [Option.mem_def] at met
          simp [reached, met]

theorem foldlM_join?_eq (tree : Tree rank.get root parents) (ranked : Ranked rank parents)
    (ps : List (Fin n)) :
    (ps.map Fin.val).foldlM (Table.join? rank.table parents.numbers) none =
      some ((ps.foldl (parents.join rank.get) none).map Fin.val) := by
  induction ps using List.reverseRecOn with
  | nil => rfl
  | append_singleton ps p ih =>
      have joined := join?_eq tree ranked (tree.foldl_join ps).inside p
      simp [List.foldlM_append, ih, joined]

theorem relax?_eq (tree : Tree rank.get root parents) (ranked : Ranked rank parents)
    (d : Digraph n) (way : Way) (v : Fin n) :
    Table.relax? rank.table (d.lists way) parents.numbers v.val =
      some (Parents.numbers (parents.relax rank.get (d.neighbors way) v)) := by
  unfold Table.relax? Parents.relax
  rw [Digraph.getElem?_lists, Option.bind_eq_bind, Option.bind_some, foldlM_join?_eq tree ranked]
  cases (d.neighbors way v).foldl (parents.join rank.get) none with
  | none => rfl
  | some p => simp [numbers, VertexMap.map_set]

end Parents

/-! ## Sweeps -/

namespace SweepOrder

open Parents

variable {next : Fin n → List (Fin n)} {d : Digraph n} {way : Way} {rank : VertexMap Nat n}
  {root : Fin n} {rest : List (Fin n)} {before : Parents n}

theorem sweep?_eq (order : SweepOrder next (d.neighbors way) rank.get root rest)
    (ranked : ∀ v ∈ root :: rest, rank.get v < n) (tree : Tree rank.get root before)
    (reached : ∀ v, (before.get v).isSome → v ∈ root :: rest) :
    Table.sweep? rank.table (d.lists way) (rest.map Fin.val) before.numbers =
      some (Parents.numbers (before.sweep rank.get (d.neighbors way) rest)) := by
  have front : ∀ done todo, rest = done ++ todo →
      (done.map Fin.val).foldlM (Table.relax? rank.table (d.lists way)) before.numbers =
        some (Parents.numbers (done.foldl (Parents.relax rank.get (d.neighbors way)) before)) := by
    intro done
    induction done using List.reverseRecOn with
    | nil => exact fun _ _ => rfl
    | append_singleton done v ih =>
        intro todo split
        rw [List.append_assoc, List.singleton_append] at split
        have part := order.part tree done (v :: todo) split
        have all_ranked : Ranked rank
            (done.foldl (Parents.relax rank.get (d.neighbors way)) before) := by
          intro w known
          refine ranked w ?_
          rcases (part.inside w).mp known with first | old
          · rw [split]
            exact List.mem_cons_of_mem _ (List.mem_append_left _ first)
          · exact reached w old
        simp [List.foldlM_append, ih _ split, relax?_eq part.tree all_ranked]
  exact front rest [] (List.append_nil _).symm

theorem sweeps?_eq (order : SweepOrder next (d.neighbors way) rank.get root rest)
    (ranked : ∀ v ∈ root :: rest, rank.get v < n) (balanced : Balanced next rank.get root before)
    (reached : ∀ v, (before.get v).isSome → v ∈ root :: rest) {sweeps : Nat}
    (enough : before.height rank.get < sweeps) :
    Table.sweeps? rank.table (d.lists way) (rest.map Fin.val) sweeps before.numbers =
      some (Parents.numbers (before.settle rank.get (d.neighbors way) rest)) := by
  induction sweeps generalizing before with
  | zero => omega
  | succ sweeps ih =>
      have swept := order.swept balanced.toTree reached
      have inside := order.inside_sweep balanced.toTree reached
      rw [Table.sweeps?, order.sweep?_eq ranked balanced.toTree reached, Parents.settle]
      simp only [Option.bind_eq_bind, Option.bind_some]
      by_cases lower : (before.sweep rank.get (d.neighbors way) rest).height rank.get <
          before.height rank.get
      · rw [if_pos lower, if_neg]
        · exact ih (swept.balanced balanced) (fun v => (inside v).mp) (by omega)
        · intro same
          rw [numbers_inj same] at lower
          exact Nat.lt_irrefl _ lower
      · rw [if_neg lower, swept.eq_of_height balanced order.rank_le lower, if_pos rfl]
        rfl

end SweepOrder

theorem Parents.height_le {rank : Fin n → Nat} (rank_le : ∀ v, rank v ≤ n) (parents : Parents n) :
    parents.height rank ≤ n * (n + 1) := by
  rw [height_eq]
  have bound := List.sum_le_card_nsmul
    ((List.finRange n).map fun v => ((parents.get v).map rank).getD (n + 1)) (n + 1) ?_
  · simpa using bound
  · simp only [List.mem_map]
    rintro _ ⟨v, -, rfl⟩
    cases parents.get v with
    | none => exact Nat.le_refl _
    | some p => exact Nat.le_succ_of_le (rank_le p)

/-- The dominators are found without a failing access, and only from ranks and parents that are
known. -/
theorem dominators?_eq (d : Digraph n) (way : Way) (root : Fin n) :
    Table.dominators? (d.lists way.flip) root.val ((d.finishing way root).reverse.map Fin.val) =
      some (Parents.numbers (d.dominators way root).parents) := by
  obtain ⟨rest, split, order⟩ := d.sweepOrder way root
  have start : Table.write? (Array.replicate n none) root.val (some root.val) =
      some (Parents.numbers ((VertexMap.const none).set root (some root))) := by
    rw [← VertexMap.table_const, VertexMap.write?_table]
    simp [Parents.numbers, VertexMap.map_set, VertexMap.map_const]
  have ranked : ∀ v ∈ root :: rest, (DominatorTree.ranks (root :: rest)).get v < n := by
    intro v listed
    refine DominatorTree.ranks_lt ?_ listed
    rw [← split, List.nodup_reverse, Digraph.finishing_perm.nodup_iff]
    exact Digraph.nodup_depthFirst
  unfold Table.dominators? Digraph.dominators
  dsimp only
  rw [split, Digraph.size_lists, ranks?_eq, Option.bind_eq_bind, Option.bind_some, start,
    Option.bind_eq_bind, Option.bind_some]
  refine order.sweeps?_eq ranked (Parents.balanced_start _ _ root) (fun v known => ?_) ?_
  · rw [Parents.isSome_start.mp known]
    exact List.mem_cons_self
  · exact Nat.lt_succ_of_le (Parents.height_le order.rank_le _)

/-! ## What is below a vertex -/

/-- Lists of vertices by their numbers. -/
def Neighbors.numbers (lists : Neighbors n) : Array (List Nat) :=
  (VertexMap.map (List.map Fin.val) lists).table

@[simp]
theorem Neighbors.getElem?_numbers (lists : Neighbors n) (u : Fin n) :
    lists.numbers[u.val]? = some ((lists.get u).map Fin.val) := by
  rw [numbers, VertexMap.getElem?_table, VertexMap.get_map]

namespace DominatorTree

variable (tree : DominatorTree n)

theorem addChild?_eq (lists : Neighbors n) (u : Fin n) :
    Table.addChild? tree.parents.numbers lists.numbers u.val =
      some (Neighbors.numbers (tree.addChild lists u)) := by
  unfold Table.addChild? addChild
  rw [Parents.getElem?_numbers]
  cases tree.parents.get u with
  | none => rfl
  | some p =>
      simp only [Option.map_some, Option.bind_eq_bind, Option.bind_some, Fin.val_inj]
      split
      next => rfl
      next =>
        rw [Neighbors.getElem?_numbers, Option.bind_some, Neighbors.numbers,
          VertexMap.write?_table, Neighbors.numbers, VertexMap.map_set, List.map_append]
        rfl

theorem children?_eq :
    Table.children? tree.parents.numbers = some (Neighbors.numbers tree.children) := by
  have size : tree.parents.numbers.size = n := VertexMap.size_table _
  have vertices : List.range n = (List.finRange n).map Fin.val := by simp
  have blank : Array.replicate n [] = Neighbors.numbers (.const [] : Neighbors n) := by
    rw [Neighbors.numbers, VertexMap.map_const, VertexMap.table_const]
    rfl
  rw [Table.children?, size, vertices, blank]
  exact Table.foldlM_eq_some tree.addChild?_eq _ _

theorem gather?_eq (lists : Neighbors n) {seen : VertexSet n} {stack : List (Fin n)} {turns : Nat}
    (enough : seen.missing (fun _ => 1) + stack.length ≤ turns) :
    Table.gather? lists.numbers turns seen.marks (stack.map Fin.val) =
      some (gather lists.get seen stack).marks := by
  induction turns generalizing seen stack with
  | zero =>
      have none_left : stack.length = 0 := by omega
      obtain rfl := List.eq_nil_of_length_eq_zero none_left
      rw [gather]
      rfl
  | succ turns ih =>
      cases stack with
      | nil =>
          rw [gather]
          rfl
      | cons u stack =>
          have fewer := seen.missing_mark_le (lists.get u)
          rw [List.length_cons] at enough
          have left : (seen.mark (lists.get u)).2.missing (fun _ => 1) +
              ((seen.mark (lists.get u)).1.reverse ++ stack).length ≤ turns := by
            rw [List.length_append, List.length_reverse]
            omega
          have rest := ih left
          rw [List.map_append, List.map_reverse] at rest
          rw [List.map_cons, Table.gather?, Neighbors.getElem?_numbers, gather]
          simp only [Option.bind_eq_bind, Option.bind_some, unmarked?_eq, rest]

/-- The vertices below another are marked without a failing access. -/
theorem below?_eq (top : Fin n) :
    Table.below? tree.parents.numbers top.val = some (tree.below top).marks := by
  have size : tree.parents.numbers.size = n := VertexMap.size_table _
  have marked := gather?_eq tree.children
    (missing_insert_add_one_le (VertexSet.not_mem_empty top))
  rw [Table.below?, tree.children?_eq]
  simp only [size, VertexSet.replicate_eq_marks, VertexSet.write?_marks, Option.bind_eq_bind,
    Option.bind_some]
  exact marked

end DominatorTree

end Provenance
