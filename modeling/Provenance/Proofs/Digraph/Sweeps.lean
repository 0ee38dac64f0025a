import Mathlib.Algebra.Order.BigOperators.Group.List
import Mathlib.Algebra.Order.Ring.Nat
import Provenance.Proofs.Digraph.Ancestors

/-! # Sweeps

A sweep reads, at each vertex, the new parents of the vertices before it and the old parents of the
others. After every sweep the ancestors of a vertex are at least its dominators, and an edge that
raises the rank finds the parent of its target above its source; so a sweep can only take ancestors
away, and one that takes none away leaves the dominators alone.
-/

open Relation (TransGen ReflTransGen)

namespace Provenance

variable {n : Nat}

/-- Every walk from the root to a vertex passes through `x`. -/
def Dominates (next : Fin n → List (Fin n)) (root x v : Fin n) : Prop :=
  x ≠ root → ¬ ReflTransGen (fun u w => Leads next u w ∧ w ≠ x) root v

namespace Dominates

variable {next : Fin n → List (Fin n)} {root x u v : Fin n}

theorem eq_root (dominates : Dominates next root x root) : x = root :=
  Decidable.byContradiction fun other => dominates other .refl

theorem of_leads (dominates : Dominates next root x v) (leads : Leads next u v) (other : x ≠ v) :
    Dominates next root x u :=
  fun off_root way => dominates off_root (way.tail ⟨leads, other.symm⟩)

end Dominates

/-- An edge to a vertex of a greater rank. -/
def Rises (next : Fin n → List (Fin n)) (rank : Fin n → Nat) (u w : Fin n) : Prop :=
  Leads next u w ∧ rank u < rank w

theorem rank_le_of_rising {next : Fin n → List (Fin n)} {rank : Fin n → Nat} {u v : Fin n}
    (rising : ReflTransGen (Rises next rank) u v) : rank u ≤ rank v := by
  induction rising with
  | refl => exact Nat.le_refl _
  | tail _ rises ih => exact Nat.le_trans ih (Nat.le_of_lt rises.2)

/-- What an edge above the rank of `q` takes back from its target to its source is taken back along
a rising way from `q`. -/
theorem rising_back {next : Fin n → List (Fin n)} {rank : Fin n → Nat} {q v : Fin n}
    {K : Fin n → Prop} (rising : TransGen (Rises next rank) q v)
    (back : ∀ u w, ReflTransGen (Leads next) q u → Rises next rank u w → rank q < rank w →
      K w → K u) : K v → K q := by
  have step : ∀ u w, ReflTransGen (Rises next rank) q u → Rises next rank u w → K w → K u := by
    intro u w way rises
    have reached := ReflTransGen.mono (fun _ _ rises => rises.1) _ _ way
    exact back u w reached rises (Nat.lt_of_le_of_lt (rank_le_of_rising way) rises.2)
  induction rising with
  | single rises => exact step q _ .refl rises
  | tail way rises ih => exact fun kept => ih (step _ _ way.to_reflTransGen rises kept)

/-- In a list by rank what has a smaller rank than a vertex stands before it. -/
theorem mem_front {rank : Fin n → Nat} {order done todo : List (Fin n)} {v p : Fin n}
    (increasing : order.Pairwise fun u w => rank u < rank w) (split : order = done ++ v :: todo)
    (listed : p ∈ order) (less : rank p < rank v) : p ∈ done := by
  rw [split] at listed increasing
  rcases List.mem_append.mp listed with front | later
  · exact front
  · have after := (List.pairwise_cons.mp (List.pairwise_append.mp increasing).2.1).1
    rcases List.mem_cons.mp later with rfl | later
    · exact absurd less (Nat.lt_irrefl _)
    · exact absurd less (Nat.lt_asymm (after p later))

/-- The root and the other vertices that can be reached, by their ranks. An edge leads to each of
them from one of a smaller rank. -/
structure SweepOrder (next prev : Fin n → List (Fin n)) (rank : Fin n → Nat) (root : Fin n)
    (rest : List (Fin n)) : Prop where
  mem_prev : ∀ p v, p ∈ prev v ↔ Leads next p v
  increasing : (root :: rest).Pairwise fun u w => rank u < rank w
  led_to : ∀ v ∈ rest, ∃ p ∈ root :: rest, Rises next rank p v
  mem_iff : ∀ v, v ∈ root :: rest ↔ ReflTransGen (Leads next) root v
  rank_le : ∀ v, rank v ≤ n

namespace Parents

variable {next prev : Fin n → List (Fin n)} {rank : Fin n → Nat} {root : Fin n}
  {rest : List (Fin n)} {before after : Parents n}

/-- What a sweep reads at a vertex, and the parent that it sets there. -/
structure Stage (next : Fin n → List (Fin n)) (rank : Fin n → Nat)
    (before after : Parents n) (v : Fin n) (stage : Parents n) : Prop where
  new : ∀ w, rank w < rank v → stage.get w = after.get w
  old : ∀ w, rank v ≤ rank w → stage.get w = before.get w
  led_to : ∃ p, Rises next rank p v ∧ (stage.get p).isSome
  parent : ∃ q, after.get v = some q ∧ ∀ x, Ancestor rank stage q x ↔
    ∀ p, Leads next p v → (stage.get p).isSome → Ancestor rank stage p x

theorem relax_other (parents : Parents n) {v w : Fin n} (other : v ≠ w) :
    (parents.relax rank prev v).get w = parents.get w := by
  unfold relax
  split
  · rfl
  · rw [VertexMap.get_set, if_neg other]

theorem foldl_relax_other (parents : Parents n) {vs : List (Fin n)} {w : Fin n} (other : w ∉ vs) :
    (vs.foldl (relax rank prev) parents).get w = parents.get w := by
  induction vs generalizing parents with
  | nil => rfl
  | cons v vs ih =>
      obtain ⟨here, later⟩ := not_or.mp (mt List.mem_cons.mpr other)
      rw [List.foldl_cons, ih _ later, relax_other _ (Ne.symm here)]

/-- The vertices with a parent are those of the list and those that had one before. -/
structure Part (rank : Fin n → Nat) (root : Fin n) (before : Parents n) (done : List (Fin n))
    (parents : Parents n) : Prop where
  tree : Tree rank root parents
  inside : ∀ v, (parents.get v).isSome ↔ v ∈ done ∨ (before.get v).isSome

end Parents

open Parents

namespace SweepOrder

variable {next prev : Fin n → List (Fin n)} {rank : Fin n → Nat} {root : Fin n}
  {rest : List (Fin n)} {before after : Parents n}

theorem ne_root (order : SweepOrder next prev rank root rest) {v : Fin n} (listed : v ∈ rest) :
    v ≠ root := by
  rintro rfl
  exact Nat.lt_irrefl _ ((List.pairwise_cons.mp order.increasing).1 v listed)

theorem relax (order : SweepOrder next prev rank root rest) {done todo : List (Fin n)} {v : Fin n}
    (split : rest = done ++ v :: todo) {stage : Parents n}
    (part : Part rank root before done stage) :
    ∃ q, stage.relax rank prev v = stage.set v (some q) ∧ rank q < rank v ∧
      (stage.get q).isSome ∧
      (∃ p, Rises next rank p v ∧ (stage.get p).isSome) ∧
      ∀ x, Ancestor rank stage q x ↔
        ∀ p, Leads next p v → (stage.get p).isSome → Ancestor rank stage p x := by
  have listed : v ∈ rest := by simp [split]
  obtain ⟨p, member, rises⟩ := order.led_to v listed
  have inside : (stage.get p).isSome := by
    have front : p ∈ root :: done :=
      mem_front order.increasing (by rw [split]; rfl) member rises.2
    rcases List.mem_cons.mp front with rfl | first
    · rw [part.tree.top]
      rfl
    · exact (part.inside p).mpr (.inl first)
  obtain ⟨q, relaxed, known, spec⟩ :=
    part.tree.relax_eq v ⟨p, (order.mem_prev p v).mpr rises.1, inside⟩
  simp only [order.mem_prev] at spec
  refine ⟨q, relaxed, ?_, known, ⟨p, rises, inside⟩, spec⟩
  exact Nat.lt_of_le_of_lt ((spec q).mp .refl p rises.1 inside).rank_le rises.2

theorem part (order : SweepOrder next prev rank root rest) (tree : Tree rank root before)
    (done : List (Fin n)) : ∀ todo, rest = done ++ todo →
      Part rank root before done (done.foldl (Parents.relax rank prev) before) := by
  induction done using List.reverseRecOn with
  | nil => exact fun _ _ => ⟨tree, by simp⟩
  | append_singleton done v ih =>
      intro todo split
      rw [List.append_assoc, List.singleton_append] at split
      have part := ih (v :: todo) split
      obtain ⟨q, relaxed, less, known, -, -⟩ := order.relax split part
      rw [List.foldl_concat, relaxed]
      refine ⟨part.tree.set (order.ne_root (by simp [split])) less known, fun w => ?_⟩
      rw [VertexMap.get_set]
      split
      next same => simp [same]
      next other =>
        rw [part.inside, List.mem_append, List.mem_singleton]
        simp [Ne.symm other]

theorem tree_sweep (order : SweepOrder next prev rank root rest) (tree : Tree rank root before) :
    Tree rank root (before.sweep rank prev rest) :=
  (order.part tree rest [] (List.append_nil _).symm).tree

theorem inside_sweep (order : SweepOrder next prev rank root rest) (tree : Tree rank root before)
    (reached : ∀ v, (before.get v).isSome → v ∈ root :: rest) (v : Fin n) :
    ((before.sweep rank prev rest).get v).isSome ↔ v ∈ root :: rest := by
  refine ((order.part tree rest [] (List.append_nil _).symm).inside v).trans ⟨?_, ?_⟩
  · intro either
    rcases either with listed | known
    · exact List.mem_cons_of_mem _ listed
    · exact reached v known
  · intro listed
    rcases List.mem_cons.mp listed with rfl | listed
    · right
      rw [tree.top]
      rfl
    · exact .inl listed

theorem stage (order : SweepOrder next prev rank root rest) (tree : Tree rank root before)
    {v : Fin n} (listed : v ∈ rest) :
    ∃ stage, Stage next rank before (before.sweep rank prev rest) v stage := by
  obtain ⟨done, todo, split⟩ := List.append_of_mem listed
  have part := order.part tree done (v :: todo) split
  obtain ⟨q, relaxed, -, -, led_to, spec⟩ := order.relax split part
  have increasing := (List.pairwise_cons.mp order.increasing).2
  rw [split] at increasing
  obtain ⟨-, later, before_later⟩ := List.pairwise_append.mp increasing
  have after_v := (List.pairwise_cons.mp later).1
  have swept : before.sweep rank prev rest = todo.foldl (Parents.relax rank prev)
      ((done.foldl (Parents.relax rank prev) before).set v (some q)) := by
    rw [sweep, split, List.foldl_append, List.foldl_cons, relaxed]
  refine ⟨_, ?_, ?_, led_to, q, ?_, spec⟩
  · intro w less
    have late : w ∉ todo := fun late => Nat.lt_asymm less (after_v w late)
    rw [swept, foldl_relax_other _ late, VertexMap.get_set, if_neg]
    rintro rfl
    exact Nat.lt_irrefl _ less
  · intro w le
    have first : w ∉ done := fun first =>
      Nat.not_lt.mpr le (before_later w first v List.mem_cons_self)
    exact foldl_relax_other _ first
  · have late : v ∉ todo := fun late => Nat.lt_irrefl _ (after_v v late)
    rw [swept, foldl_relax_other _ late, VertexMap.get_set, if_pos rfl]

end SweepOrder

namespace Parents

variable {next prev : Fin n → List (Fin n)} {rank : Fin n → Nat} {root : Fin n}
  {rest : List (Fin n)} {before after : Parents n}

/-- What holds after each sweep. The parent of a vertex leads up to it by edges that raise the rank.
What is above every vertex that leads there is above the parent. No dominator has been lost. -/
structure Balanced (next : Fin n → List (Fin n)) (rank : Fin n → Nat) (root : Fin n)
    (parents : Parents n) : Prop extends Tree rank root parents where
  rising : ∀ {v q}, Up rank parents v q → TransGen (Rises next rank) q v
  cover : ∀ {v q x}, Up rank parents v q →
    (∀ p, Leads next p v → (parents.get p).isSome → Ancestor rank parents p x) →
      Ancestor rank parents q x
  dominated : ∀ {v x}, (parents.get v).isSome → Dominates next root x v → Ancestor rank parents v x

namespace Stage

variable {stage : Parents n} {v p q x : Fin n}

/-- Below the rank of the vertex ancestors are those after the sweep. -/
theorem ancestor_iff (staged : Stage next rank before after v stage)
    (less : rank p < rank v) : Ancestor rank stage p x ↔ Ancestor rank after p x := by
  have agree : ∀ w, rank w ≤ rank p → stage.get w = after.get w :=
    fun w le => staged.new w (Nat.lt_of_le_of_lt le less)
  constructor
  · exact fun above => above.congr fun w le => (agree w le).symm
  · exact fun above => above.congr agree

/-- The new parent is below the ancestors that the stage has for all vertices that lead there. -/
theorem spec (staged : Stage next rank before after v stage) (up : Up rank after v q) :
    Ancestor rank after q x ↔
      ∀ p, Leads next p v → (stage.get p).isSome → Ancestor rank stage p x := by
  obtain ⟨q', found, spec⟩ := staged.parent
  obtain rfl := Option.some.inj (found.symm.trans up.1)
  rw [← spec, ← staged.ancestor_iff up.2]

theorem up (staged : Stage next rank before after v stage) : ∃ q, Up rank after v q := by
  obtain ⟨q, found, spec⟩ := staged.parent
  obtain ⟨p, rises, inside⟩ := staged.led_to
  have below := ((spec q).mp .refl p rises.1 inside).rank_le
  exact ⟨q, found, Nat.lt_of_le_of_lt below rises.2⟩

/-- Ancestors before the sweep are taken over if what stands for them is kept on the way up to
where the new parents begin. -/
theorem ancestor_of_old {K : Fin n → Prop} (staged : Stage next rank before after v stage)
    (up : ∀ a b, Up rank before a b → Ancestor rank before b x → K a → K b)
    (new : ∀ w, rank w < rank v → K w → Ancestor rank after w x)
    (above : Ancestor rank before p x) : K p → Ancestor rank stage p x := by
  induction above using ReflTransGen.head_induction_on with
  | refl => exact fun _ => .refl
  | @head a b step above ih =>
      intro kept
      by_cases less : rank a < rank v
      · exact (staged.ancestor_iff less).mpr (new a less kept)
      · exact (ih (up a b step above kept)).of_up
          ⟨(staged.old a (Nat.not_lt.mp less)).trans step.1, step.2⟩

/-- Ancestors in the stage are ancestors before the sweep if those of smaller ranks are. -/
theorem old_of_ancestor (staged : Stage next rank before after v stage)
    (tree : Tree rank root before)
    (older : ∀ w, rank w < rank v → (before.get w).isSome → Ancestor rank after w x →
      Ancestor rank before w x)
    (above : Ancestor rank stage p x) : (before.get p).isSome → Ancestor rank before p x := by
  induction above using ReflTransGen.head_induction_on with
  | refl => exact fun _ => .refl
  | @head a b step above ih =>
      intro known
      by_cases less : rank a < rank v
      · exact older a less known ((staged.ancestor_iff less).mp (.head step above))
      · have up : Up rank before a b :=
          ⟨(staged.old a (Nat.not_lt.mp less)).symm.trans step.1, step.2⟩
        exact (ih (tree.inside_of_up up)).of_up up

/-- A vertex of the stage has its parent from after the sweep or from before it. -/
theorem inside_cases (staged : Stage next rank before after v stage)
    (known : (stage.get p).isSome) :
    (rank p < rank v ∧ (after.get p).isSome) ∨ (before.get p).isSome := by
  by_cases less : rank p < rank v
  · rw [staged.new p less] at known
    exact .inl ⟨less, known⟩
  · rw [staged.old p (Nat.not_lt.mp less)] at known
    exact .inr known

end Stage

/-- A sweep over all vertices that can be reached. -/
structure Swept (next : Fin n → List (Fin n)) (rank : Fin n → Nat) (root : Fin n)
    (before after : Parents n) : Prop where
  tree : Tree rank root after
  kept : ∀ v, (before.get v).isSome → (after.get v).isSome
  closed : ∀ u v, (after.get u).isSome → ReflTransGen (Leads next) u v → (after.get v).isSome
  stage : ∀ v, v ≠ root → (after.get v).isSome →
    ∃ stage, Stage next rank before after v stage

namespace Swept

variable {v p q x : Fin n}

theorem inside_stage (swept : Swept next rank root before after) {stage : Parents n}
    (staged : Stage next rank before after v stage) (known : (before.get p).isSome) :
    (stage.get p).isSome := by
  by_cases less : rank p < rank v
  · rw [staged.new p less]
    exact swept.kept p known
  · rwa [staged.old p (Nat.not_lt.mp less)]

/-- A sweep takes ancestors away and adds none. -/
theorem shrink (swept : Swept next rank root before after)
    (balanced : Balanced next rank root before)
    {v x : Fin n} (known : (before.get v).isSome) (above : Ancestor rank after v x) :
    Ancestor rank before v x := by
  rcases above.eq_or_up with rfl | ⟨q, up, above⟩
  · exact .refl
  · have below_root : v ≠ root := by
      rintro rfl
      exact swept.tree.not_up_root up
    obtain ⟨stage, staged⟩ := swept.stage v below_root (swept.kept v known)
    obtain ⟨p, found⟩ := Option.isSome_iff_exists.mp known
    have up' : Up rank before v p := ⟨found, (balanced.up v p below_root found).1⟩
    refine (balanced.cover up' fun p leads known => ?_).of_up up'
    -- a vertex that leads here keeps its old ancestors up to where the stage goes over to new ones,
    -- and these have smaller ranks, so there the induction applies
    have above := (staged.spec up).mp above p leads (swept.inside_stage staged known)
    refine staged.old_of_ancestor balanced.toTree (fun w less known above => ?_) above known
    exact swept.shrink balanced known above
termination_by rank v

theorem stage_of_up (swept : Swept next rank root before after) (up : Up rank after v q) :
    ∃ stage, Stage next rank before after v stage := by
  refine swept.stage v ?_ (by rw [up.1]; rfl)
  rintro rfl
  exact swept.tree.not_up_root up

theorem near (swept : Swept next rank root before after) (rises : Rises next rank p v)
    (known : (after.get p).isSome) (up : Up rank after v q) : Ancestor rank after p q := by
  obtain ⟨stage, staged⟩ := swept.stage_of_up up
  rw [← staged.ancestor_iff rises.2]
  exact (staged.spec up).mp .refl p rises.1 (by rwa [staged.new p rises.2])

theorem rising (swept : Swept next rank root before after) {v q : Fin n} (up : Up rank after v q) :
    TransGen (Rises next rank) q v := by
  obtain ⟨stage, staged⟩ := swept.stage_of_up up
  obtain ⟨p, rises, inside⟩ := staged.led_to
  have above := (staged.ancestor_iff rises.2).mp ((staged.spec up).mp .refl p rises.1 inside)
  have rising : ∀ w, rank w < rank v → Ancestor rank after w q →
      ReflTransGen (Rises next rank) q w := by
    intro w less above
    induction above using ReflTransGen.head_induction_on with
    | refl => exact .refl
    | @head a b step above ih =>
        exact (ih (Nat.lt_trans step.2 less)).trans (swept.rising step).to_reflTransGen
  exact .tail' (rising p rises.2 above) rises
termination_by rank v

theorem cover (swept : Swept next rank root before after)
    (balanced : Balanced next rank root before) (up : Up rank after v q)
    (shared : ∀ p, Leads next p v → (after.get p).isSome → Ancestor rank after p x) :
    Ancestor rank after q x := by
  obtain ⟨stage, staged⟩ := swept.stage_of_up up
  refine (staged.spec up).mpr fun p leads known => ?_
  rcases staged.inside_cases known with ⟨less, known⟩ | known
  · exact (staged.ancestor_iff less).mpr (shared p leads known)
  · have above := shared p leads (swept.kept p known)
    have old := swept.shrink balanced known above
    -- the old ancestors lead up to the vertex by rising edges, and each such edge finds `x` above
    -- its source if it is above its target
    refine staged.ancestor_of_old (K := fun w => Ancestor rank after w x) ?_
      (fun w less above => above) old above
    intro a b up above kept
    have inside := swept.kept b (balanced.inside_of_up up)
    refine rising_back (K := fun w => Ancestor rank after w x) (balanced.rising up) ?_ kept
    intro u w way rises less kept
    rcases kept.eq_or_up with rfl | ⟨y, up, higher⟩
    · exact absurd above.rank_le (Nat.not_le.mpr less)
    · exact (swept.near rises (swept.closed b u inside way) up).trans higher

theorem dominated (swept : Swept next rank root before after)
    (balanced : Balanced next rank root before) {v : Fin n} (known : (after.get v).isSome)
    (dominates : Dominates next root x v) : Ancestor rank after v x := by
  by_cases here : x = v
  · rw [here]
    exact .refl
  · have below_root : v ≠ root := by
      rintro rfl
      exact here dominates.eq_root
    obtain ⟨stage, staged⟩ := swept.stage v below_root known
    obtain ⟨q, up⟩ := staged.up
    refine ((staged.spec up).mpr fun p leads known => ?_).of_up up
    have dominates := dominates.of_leads leads here
    rcases staged.inside_cases known with ⟨less, known⟩ | known
    · exact (staged.ancestor_iff less).mpr (swept.dominated balanced known dominates)
    · -- a rising way from below `x` does not meet `x`, so `x` dominates where it starts
      refine staged.ancestor_of_old
        (K := fun w => (after.get w).isSome ∧ Dominates next root x w) ?_ ?_
        (balanced.dominated known dominates) ⟨swept.kept p known, dominates⟩
      · intro a b up above ⟨_, dominates⟩
        refine ⟨swept.kept b (balanced.inside_of_up up), ?_⟩
        refine rising_back (balanced.rising up) (fun u w way rises less dominates => ?_) dominates
        refine dominates.of_leads rises.1 ?_
        rintro rfl
        exact absurd above.rank_le (Nat.not_le.mpr less)
      · exact fun w less ⟨known, dominates⟩ => swept.dominated balanced known dominates
termination_by rank v

theorem balanced (swept : Swept next rank root before after)
    (balanced : Balanced next rank root before) : Balanced next rank root after where
  toTree := swept.tree
  rising := swept.rising
  cover := swept.cover balanced
  dominated := swept.dominated balanced

end Swept

/-! ## Sweeping until nothing changes -/

theorem height_eq (rank : Fin n → Nat) (parents : Parents n) :
    parents.height rank =
      ((List.finRange n).map fun v => ((parents.get v).map rank).getD (n + 1)).sum := by
  rw [height, List.sum, List.foldr_map]

/-- A sweep moves a parent to a smaller rank, or leaves it. -/
theorem Swept.eq_or_lt (swept : Swept next rank root before after)
    (balanced : Balanced next rank root before) (rank_le : ∀ v, rank v ≤ n) (v : Fin n) :
    after.get v = before.get v ∨
      ((after.get v).map rank).getD (n + 1) < ((before.get v).map rank).getD (n + 1) := by
  cases found : before.get v with
  | none =>
      cases after.get v with
      | none => exact .inl rfl
      | some q => exact .inr (Nat.lt_succ_of_le (rank_le q))
  | some p =>
      have known : (before.get v).isSome := by rw [found]; rfl
      obtain ⟨q, found'⟩ := Option.isSome_iff_exists.mp (swept.kept v known)
      rw [found']
      by_cases top : v = root
      · subst top
        exact .inl (found'.symm.trans (swept.tree.top.trans (balanced.top.symm.trans found)))
      · have up : Up rank after v q := ⟨found', (swept.tree.up v q top found').1⟩
        have above := swept.shrink balanced known (Ancestor.of_up up .refl)
        have below : q ≠ v := by
          rintro rfl
          exact Nat.lt_irrefl _ up.2
        by_cases same : q = p
        · exact .inl (congrArg some same)
        · exact .inr ((above.of_ne below found).rank_lt same)

/-- A sweep lowers the height, or it changes nothing. -/
theorem Swept.eq_of_height (swept : Swept next rank root before after)
    (balanced : Balanced next rank root before) (rank_le : ∀ v, rank v ≤ n)
    (settled : ¬ after.height rank < before.height rank) : after = before := by
  have lower := swept.eq_or_lt balanced rank_le
  refine VertexMap.ext_get fun v => (lower v).resolve_right fun less => settled ?_
  rw [height_eq, height_eq]
  refine List.sum_lt_sum _ _ (fun w _ => ?_) ⟨v, List.mem_finRange v, less⟩
  rcases lower w with same | less
  · rw [same]
  · exact Nat.le_of_lt less

/-- The parents are those of the tree of dominators: a vertex is below the one where those meet that
lead to it. -/
structure Settled (next : Fin n → List (Fin n)) (rank : Fin n → Nat) (root : Fin n)
    (parents : Parents n) : Prop extends Balanced next rank root parents where
  inside_iff : ∀ v, (parents.get v).isSome ↔ ReflTransGen (Leads next) root v
  joined : ∀ {p v q x}, Up rank parents v q → Ancestor rank parents q x → Leads next p v →
    (parents.get p).isSome → Ancestor rank parents p x

theorem Swept.settled {parents : Parents n} (swept : Swept next rank root parents parents)
    (balanced : Balanced next rank root parents)
    (inside_iff : ∀ v, (parents.get v).isSome ↔ ReflTransGen (Leads next) root v) :
    Settled next rank root parents := by
  refine ⟨balanced, inside_iff, fun {p v q x} up above leads known => ?_⟩
  obtain ⟨stage, staged⟩ := swept.stage_of_up up
  have unchanged : stage = parents := by
    refine VertexMap.ext_get fun w => ?_
    rcases Nat.lt_or_ge (rank w) (rank v) with less | le
    · exact staged.new w less
    · exact staged.old w le
  rw [unchanged] at staged
  exact (staged.spec up).mp above p leads known

/-- The ancestors of a vertex in the tree are its dominators. -/
theorem Settled.ancestor_iff {parents : Parents n} (settled : Settled next rank root parents)
    {v x : Fin n} (known : (parents.get v).isSome) :
    Ancestor rank parents v x ↔ Dominates next root x v := by
  refine ⟨fun above off_root way => ?_, settled.dominated known⟩
  clear known
  induction way with
  | refl => exact off_root (settled.ancestor_of_root above)
  | @tail u w way step ih =>
      obtain ⟨q, up, above⟩ := above.eq_or_up.resolve_left step.2.symm
      have reached := ReflTransGen.mono (fun _ _ step => step.1) _ _ way
      exact ih (settled.joined up above step.1 ((settled.inside_iff u).mpr reached))

theorem isSome_start {v : Fin n} :
    (((VertexMap.const none).set root (some root) : Parents n).get v).isSome ↔ v = root := by
  rw [VertexMap.get_set, VertexMap.get_const]
  split
  next same => simp [same]
  next other => simp [Ne.symm other]

theorem balanced_start (next : Fin n → List (Fin n)) (rank : Fin n → Nat) (root : Fin n) :
    Balanced next rank root ((VertexMap.const none).set root (some root)) := by
  have tree : Tree rank root ((VertexMap.const none).set root (some root)) := by
    refine ⟨by simp, fun v p below found => ?_⟩
    exact absurd (isSome_start.mp (by rw [found]; rfl)) below
  have no_up : ∀ {v q}, ¬ Up rank ((VertexMap.const none).set root (some root)) v q := by
    intro v q up
    obtain rfl := isSome_start.mp (show _ = true by rw [up.1]; rfl)
    exact tree.not_up_root up
  refine ⟨tree, fun up => absurd up no_up, fun up => absurd up no_up, fun known dominates => ?_⟩
  obtain rfl := isSome_start.mp known
  rw [dominates.eq_root]
  exact .refl

end Parents

theorem SweepOrder.swept {next prev : Fin n → List (Fin n)} {rank : Fin n → Nat} {root : Fin n}
    {rest : List (Fin n)} {before : Parents n} (order : SweepOrder next prev rank root rest)
    (tree : Tree rank root before) (reached : ∀ v, (before.get v).isSome → v ∈ root :: rest) :
    Swept next rank root before (before.sweep rank prev rest) where
  tree := order.tree_sweep tree
  kept v known := (order.inside_sweep tree reached v).mpr (reached v known)
  closed u v known way := by
    rw [order.inside_sweep tree reached, order.mem_iff] at known ⊢
    exact known.trans way
  stage v below_root known := by
    rw [order.inside_sweep tree reached] at known
    exact order.stage tree ((List.mem_cons.mp known).resolve_left below_root)

namespace SweepOrder

variable {next prev : Fin n → List (Fin n)} {rank : Fin n → Nat} {root : Fin n}
  {rest : List (Fin n)}

theorem settle (order : SweepOrder next prev rank root rest) {parents : Parents n}
    (balanced : Balanced next rank root parents)
    (reached : ∀ v, (parents.get v).isSome → v ∈ root :: rest) :
    Settled next rank root (parents.settle rank prev rest) := by
  have swept := order.swept balanced.toTree reached
  have inside := order.inside_sweep balanced.toTree reached
  rw [Parents.settle]
  split
  next lower => exact order.settle (swept.balanced balanced) fun v => (inside v).mp
  next done =>
    have same := swept.eq_of_height balanced order.rank_le done
    rw [same] at swept inside ⊢
    exact swept.settled balanced fun v => (inside v).trans (order.mem_iff v)
termination_by parents.height rank

end SweepOrder

end Provenance
