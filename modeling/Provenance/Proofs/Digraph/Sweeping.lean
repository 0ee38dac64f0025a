import Provenance.Proofs.Digraph.Dominators

/-! # Sweeping step by step

The sweeps that find the dominators, taken apart into single steps. A step knows nothing of heights
or of what it leads to: the way up from two vertices goes on as long as they differ, and after a
sweep comes another one as long as a parent has changed. Both ends are reached all the same, since
at every moment parents have smaller ranks than the vertices below them, and a parent that changes
moves to a smaller rank.
-/

open Relation (ReflTransGen)

namespace Provenance

variable {n : Nat}

/-- Where a sweep is: between two vertices; at a vertex `v`, with the vertices left that may lead to
it and the one where the others meet; or on the way up from two of these. -/
inductive Task (n : Nat) where
  | choose
  | gather (v : Fin n) (left : List (Fin n)) (best : Option (Fin n))
  | climb (v : Fin n) (left : List (Fin n)) (a b : Fin n)

/-- `todo` lists the vertices that the sweep has not come to, and `changed` marks one in which a
parent has changed. -/
structure Sweeping (n : Nat) where
  parents : Parents n
  todo : List (Fin n)
  changed : Bool
  task : Task n

namespace Sweeping

/-- The next state. There is none after a sweep without a change, and none where a vertex has to go
up that has no parent. Two vertices of the same rank are looked at again and again. -/
def step (rank : Fin n → Nat) (prev : Fin n → List (Fin n)) (rest : List (Fin n))
    (s : Sweeping n) : Option (Sweeping n) :=
  match s.task with
  | .choose =>
      match s.todo with
      | v :: todo => some { s with todo, task := .gather v (prev v) none }
      | [] => if s.changed then some { s with todo := rest, changed := false } else none
  | .gather _ [] none => some { s with task := .choose }
  | .gather v [] (some q) =>
      if s.parents.get v = some q then some { s with task := .choose }
      else some { s with parents := s.parents.set v (some q), changed := true, task := .choose }
  | .gather v (p :: left) best =>
      match s.parents.get p, best with
      | none, _ => some { s with task := .gather v left best }
      | some _, none => some { s with task := .gather v left (some p) }
      | some _, some q => some { s with task := .climb v left p q }
  | .climb v left a b =>
      if a = b then some { s with task := .gather v left (some a) }
      else if rank b < rank a then
        (s.parents.get a).map fun a' => { s with task := .climb v left a' b }
      else if rank a < rank b then
        (s.parents.get b).map fun b' => { s with task := .climb v left a b' }
      else some s

/-- The state before the first sweep, in which the root alone has a parent. -/
def start (root : Fin n) : Sweeping n :=
  ⟨(VertexMap.const none).set root (some root), [], true, .choose⟩

end Sweeping

namespace Parents

/-- No parent is lost, and one that changes moves to a smaller rank. -/
def Lowers (rank : Fin n → Nat) (parents parents' : Parents n) : Prop :=
  ∀ v p, parents.get v = some p → ∃ p', parents'.get v = some p' ∧ (p' = p ∨ rank p' < rank p)

theorem Lowers.refl (rank : Fin n → Nat) (parents : Parents n) : Lowers rank parents parents :=
  fun _ p found => ⟨p, found, .inl rfl⟩

end Parents

open Parents

namespace Sweeping

variable {rank : Fin n → Nat} {prev : Fin n → List (Fin n)} {root : Fin n} {rest : List (Fin n)}

/-- A step from a state in which all parents are in the tree, which raises none of them. -/
structure Sound (rank : Fin n → Nat) (prev : Fin n → List (Fin n)) (root : Fin n)
    (rest : List (Fin n)) (s s' : Sweeping n) : Prop where
  next : s.step rank prev rest = some s'
  tree : Tree rank root s.parents
  lowers : Lowers rank s.parents s'.parents

theorem Sound.of_same {s s' : Sweeping n} (tree : Tree rank root s.parents)
    (next : s.step rank prev rest = some s') (same : s'.parents = s.parents) :
    Sound rank prev root rest s s' :=
  ⟨next, tree, by rw [same]; exact .refl rank _⟩

/-! ## Within a sweep -/

section Vertex

variable {parents : Parents n} {todo : List (Fin n)} {changed : Bool} {v : Fin n}

/-- The vertex of the greater rank goes up until the two meet. -/
theorem climbs (tree : Tree rank root parents)
    (ranked : ∀ a b, (parents.get a).isSome → (parents.get b).isSome → rank a = rank b → a = b)
    {left : List (Fin n)} {a b c : Fin n} (inside : (parents.get a).isSome)
    (inside' : (parents.get b).isSome) (met : parents.meet? rank a b = some c) :
    ReflTransGen (Sound rank prev root rest) ⟨parents, todo, changed, .climb v left a b⟩
      ⟨parents, todo, changed, .gather v left (some c)⟩ := by
  fun_induction meet? rank parents a b with
  | case1 a =>
      obtain rfl := Option.some.inj met
      exact .single (.of_same tree (if_pos rfl) rfl)
  | case2 a b apart deeper p found up ih =>
      refine .head ?_ (ih (tree.inside_of_up ⟨found, up⟩) inside' met)
      exact .of_same tree (by simp [step, apart, deeper, found]) rfl
  | case5 a b apart not_deeper p found up ih =>
      have deeper : rank a < rank b := by
        have other : rank a ≠ rank b := fun same => apart (ranked a b inside inside' same)
        omega
      refine .head ?_ (ih inside (tree.inside_of_up ⟨found, up⟩) met)
      exact .of_same tree (by simp [step, apart, not_deeper, deeper, found]) rfl
  | case3 | case4 | case6 | case7 => cases met

theorem gathers (tree : Tree rank root parents)
    (ranked : ∀ a b, (parents.get a).isSome → (parents.get b).isSome → rank a = rank b → a = b)
    {left : List (Fin n)} {best : Option (Fin n)} (inside : ∀ q ∈ best, (parents.get q).isSome) :
    ReflTransGen (Sound rank prev root rest) ⟨parents, todo, changed, .gather v left best⟩
      ⟨parents, todo, changed, .gather v [] (left.foldl (parents.join rank) best)⟩ := by
  induction left generalizing best with
  | nil => exact .refl
  | cons p left ih =>
      rw [List.foldl_cons]
      cases found : parents.get p with
      | none =>
          have skipped : parents.join rank best p = best := by simp [Parents.join, found]
          rw [skipped]
          refine .head ?_ (ih inside)
          exact .of_same tree (by simp [step, found]) rfl
      | some _ =>
          have known : (parents.get p).isSome := by rw [found]; rfl
          cases best with
          | none =>
              have first : parents.join rank none p = some p := by simp [Parents.join, found]
              rw [first]
              refine .head ?_ (ih fun q same => Option.some.inj same ▸ known)
              exact .of_same tree (by simp [step, found]) rfl
          | some q =>
              have known' := inside q rfl
              have meet := meet?_spec rank parents p q
              obtain ⟨c, met, -⟩ := (meet root).mpr ⟨tree.root_above known, tree.root_above known'⟩
              have joined : parents.join rank (some q) p = some c := by
                simpa [Parents.join, found] using met
              have above := ((meet c).mp ⟨c, met, .refl⟩).1
              have inside_c := tree.inside_of_ancestor known above
              rw [joined]
              refine .head ?_ ((climbs tree ranked known known' met).trans
                (ih fun x same => Option.some.inj same ▸ inside_c))
              exact .of_same tree (by simp [step, found]) rfl

/-- The steps at a vertex set its parent as `relax` does, and mark whether that is another one. -/
theorem relaxes (tree : Tree rank root parents)
    (ranked : ∀ a b, (parents.get a).isSome → (parents.get b).isSome → rank a = rank b → a = b)
    (lowers : Lowers rank parents (parents.relax rank prev v)) :
    ∃ changed', ReflTransGen (Sound rank prev root rest)
        ⟨parents, todo, changed, .gather v (prev v) none⟩
        ⟨parents.relax rank prev v, todo, changed', .choose⟩ ∧
      (changed' = true ↔ changed = true ∨ parents.relax rank prev v ≠ parents) := by
  have gathered : ReflTransGen (Sound rank prev root rest)
      ⟨parents, todo, changed, .gather v (prev v) none⟩
      ⟨parents, todo, changed, .gather v [] ((prev v).foldl (parents.join rank) none)⟩ :=
    gathers tree ranked fun q none => nomatch none
  unfold relax at lowers ⊢
  cases joined : (prev v).foldl (parents.join rank) none with
  | none =>
      rw [joined] at gathered
      exact ⟨changed, gathered.tail (.of_same tree rfl rfl), by simp⟩
  | some q =>
      rw [joined] at gathered lowers
      by_cases same : parents.get v = some q
      · have unchanged : parents.set v (some q) = parents := by
          rw [← same, VertexMap.set_get_self]
        refine ⟨changed, ?_, by simp [unchanged]⟩
        dsimp only
        rw [unchanged]
        exact gathered.tail (.of_same tree (by simp [step, same]) rfl)
      · refine ⟨true, gathered.tail ⟨by simp [step, same], tree, lowers⟩, ?_⟩
        refine iff_of_true rfl (.inr fun unchanged => same ?_)
        have there := congrArg (VertexMap.get · v) unchanged
        simpa using there.symm

end Vertex

section Sweep

variable {next : Fin n → List (Fin n)} {before : Parents n} {done todo : List (Fin n)} {v : Fin n}

theorem not_mem_of_split (order : SweepOrder next prev rank root rest)
    (split : rest = done ++ v :: todo) : v ∉ done ∧ v ∉ todo := by
  have nodup : rest.Nodup :=
    (List.pairwise_cons.mp order.increasing).2.imp fun less same =>
      Nat.ne_of_lt less (congrArg rank same)
  rw [split, List.nodup_middle, List.nodup_cons, List.mem_append, not_or] at nodup
  exact nodup.1

theorem eq_of_rank_eq (order : SweepOrder next prev rank root rest) {a b : Fin n}
    (listed : a ∈ root :: rest) (listed' : b ∈ root :: rest) (same : rank a = rank b) : a = b := by
  have distinct : ((root :: rest).map rank).Nodup :=
    List.pairwise_map.mpr (order.increasing.imp fun less => Nat.ne_of_lt less)
  exact List.inj_on_of_nodup_map distinct listed listed' same

/-- What a sweep does at a vertex lowers its parent, as the whole sweep does. -/
theorem lowers_relax (order : SweepOrder next prev rank root rest)
    (balanced : Balanced next rank root before)
    (reached : ∀ v, (before.get v).isSome → v ∈ root :: rest)
    (split : rest = done ++ v :: todo) :
    Lowers rank (done.foldl (relax rank prev) before)
      ((done.foldl (relax rank prev) before).relax rank prev v) := by
  intro w p found
  by_cases other : v = w
  · subst other
    have swept := order.swept balanced.toTree reached
    obtain ⟨new, last⟩ := not_mem_of_split order split
    have earlier : before.get v = some p := by rw [← found, foldl_relax_other _ new]
    have later : ((done.foldl (relax rank prev) before).relax rank prev v).get v =
        (before.sweep rank prev rest).get v := by
      rw [sweep, split, List.foldl_append, List.foldl_cons, foldl_relax_other _ last]
    rw [later]
    rcases swept.eq_or_lt balanced order.rank_le v with same | less
    · exact ⟨p, same.trans earlier, .inl rfl⟩
    · obtain ⟨p', found'⟩ :=
        Option.isSome_iff_exists.mp (swept.kept v (Option.isSome_of_eq_some earlier))
      rw [found', earlier] at less
      exact ⟨p', found', .inr less⟩
  · exact ⟨p, by rw [relax_other _ other, found], .inl rfl⟩

/-- A sweep changes nothing up to a vertex and at it, or the first change stays. -/
theorem foldl_relax_concat_eq (new : v ∉ done) :
    (done ++ [v]).foldl (relax rank prev) before = before ↔
      done.foldl (relax rank prev) before = before ∧
        (done.foldl (relax rank prev) before).relax rank prev v =
          done.foldl (relax rank prev) before := by
  rw [List.foldl_concat]
  constructor
  · intro same
    have front : done.foldl (relax rank prev) before = before := by
      refine VertexMap.ext_get fun w => ?_
      by_cases other : v = w
      · rw [← other, foldl_relax_other _ new]
      · have kept : ((done.foldl (relax rank prev) before).relax rank prev v).get w =
            (done.foldl (relax rank prev) before).get w := relax_other _ other
        rw [← kept, same]
    exact ⟨front, same.trans front.symm⟩
  · rintro ⟨front, here⟩
    exact here.trans front

theorem sweeps (order : SweepOrder next prev rank root rest)
    (balanced : Balanced next rank root before)
    (reached : ∀ v, (before.get v).isSome → v ∈ root :: rest) (done : List (Fin n)) :
    ∀ todo, rest = done ++ todo →
      ∃ changed, ReflTransGen (Sound rank prev root rest) ⟨before, rest, false, .choose⟩
          ⟨done.foldl (relax rank prev) before, todo, changed, .choose⟩ ∧
        (changed = true ↔ done.foldl (relax rank prev) before ≠ before) := by
  induction done using List.reverseRecOn with
  | nil =>
      rintro todo rfl
      exact ⟨false, .refl, by simp⟩
  | append_singleton done v ih =>
      intro todo split
      rw [List.append_assoc, List.singleton_append] at split
      have part := order.part balanced.toTree done (v :: todo) split
      have listed : ∀ a, ((done.foldl (relax rank prev) before).get a).isSome →
          a ∈ root :: rest := by
        intro a known
        rcases (part.inside a).mp known with first | old
        · rw [split]
          exact List.mem_cons_of_mem _ (List.mem_append_left _ first)
        · exact reached a old
      obtain ⟨changed, front, changed_iff⟩ := ih (v :: todo) split
      obtain ⟨changed', here, changed_iff'⟩ := relaxes part.tree
        (fun a b known known' => eq_of_rank_eq order (listed a known) (listed b known'))
        (lowers_relax order balanced reached split)
      refine ⟨changed', ?_, ?_⟩
      · rw [List.foldl_concat]
        exact front.trans (.head (.of_same part.tree rfl rfl) here)
      · rw [changed_iff', changed_iff, ne_eq _ before, ne_eq _ before,
          foldl_relax_concat_eq (not_mem_of_split order split).1, not_and_or]

theorem settles (order : SweepOrder next prev rank root rest) {parents : Parents n}
    (balanced : Balanced next rank root parents)
    (reached : ∀ v, (parents.get v).isSome → v ∈ root :: rest) :
    ReflTransGen (Sound rank prev root rest) ⟨parents, rest, false, .choose⟩
      ⟨parents.settle rank prev rest, [], false, .choose⟩ := by
  have swept := order.swept balanced.toTree reached
  have inside := order.inside_sweep balanced.toTree reached
  obtain ⟨changed, path, changed_iff⟩ :=
    sweeps order balanced reached rest [] (List.append_nil _).symm
  rw [Parents.settle]
  split
  next lower =>
    obtain rfl : changed = true := changed_iff.mpr fun same => by
      rw [sweep, same] at lower
      exact Nat.lt_irrefl _ lower
    refine path.trans (.head (.of_same swept.tree rfl rfl) ?_)
    exact settles order (swept.balanced balanced) fun v => (inside v).mp
  next settled =>
    have same := swept.eq_of_height balanced order.rank_le settled
    obtain rfl : changed = false := Bool.eq_false_iff.mpr fun marked => changed_iff.mp marked same
    exact path
termination_by parents.height rank

end Sweep

/-! ## The whole run -/

/-- One step leads to the next. -/
def Next (rank : Fin n → Nat) (prev : Fin n → List (Fin n)) (rest : List (Fin n))
    (s s' : Sweeping n) : Prop :=
  s.step rank prev rest = some s'

variable {s s' last : Sweeping n}

/-- There is only one run, so what is reached lies on the way to its end. -/
theorem on_the_way (path : ReflTransGen (Sound rank prev root rest) s last)
    (ended : last.step rank prev rest = none) (run : ReflTransGen (Next rank prev rest) s s') :
    ReflTransGen (Sound rank prev root rest) s' last := by
  induction run with
  | refl => exact path
  | @tail u w _ next ih =>
      rcases ReflTransGen.cases_head ih with rfl | ⟨x, sound, onward⟩
      · exact nomatch ended.symm.trans next
      · obtain rfl := Option.some.inj (sound.next.symm.trans next)
        exact onward

/-- A way up that does not go on forever ends where the two vertices meet. -/
theorem climb_ends {v : Fin n} {left : List (Fin n)} {a b : Fin n}
    (run : ReflTransGen (Next rank prev rest) s last) (ended : last.task = .choose)
    (climbing : s.task = .climb v left a b) :
    ∃ c, ReflTransGen (Next rank prev rest) s { s with task := .gather v left (some c) } := by
  induction run using ReflTransGen.head_induction_on generalizing a b with
  | refl => exact nomatch ended.symm.trans climbing
  | @head s u next _ ih =>
      have onward : ∀ {a' b'}, u = { s with task := .climb v left a' b' } →
          ∃ c, ReflTransGen (Next rank prev rest) s
            { s with task := .gather v left (some c) } := by
        rintro a' b' rfl
        obtain ⟨c, path⟩ := ih rfl
        exact ⟨c, .head next path⟩
      have stepped := next
      rw [Next, step, climbing] at stepped
      dsimp only at stepped
      split at stepped
      next meet =>
        obtain rfl := Option.some.inj stepped
        exact ⟨a, .single next⟩
      split at stepped
      next deeper =>
        obtain ⟨a', -, same⟩ := Option.map_eq_some_iff.mp stepped
        exact onward same.symm
      split at stepped
      next deeper =>
        obtain ⟨b', -, same⟩ := Option.map_eq_some_iff.mp stepped
        exact onward same.symm
      next =>
        obtain rfl := Option.some.inj stepped
        exact ih climbing

end Sweeping

namespace Digraph

theorem sweeping_sound (d : Digraph n) (way : Way) (root : Fin n) :
    let order := (d.finishing way root).reverse
    ReflTransGen
      (Sweeping.Sound (DominatorTree.ranks order).get (d.neighbors way.flip) root order.tail)
      (.start root) ⟨(d.dominators way root).parents, [], false, .choose⟩ := by
  obtain ⟨rest, split, sweepOrder⟩ := d.sweepOrder way root
  have balanced :=
    balanced_start (d.neighbors way) (DominatorTree.ranks (root :: rest)).get root
  unfold dominators
  dsimp only
  rw [split]
  refine .head (.of_same balanced.toTree rfl rfl) (Sweeping.settles sweepOrder balanced ?_)
  intro v known
  rw [isSome_start.mp known]
  exact List.mem_cons_self

/-- Whatever the digraph, the root and the way, the sweeps end, with the dominators that are looked
up later. At every moment the parents lead up to the root by ranks, no step loses a parent or moves
one to a greater rank, and every way up from two vertices that is begun comes to where they meet. -/
theorem sweeping_ends (d : Digraph n) (way : Way) (root : Fin n) :
    let order := (d.finishing way root).reverse
    let rank := (DominatorTree.ranks order).get
    let Next := Sweeping.Next rank (d.neighbors way.flip) order.tail
    let last : Sweeping n := ⟨(d.dominators way root).parents, [], false, .choose⟩
    (∀ s, ¬ Next last s) ∧
      ∀ s, ReflTransGen Next (.start root) s →
        ReflTransGen Next s last ∧ Tree rank root s.parents ∧
        (∀ s', Next s s' → Lowers rank s.parents s'.parents) ∧
        ∀ v left a b, s.task = .climb v left a b →
          ∃ c, ReflTransGen Next s { s with task := .gather v left (some c) } := by
  intro order rank Next last
  refine ⟨fun s next => (nomatch next), fun s run => ?_⟩
  have onward : ReflTransGen (Sweeping.Sound rank (d.neighbors way.flip) root order.tail) s last :=
    Sweeping.on_the_way (d.sweeping_sound way root) rfl run
  have run' : ReflTransGen Next s last :=
    ReflTransGen.mono (fun _ _ sound => sound.next) _ _ onward
  refine ⟨run', ?_, fun s' next => ?_, fun v left a b => Sweeping.climb_ends run' rfl⟩
  · rcases ReflTransGen.cases_head onward with rfl | ⟨u, sound, -⟩
    · exact (d.dominators_settled way root).toTree
    · exact sound.tree
  · rcases ReflTransGen.cases_head onward with rfl | ⟨u, sound, -⟩
    · exact nomatch next
    · obtain rfl := Option.some.inj (sound.next.symm.trans next)
      exact sound.lowers

end Digraph

end Provenance
