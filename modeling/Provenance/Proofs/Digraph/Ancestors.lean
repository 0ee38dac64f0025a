import Provenance.Digraph.Dominators
import Provenance.Proofs.Digraph.Walk

/-! # Trees of parents

Each vertex of a tree goes up to its parent and so to the root. Two vertices meet in the first of
their common ancestors, and a vertex is put below the one where those meet that lead to it.
-/

open Relation (TransGen ReflTransGen)

namespace Provenance

variable {n : Nat}

namespace Parents

/-- A vertex other than the root goes up to its parent, which has a smaller rank. -/
def Up (rank : Fin n → Nat) (parents : Parents n) (v p : Fin n) : Prop :=
  parents.get v = some p ∧ rank p < rank v

/-- A vertex is its own ancestor, and an ancestor of its parent is one of its own. -/
def Ancestor (rank : Fin n → Nat) (parents : Parents n) : Fin n → Fin n → Prop :=
  ReflTransGen (Up rank parents)

variable {rank : Fin n → Nat} {parents : Parents n} {v p x : Fin n}

theorem Up.of_found {q : Fin n} (up : Up rank parents v q) (found : parents.get v = some p) :
    rank p < rank v := by
  obtain rfl := Option.some.inj (found.symm.trans up.1)
  exact up.2

namespace Ancestor

theorem rank_le (above : Ancestor rank parents v x) : rank x ≤ rank v := by
  induction above with
  | refl => exact Nat.le_refl _
  | tail _ up ih => exact Nat.le_trans (Nat.le_of_lt up.2) ih

theorem of_up (up : Up rank parents v p) (above : Ancestor rank parents p x) :
    Ancestor rank parents v x :=
  ReflTransGen.head up above

theorem eq_or_up (above : Ancestor rank parents v x) :
    x = v ∨ ∃ p, Up rank parents v p ∧ Ancestor rank parents p x := by
  rcases ReflTransGen.cases_head above with rfl | ⟨p, up, above⟩
  · exact .inl rfl
  · exact .inr ⟨p, up, above⟩

/-- Other ancestors of a vertex are ancestors of its parent. -/
theorem of_ne (above : Ancestor rank parents v x) (other : x ≠ v) (found : parents.get v = some p) :
    Ancestor rank parents p x := by
  obtain ⟨q, ⟨found', -⟩, above⟩ := above.eq_or_up.resolve_left other
  obtain rfl := Option.some.inj (found.symm.trans found')
  exact above

/-- Ancestors are the same where the parents are, from some rank downwards. -/
theorem congr {parents' : Parents n} (above : Ancestor rank parents v x)
    (agree : ∀ w, rank w ≤ rank v → parents'.get w = parents.get w) :
    Ancestor rank parents' v x := by
  induction above with
  | refl => exact .refl
  | @tail w p above up ih => exact ih.tail ⟨(agree w (rank_le above)).trans up.1, up.2⟩

theorem rank_lt (above : Ancestor rank parents v x) (other : x ≠ v) : rank x < rank v := by
  obtain ⟨p, up, above⟩ := above.eq_or_up.resolve_left other
  exact Nat.lt_of_le_of_lt above.rank_le up.2

/-- The common ancestors of two vertices are above the parent of the one with the greater rank. -/
theorem shared_iff {a b : Fin n} (up : Up rank parents a p) (apart : a ≠ b)
    (le : rank b ≤ rank a) :
    Ancestor rank parents a x ∧ Ancestor rank parents b x ↔
      Ancestor rank parents p x ∧ Ancestor rank parents b x := by
  refine and_congr_left fun above' => ⟨fun above => ?_, of_up up⟩
  refine above.of_ne ?_ up.1
  rintro rfl
  exact Nat.not_lt.mpr le (above'.rank_lt apart)

/-- Without a parent for the one with the greater rank there is no common ancestor. -/
theorem not_shared {a b : Fin n} (stuck : ∀ p, ¬ Up rank parents a p) (apart : a ≠ b)
    (le : rank b ≤ rank a) : ¬ (Ancestor rank parents a x ∧ Ancestor rank parents b x) := by
  intro ⟨above, above'⟩
  rcases above.eq_or_up with rfl | ⟨p, up, -⟩
  · exact Nat.not_lt.mpr le (above'.rank_lt apart)
  · exact stuck p up

end Ancestor

/-- The common ancestors of two vertices are those of the one where they meet. -/
theorem meet?_spec (rank : Fin n → Nat) (parents : Parents n) (a b x : Fin n) :
    (∃ c ∈ parents.meet? rank a b, Ancestor rank parents c x) ↔
      Ancestor rank parents a x ∧ Ancestor rank parents b x := by
  have none_iff {shared : Prop} (not_shared : ¬ shared) :
      (∃ c ∈ (none : Option (Fin n)), Ancestor rank parents c x) ↔ shared :=
    iff_of_false (fun ⟨_, found, _⟩ => nomatch found) not_shared
  fun_induction meet? rank parents a b with
  | case1 a => simp
  | case2 a b apart deeper p found up ih =>
      exact ih.trans (Ancestor.shared_iff ⟨found, up⟩ apart (Nat.le_of_lt deeper)).symm
  | case3 a b apart deeper p found not_up =>
      have stuck : ∀ q, ¬ Up rank parents a q := fun q up => not_up (up.of_found found)
      exact none_iff (Ancestor.not_shared stuck apart (Nat.le_of_lt deeper))
  | case4 a b apart deeper missing =>
      have stuck : ∀ q, ¬ Up rank parents a q := fun q up => nomatch missing.symm.trans up.1
      exact none_iff (Ancestor.not_shared stuck apart (Nat.le_of_lt deeper))
  | case5 a b apart le p found up ih =>
      refine ih.trans ?_
      rw [and_comm, and_comm (b := Ancestor rank parents b x)]
      exact (Ancestor.shared_iff ⟨found, up⟩ (Ne.symm apart) (Nat.not_lt.mp le)).symm
  | case6 a b apart le p found not_up =>
      have stuck : ∀ q, ¬ Up rank parents b q := fun q up => not_up (up.of_found found)
      rw [and_comm]
      exact none_iff (Ancestor.not_shared stuck (Ne.symm apart) (Nat.not_lt.mp le))
  | case7 a b apart le missing =>
      have stuck : ∀ q, ¬ Up rank parents b q := fun q up => nomatch missing.symm.trans up.1
      rw [and_comm]
      exact none_iff (Ancestor.not_shared stuck (Ne.symm apart) (Nat.not_lt.mp le))

/-! ## Trees -/

/-- Every vertex with a parent goes up to one that has a parent as well, and so to the root. -/
structure Tree (rank : Fin n → Nat) (root : Fin n) (parents : Parents n) : Prop where
  top : parents.get root = some root
  up : ∀ v p, v ≠ root → parents.get v = some p → rank p < rank v ∧ (parents.get p).isSome

namespace Tree

variable {root : Fin n} {prev : Fin n → List (Fin n)}

theorem not_up_root (tree : Tree rank root parents) : ¬ Up rank parents root p := by
  rintro ⟨found, less⟩
  obtain rfl := Option.some.inj (tree.top.symm.trans found)
  exact Nat.lt_irrefl _ less

theorem inside_of_up (tree : Tree rank root parents) (up : Up rank parents v p) :
    (parents.get p).isSome := by
  refine (tree.up v p ?_ up.1).2
  rintro rfl
  exact tree.not_up_root up

theorem ancestor_of_root (tree : Tree rank root parents) (above : Ancestor rank parents root x) :
    x = root :=
  above.eq_or_up.resolve_right fun ⟨_, up, _⟩ => tree.not_up_root up

theorem root_above (tree : Tree rank root parents) {v : Fin n} (inside : (parents.get v).isSome) :
    Ancestor rank parents v root := by
  by_cases top : v = root
  · rw [top]
    exact .refl
  · obtain ⟨p, found⟩ := Option.isSome_iff_exists.mp inside
    obtain ⟨less, inside⟩ := tree.up v p top found
    exact (tree.root_above inside).of_up ⟨found, less⟩
termination_by rank v

theorem inside_of_ancestor (tree : Tree rank root parents) (inside : (parents.get v).isSome)
    (above : Ancestor rank parents v x) : (parents.get x).isSome := by
  induction above with
  | refl => exact inside
  | tail _ up _ => exact tree.inside_of_up up

/-- The vertices of the list that are in the tree have been joined to one. -/
structure Joined (rank : Fin n → Nat) (parents : Parents n) (ps : List (Fin n))
    (best : Option (Fin n)) : Prop where
  inside : ∀ q ∈ best, (parents.get q).isSome
  isSome_iff : best.isSome ↔ ∃ p ∈ ps, (parents.get p).isSome
  spec : ∀ x, (∀ q ∈ best, Ancestor rank parents q x) ↔
    ∀ p ∈ ps, (parents.get p).isSome → Ancestor rank parents p x

theorem join (tree : Tree rank root parents) {ps : List (Fin n)} {best : Option (Fin n)}
    (joined : Joined rank parents ps best) (p : Fin n) :
    Joined rank parents (ps ++ [p]) (parents.join rank best p) := by
  obtain ⟨inside, isSome_iff, spec⟩ := joined
  unfold Parents.join
  cases found : parents.get p with
  | none =>
      refine ⟨inside, ?_, fun x => ?_⟩
      · simp [List.mem_append, or_and_right, exists_or, isSome_iff, found]
      · rw [List.forall_mem_append, ← spec x]
        simp [found]
  | some _ =>
      have known : (parents.get p).isSome := by rw [found]; rfl
      cases best with
      | none =>
          have nothing : ∀ q ∈ ps, ¬ (parents.get q).isSome := by simpa using isSome_iff
          refine ⟨by simpa using known, ?_, fun x => ?_⟩
          · simp [List.mem_append, or_and_right, exists_or, known]
          · have none_yet : ∀ q ∈ ps, (parents.get q).isSome → Ancestor rank parents q x :=
              fun q listed known => absurd known (nothing q listed)
            rw [List.forall_mem_append]
            simpa [known] using fun _ => none_yet
      | some b =>
          have known' := inside b rfl
          have meet := meet?_spec rank parents p b
          obtain ⟨c, met, -⟩ := (meet root).mpr ⟨tree.root_above known, tree.root_above known'⟩
          rw [Option.mem_def] at met
          simp only [met, Option.mem_def, Option.some.injEq, exists_eq_left'] at meet
          dsimp only
          rw [met]
          refine ⟨?_, ?_, fun x => ?_⟩
          · intro q same
            obtain rfl := Option.some.inj same
            exact tree.inside_of_ancestor known ((meet c).mp .refl).1
          · simp [List.mem_append, or_and_right, exists_or, known]
          · rw [List.forall_mem_append, ← spec x]
            simp only [Option.mem_def, Option.some.injEq, forall_eq', List.forall_mem_singleton,
              known, true_implies, meet]
            exact and_comm

theorem foldl_join (tree : Tree rank root parents) (ps : List (Fin n)) :
    Joined rank parents ps (ps.foldl (parents.join rank) none) := by
  induction ps using List.reverseRecOn with
  | nil => exact ⟨by simp, by simp, by simp⟩
  | append_singleton ps p ih =>
      rw [List.foldl_concat]
      exact tree.join ih p

/-- A vertex is given as its parent where those meet that lead to it. -/
theorem relax_eq (tree : Tree rank root parents) (v : Fin n)
    (some_inside : ∃ p ∈ prev v, (parents.get p).isSome) :
    ∃ q, parents.relax rank prev v = parents.set v (some q) ∧ (parents.get q).isSome ∧
      ∀ x, Ancestor rank parents q x ↔
        ∀ p ∈ prev v, (parents.get p).isSome → Ancestor rank parents p x := by
  obtain ⟨inside, isSome_iff, spec⟩ := tree.foldl_join (prev v)
  obtain ⟨q, joined⟩ := Option.isSome_iff_exists.mp (isSome_iff.mpr some_inside)
  simp only [joined, Option.mem_def, Option.some.injEq, forall_eq'] at inside spec
  refine ⟨q, ?_, inside, spec⟩
  rw [relax, joined]

theorem set {q : Fin n} (tree : Tree rank root parents) (other : v ≠ root) (less : rank q < rank v)
    (inside : (parents.get q).isSome) : Tree rank root (parents.set v (some q)) := by
  have kept : ∀ w, (parents.get w).isSome → ((parents.set v (some q)).get w).isSome := by
    intro w inside
    rw [VertexMap.get_set]
    split
    · rfl
    · exact inside
  refine ⟨?_, ?_⟩
  · rw [VertexMap.get_set, if_neg other]
    exact tree.top
  · intro w p below found
    rw [VertexMap.get_set] at found
    split at found
    next same =>
      obtain rfl := Option.some.inj found
      exact ⟨same ▸ less, kept _ inside⟩
    next =>
      obtain ⟨less, inside⟩ := tree.up w p below found
      exact ⟨less, kept p inside⟩

end Tree

end Parents

end Provenance
