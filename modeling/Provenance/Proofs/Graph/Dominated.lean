import Mathlib
import Provenance.Proofs.Digraph.Discovery
import Provenance.Proofs.Graph.ImmediateDominators

/-! # Dominated vertices

What is found below a vertex is the part of a search from the root that no path gets to without it.
The tree of dominators tells the same: its vertices are those from which the way up to the root
leads through the vertex.
-/

open Relation (TransGen ReflTransGen)

namespace Provenance.Graph

variable {N E : Type} {g : Graph N E} {root u v w d : Vertex} {order : SearchOrder}

/-! ## The tree -/

/-- The tree of dominators goes up from `u` to `d`. -/
def Climbs (g : Graph N E) (root u d : Vertex) : Prop := (u, d) ∈ g.dominatorTree root

theorem Valid.not_climbs_root (valid : g.Valid) : ¬ g.Climbs root root d := by
  intro climbs
  exact (valid.mem_fst_dominatorTree.mp (List.mem_map_of_mem climbs)).1 rfl

theorem Valid.climbs_unique (valid : g.Valid) (climbs : g.Climbs root u v)
    (climbs' : g.Climbs root u w) : v = w :=
  (valid.immediateDominator_of_mem climbs').2 v (valid.immediateDominator_of_mem climbs).1

/-- The tree leads up to its root from the vertices that can be reached from there. -/
theorem Valid.exists_climb_iff (valid : g.Valid) :
    (∃ chain, IsPath (g.Climbs root) u root chain) ↔
      ReflTransGen (g.Passes (g.direction.way .leaves)) root u := by
  constructor
  · rintro ⟨chain, climb⟩
    obtain rfl | ⟨d, climbs, -⟩ := ReflTransGen.cases_head climb.way
    · exact .refl
    · exact (valid.mem_fst_dominatorTree.mp (List.mem_map_of_mem climbs)).2
  · intro way
    obtain rfl | ⟨w, passes, -⟩ := ReflTransGen.cases_head way
    · exact ⟨[root], .refl _ root⟩
    · have live := (valid.live_of_passes passes).1
      obtain ⟨r, rfl⟩ := exists_label live
      obtain ⟨i, rfl⟩ := exists_label (valid.live_of_way live way)
      have settled := g.snapshot.digraph.dominators_settled (g.direction.way .leaves) r
      have inside := (settled.inside_iff i).mpr (valid.way_leads.mpr way)
      refine exists_path ((settled.toTree.root_above inside).lift g.snapshot.label ?_)
      rintro j p up
      have apart : j ≠ r := fun same => settled.toTree.not_up_root (same ▸ up)
      exact mem_dominatorTree.mpr ⟨r, j, p, rfl, apart, up.1, rfl, rfl⟩

theorem Valid.climb_unique (valid : g.Valid) {chain chain' : List Vertex}
    (climb : IsPath (g.Climbs root) u root chain) (climb' : IsPath (g.Climbs root) u root chain') :
    chain = chain' :=
  climb.unique climb' (fun _ _ _ => valid.climbs_unique) fun _ => valid.not_climbs_root

/-- On the way up from a vertex are those that all paths to it pass. -/
theorem Valid.mem_climb_iff (valid : g.Valid) {chain : List Vertex}
    (climb : IsPath (g.Climbs root) u root chain) :
    v ∈ chain ↔ OnAllPaths (g.Passes (g.direction.way .leaves)) root u v := by
  -- along the chain: what dominates a vertex is the vertex itself or dominates the next one
  induction chain generalizing u with
  | nil => cases climb.first
  | cons x rest ih =>
      obtain ⟨steps, first, last⟩ := climb
      obtain rfl : x = u := Option.some.inj first
      cases rest with
      | nil =>
          obtain rfl : x = root := Option.some.inj last
          rw [List.mem_singleton]
          exact ⟨fun same => same ▸ .self _ v v, OnAllPaths.eq_start⟩
      | cons d rest =>
          obtain ⟨climbs, steps⟩ := List.isChain_cons_cons.mp steps
          have dominator := (valid.immediateDominator_of_mem climbs).1
          rw [List.mem_cons, ih ⟨steps, rfl, last⟩]
          constructor
          · rintro (rfl | above)
            · exact .self _ root v
            · exact above.trans dominator.on_all
          · intro on_all
            by_cases same : v = x
            · exact .inl same
            · exact .inr (dominator.nearest v same on_all)

/-! ## The search -/

/-- A search starts with its start, and goes on with vertices that those before lead to. -/
theorem Valid.discovered_eq_cons (valid : g.Valid) {toward : Toward}
    (live : g.containsVertex root = true) :
    ∃ rest, g.discovered order root toward = root :: rest ∧
      LedTo (g.Passes (g.direction.way toward)) [root] rest := by
  obtain ⟨r, rfl⟩ := exists_label live
  obtain ⟨rest, found, led⟩ :=
    search_eq_cons order g.snapshot.digraph (g.direction.way toward) r
  refine ⟨rest.map g.snapshot.label, ?_, led.map fun i j => valid.leads_iff.mp⟩
  unfold discovered
  dsimp only
  rw [number?_eq_some.mpr rfl]
  exact congrArg (List.map g.snapshot.label) found

open Classical in
/-- The vertices that a search finds and all paths lead to through `v`, in order of discovery. -/
noncomputable def discoveredThrough (g : Graph N E) (v root : Vertex) (order : SearchOrder) :
    List Vertex :=
  (g.discovered order root .leaves).filter fun u =>
    OnAllPaths (g.Passes (g.direction.way .leaves)) root u v

theorem Valid.mem_discoveredThrough (valid : g.Valid) :
    u ∈ g.discoveredThrough v root order ↔
      g.containsVertex root = true ∧ ReflTransGen (g.Passes (g.direction.way .leaves)) root u ∧
        OnAllPaths (g.Passes (g.direction.way .leaves)) root u v := by
  classical
  rw [discoveredThrough, List.mem_filter, valid.mem_discovered, decide_eq_true_iff, and_assoc]

/-- Nothing is found through a vertex that is not found itself. -/
theorem Valid.reached_of_mem_discoveredThrough (valid : g.Valid)
    (listed : u ∈ g.discoveredThrough v root order) :
    g.containsVertex v = true ∧ g.containsVertex root = true ∧
      ReflTransGen (g.Passes (g.direction.way .leaves)) root v := by
  obtain ⟨live, way, on_all⟩ := valid.mem_discoveredThrough.mp listed
  refine ⟨valid.live_of_onAllPaths live way on_all, live, ?_⟩
  obtain ⟨path, is_path⟩ := exists_path way
  obtain ⟨part, to_v, -⟩ := is_path.exists_upto (on_all path is_path)
  exact to_v.way

/-- The first vertex that is found only through `v` is `v`. -/
theorem Valid.eq_of_head?_discoveredThrough (valid : g.Valid)
    (first : (g.discoveredThrough v root order).head? = some w) : w = v := by
  classical
  have live := (valid.reached_of_mem_discoveredThrough (List.mem_of_head? first)).2.1
  obtain ⟨rest, found, led⟩ := valid.discovered_eq_cons live
  rw [discoveredThrough, found] at first
  by_cases top : v = root
  · subst top
    rw [List.filter_cons_of_pos (by simpa using OnAllPaths.self _ v v)] at first
    exact (Option.some.inj first).symm
  · have outside : ¬ OnAllPaths (g.Passes (g.direction.way .leaves)) root root v :=
      fun on_all => top on_all.eq_start
    rw [List.filter_cons_of_neg (by simpa using outside)] at first
    -- a step to the first such vertex comes from one that there is a path to around `v`
    refine led.eq_of_head?_filter ?_ ?_ first
    · simpa using outside
    · intro u w step before after
      rw [decide_eq_true_iff] at before after
      exact (after.of_step step).resolve_left before

theorem Valid.dominatedBy_eq (valid : g.Valid) :
    g.dominatedBy v root order = g.discoveredThrough v root order := by
  by_cases live : g.containsVertex v = true ∧ g.containsVertex root = true
  · obtain ⟨a, rfl⟩ := exists_label live.1
    obtain ⟨r, rfl⟩ := exists_label live.2
    unfold dominatedBy discoveredThrough discovered
    dsimp only
    rw [number?_eq_some.mpr rfl, number?_eq_some.mpr rfl, List.filter_map]
    refine congrArg (List.map g.snapshot.label) (List.filter_congr fun i listed => ?_)
    have reached := Digraph.mem_search.mp listed
    rw [Function.comp_apply, decide_eq_decide, Digraph.mem_below_of_reached reached,
      valid.onAllPaths_label]
  · have nothing : g.discoveredThrough v root order = [] := by
      refine List.eq_nil_iff_forall_not_mem.mpr fun u listed => live ?_
      obtain ⟨v_live, root_live, -⟩ := valid.reached_of_mem_discoveredThrough listed
      exact ⟨v_live, root_live⟩
    rw [nothing]
    unfold dominatedBy
    dsimp only
    split
    next a r number number' =>
      refine absurd ⟨?_, ?_⟩ live
      · exact number?_eq_some.mp number ▸ g.label_live a
      · exact number?_eq_some.mp number' ▸ g.label_live r
    next => rfl

/-- Whatever the graph and the handles, what is found below a vertex is what a search finds and all
paths lead to through the vertex. It is first in the list, and above the others in the tree. -/
theorem dominated_of_run [Inhabited N] [Inhabited E] (direction : Direction)
    (ms : List (Mutation N E)) (v root : Vertex) (order : SearchOrder) :
    let g := (empty direction : Graph N E).after ms
    let next := g.Passes (g.direction.way .leaves)
    let found :=
      g.containsVertex v = true ∧ g.containsVertex root = true ∧ ReflTransGen next root v
    let result := g.dominatedBy v root order
    (result = [] ↔ ¬ found) ∧
      result = g.discoveredThrough v root order ∧
      (result.head? = some v ↔ found) ∧
      (∀ u, (∃! chain, IsPath (g.Climbs root) u root chain) ↔ ReflTransGen next root u) ∧
      ∀ u, u ∈ result ↔ found ∧ ∃ chain, IsPath (g.Climbs root) u root chain ∧ v ∈ chain := by
  intro g next found result
  have valid : g.Valid := valid_after (valid_empty direction) ms
  have result_eq : result = g.discoveredThrough v root order := valid.dominatedBy_eq
  have found_of_mem : ∀ u ∈ result, found := fun u listed =>
    valid.reached_of_mem_discoveredThrough (result_eq ▸ listed)
  have mem_of_found : found → v ∈ result := fun ⟨_, live, way⟩ =>
    result_eq ▸ valid.mem_discoveredThrough.mpr ⟨live, way, .self _ root v⟩
  refine ⟨⟨?_, ?_⟩, result_eq, ⟨?_, ?_⟩, fun u => ?_, fun u => ?_⟩
  · exact fun nothing reached => List.not_mem_nil (nothing ▸ mem_of_found reached)
  · exact fun missed => List.eq_nil_iff_forall_not_mem.mpr fun u => missed ∘ found_of_mem u
  · exact fun first => found_of_mem v (List.mem_of_head? first)
  · intro reached
    obtain ⟨w, first⟩ : ∃ w, result.head? = some w :=
      ⟨_, List.head?_eq_some_head (List.ne_nil_of_mem (mem_of_found reached))⟩
    rw [result_eq] at first ⊢
    rw [first, valid.eq_of_head?_discoveredThrough first]
  · rw [← valid.exists_climb_iff]
    exact ⟨ExistsUnique.exists, fun ⟨chain, climb⟩ =>
      ⟨chain, climb, fun _ climb' => valid.climb_unique climb' climb⟩⟩
  · constructor
    · intro listed
      obtain ⟨-, way, on_all⟩ := valid.mem_discoveredThrough.mp (result_eq ▸ listed)
      obtain ⟨chain, climb⟩ := valid.exists_climb_iff.mpr way
      exact ⟨found_of_mem u listed, chain, climb, (valid.mem_climb_iff climb).mpr on_all⟩
    · rintro ⟨⟨-, live, -⟩, chain, climb, above⟩
      rw [result_eq]
      exact valid.mem_discoveredThrough.mpr
        ⟨live, valid.exists_climb_iff.mp ⟨chain, climb⟩, (valid.mem_climb_iff climb).mp above⟩

end Provenance.Graph
