import Mathlib.Data.List.Basic
import Provenance.Arena

/-! # Arenas in good order

An arena keeps its slots, the list of the free ones and the number of the others in step. Each
operation is described by what a look-up finds after it.
-/

namespace Provenance

variable {κ : Kind}

theorem Handle.compare_of_index_lt {h h' : Handle κ} (lt : h.index < h'.index) :
    compare h h' = .lt := by
  have first : compareOn Handle.index h h' = .lt := Nat.compare_eq_lt.mpr lt
  change compareLex (compareOn Handle.index) (compareOn Handle.generation) h h' = .lt
  rw [compareLex, first]
  rfl

namespace Arena

variable {α : Type}

/-- The free slots are exactly those without an entry, each listed once, and `size` is the number
of the others. No slot has the index of the null handle. -/
structure Valid (a : Arena κ α) : Prop where
  bounded : a.slots.size ≤ Handle.nullIndex
  counted : a.size = a.slots.countP fun slot => slot.entry.isSome
  free_nodup : a.free.Nodup
  mem_free : ∀ i, i ∈ a.free ↔ ∃ generation, a.slots[i]? = some ⟨generation, none⟩

/-! ## Look-up -/

theorem get?_eq_some {a : Arena κ α} {h : Handle κ} {x : α} :
    a.get? h = some x ↔ a.slots[h.index]? = some ⟨h.generation, some x⟩ := by
  unfold get?
  cases hs : a.slots[h.index]? with
  | none => simp
  | some slot =>
      obtain ⟨generation, entry⟩ := slot
      by_cases hg : generation = h.generation <;> simp [hg]

theorem contains_iff {a : Arena κ α} {h : Handle κ} :
    a.contains h = true ↔ ∃ x, a.get? h = some x := Option.isSome_iff_exists

theorem contains_eq_false {a : Arena κ α} {h : Handle κ} :
    a.contains h = false ↔ a.get? h = none := by simp [contains]

@[simp]
theorem get?_empty (h : Handle κ) : (∅ : Arena κ α).get? h = none := rfl

/-- What is found once a slot has been overwritten. -/
theorem get?_overwrite (a : Arena κ α) (i : Nat) (slot : Slot α) (free : List Nat) (size : Nat)
    (inside : i < a.slots.size) (h : Handle κ) :
    get? { slots := a.slots.setIfInBounds i slot, free, size } h =
      if h.index = i then (if slot.generation = h.generation then slot.entry else none)
      else a.get? h := by
  simp only [get?, Array.getElem?_setIfInBounds]
  by_cases hi : h.index = i
  · subst hi
    simp [inside]
  · simp [hi, Ne.symm hi]

theorem index_lt {a : Arena κ α} {h : Handle κ} {x : α} (found : a.get? h = some x) :
    h.index < a.slots.size :=
  (Array.getElem?_eq_some_iff.mp (get?_eq_some.mp found)).1

theorem Valid.get?_null {a : Arena κ α} (valid : a.Valid) : a.get? .null = none := by
  cases found : a.get? .null with
  | none => rfl
  | some x => exact absurd (index_lt found) (Nat.not_lt.mpr valid.bounded)

/-- Two live handles of one slot are the same handle. -/
theorem eq_of_index_eq {a : Arena κ α} {h h' : Handle κ} {x x' : α} (found : a.get? h = some x)
    (found' : a.get? h' = some x') (same : h.index = h'.index) : h = h' := by
  have hs := get?_eq_some.mp found
  have hs' := get?_eq_some.mp found'
  rw [same, hs'] at hs
  obtain ⟨index, generation⟩ := h
  obtain ⟨index', generation'⟩ := h'
  simp only [Option.some.injEq, Slot.mk.injEq] at hs
  simp only [Handle.mk.injEq]
  exact ⟨same, hs.1.symm⟩

theorem get?_modify (a : Arena κ α) (h : Handle κ) (f : α → α) (h' : Handle κ) :
    (a.modify h f).get? h' = if h' = h then (a.get? h).map f else a.get? h' := by
  unfold modify
  cases found : a.get? h with
  | none =>
      by_cases same : h' = h
      · simp [same, found]
      · simp [same]
  | some x =>
      simp only [get?_overwrite a _ _ _ _ (index_lt found)]
      by_cases same : h' = h
      · simp [same]
      · simp only [same, if_false]
        split
        next index =>
          split
          next generation =>
            exact absurd (by cases h; cases h'; simp_all) same
          · cases found' : a.get? h' with
            | none => rfl
            | some y => exact absurd (eq_of_index_eq found' found index) same
        · rfl

@[simp]
theorem size_modify (a : Arena κ α) (h : Handle κ) (f : α → α) : (a.modify h f).size = a.size := by
  unfold modify
  split <;> rfl

/-- A change that would leave every other entry as it is. -/
theorem get?_modify_map {a : Arena κ α} {h : Handle κ} {f : α → α} {h' : Handle κ}
    (fixed : h' ≠ h → ∀ x, a.get? h' = some x → f x = x) :
    (a.modify h f).get? h' = (a.get? h').map f := by
  rw [get?_modify]
  split
  next same => rw [same]
  next other =>
    cases found : a.get? h' with
    | none => rfl
    | some x => rw [Option.map_some, fixed other x found]

theorem get?_erase (a : Arena κ α) (h h' : Handle κ) :
    (a.erase h).get? h' = if h' = h then none else a.get? h' := by
  unfold erase
  cases found : a.get? h with
  | none =>
      rw [if_neg (by simp [contains, found])]
      by_cases same : h' = h
      · simp [same, found]
      · simp [same]
  | some x =>
      rw [if_pos (by simp [contains, found]), get?_overwrite a _ _ _ _ (index_lt found)]
      by_cases index : h'.index = h.index
      · have dead : h' ≠ h → a.get? h' = none := by
          intro other
          cases found' : a.get? h' with
          | none => rfl
          | some y => exact absurd (eq_of_index_eq found' found index) other
        by_cases same : h' = h
        · simp [same]
        · simp [index, same, dead same]
      · have other : h' ≠ h := fun same => index (congrArg Handle.index same)
        simp [index, other]

/-! ## Insertion -/

/-- The slot that an insertion takes, as it is before. -/
theorem slot_of_free {a : Arena κ α} (valid : a.Valid) {i : Nat} {free : List Nat}
    (hf : a.free = i :: free) : a.slots[i]? = some ⟨a.generationAt i, none⟩ := by
  obtain ⟨generation, hs⟩ := (valid.mem_free i).mp (hf ▸ List.mem_cons_self)
  simp [generationAt, hs]

theorem insert_fresh {a : Arena κ α} (valid : a.Valid) (x : α) :
    a.get? (a.insert x).1 = none := by
  unfold insert
  cases hf : a.free with
  | nil => simp [get?]
  | cons i free => simp [get?, slot_of_free valid hf]

theorem size_insert (a : Arena κ α) (x : α) : (a.insert x).2.size = a.size + 1 := by
  unfold insert
  split <;> rfl

theorem get?_insert {a : Arena κ α} (valid : a.Valid) (x : α) (h : Handle κ) :
    (a.insert x).2.get? h = if h = (a.insert x).1 then some x else a.get? h := by
  unfold insert
  cases hf : a.free with
  | nil =>
      simp only [get?, Array.getElem?_push]
      by_cases index : h.index = a.slots.size
      · by_cases generation : h.generation = 0
        · have same : h = ⟨a.slots.size, 0⟩ := by cases h; simp_all
          simp [same]
        · have other : h ≠ ⟨a.slots.size, 0⟩ := fun same => generation (congrArg Handle.generation same)
          simp [index, other, Ne.symm generation]
      · have other : h ≠ ⟨a.slots.size, 0⟩ := fun same => index (congrArg Handle.index same)
        simp [index, other]
  | cons i free =>
      have hs := slot_of_free valid hf
      have inside := (Array.getElem?_eq_some_iff.mp hs).1
      simp only [get?_overwrite a _ _ _ _ inside]
      by_cases index : h.index = i
      · by_cases generation : h.generation = a.generationAt i
        · have same : h = ⟨i, a.generationAt i⟩ := by cases h; simp_all
          simp [same]
        · have other : h ≠ ⟨i, a.generationAt i⟩ :=
            fun same => generation (congrArg Handle.generation same)
          simp [index, other, Ne.symm generation, get?, hs]
      · have other : h ≠ ⟨i, a.generationAt i⟩ := fun same => index (congrArg Handle.index same)
        simp [index, other]

/-! ## Order is kept -/

theorem valid_empty : (∅ : Arena κ α).Valid where
  bounded := Nat.zero_le _
  counted := rfl
  free_nodup := List.nodup_nil
  mem_free i := by simp [EmptyCollection.emptyCollection, empty]

theorem valid_modify {a : Arena κ α} (valid : a.Valid) (h : Handle κ) (f : α → α) :
    (a.modify h f).Valid := by
  unfold modify
  cases found : a.get? h with
  | none => exact valid
  | some x =>
      have hs := get?_eq_some.mp found
      have inside := index_lt found
      have here : a.slots[h.index] = ⟨h.generation, some x⟩ := by
        simpa [Array.getElem?_eq_getElem inside] using hs
      have some_here : 0 < a.slots.countP fun slot => slot.entry.isSome :=
        Array.countP_pos_iff.mpr ⟨_, Array.getElem_mem inside, by simp [here]⟩
      exact
        { bounded := by simpa using valid.bounded
          counted := by
            simp only [Array.setIfInBounds, inside, dif_pos, Array.countP_set, here, valid.counted,
              Option.isSome_some, if_true]
            omega
          free_nodup := valid.free_nodup
          mem_free := fun i => by
            rw [valid.mem_free]
            by_cases index : h.index = i
            · subst index
              simp [inside, here]
            · simp [index] }

theorem valid_erase {a : Arena κ α} (valid : a.Valid) (h : Handle κ) : (a.erase h).Valid := by
  unfold erase
  cases found : a.get? h with
  | none => simpa [contains, found] using valid
  | some x =>
      have hs := get?_eq_some.mp found
      have inside := index_lt found
      have here : a.slots[h.index] = ⟨h.generation, some x⟩ := by
        simpa [Array.getElem?_eq_getElem inside] using hs
      rw [if_pos (by simp [contains, found])]
      exact
        { bounded := by simpa using valid.bounded
          counted := by
            simp [Array.setIfInBounds, inside, Array.countP_set, here, valid.counted]
          free_nodup := by
            refine List.nodup_cons.mpr ⟨fun hf => ?_, valid.free_nodup⟩
            obtain ⟨generation, hn⟩ := (valid.mem_free h.index).mp hf
            simp [hs] at hn
          mem_free := fun i => by
            rw [List.mem_cons, valid.mem_free]
            by_cases index : h.index = i
            · subst index
              simp [inside]
            · simp [index, Ne.symm index] }

theorem valid_insert {a : Arena κ α} (valid : a.Valid) (room : a.isFull = false) (x : α) :
    (a.insert x).2.Valid := by
  unfold insert
  cases hf : a.free with
  | nil =>
      have below : a.slots.size < Handle.nullIndex := by simpa [isFull, hf] using room
      exact
        { bounded := by simpa using Nat.succ_le_of_lt below
          counted := by simp [valid.counted]
          free_nodup := List.nodup_nil
          mem_free := fun i => by
            have none_free := valid.mem_free i
            simp only [hf, List.not_mem_nil, false_iff, not_exists] at none_free
            simp only [List.not_mem_nil, Array.getElem?_push, false_iff, not_exists]
            intro generation
            split
            · simp
            · exact none_free generation }
  | cons i free =>
      have hs := slot_of_free valid hf
      have inside := (Array.getElem?_eq_some_iff.mp hs).1
      have here : a.slots[i] = ⟨a.generationAt i, none⟩ := by
        simpa [Array.getElem?_eq_getElem inside] using hs
      have nodup := List.nodup_cons.mp (hf ▸ valid.free_nodup)
      exact
        { bounded := by simpa using valid.bounded
          counted := by
            simp [Array.setIfInBounds, inside, Array.countP_set, here, valid.counted]
          free_nodup := nodup.2
          mem_free := fun j => by
            have listed := valid.mem_free j
            rw [hf, List.mem_cons] at listed
            by_cases index : i = j
            · subst index
              simp [inside, nodup.1]
            · simpa [index, Ne.symm index] using listed }

/-! ## Entries -/

theorem mem_entries {a : Arena κ α} {h : Handle κ} {x : α} :
    (h, x) ∈ a.entries ↔ a.get? h = some x := by
  simp only [entries, List.mem_filterMap, Prod.exists, List.mem_zipIdx_iff_getElem?,
    Array.getElem?_toList, get?_eq_some]
  constructor
  · rintro ⟨⟨generation, entry⟩, i, hs, hx⟩
    obtain ⟨y, rfl, hy⟩ := Option.map_eq_some_iff.mp hx
    simp only [Prod.mk.injEq] at hy
    obtain ⟨rfl, rfl⟩ := hy
    exact hs
  · intro hs
    exact ⟨_, _, hs, rfl⟩

@[simp]
theorem mem_handles {a : Arena κ α} {h : Handle κ} : h ∈ a.handles ↔ a.contains h = true := by
  simp [handles, mem_entries, contains_iff]

/-- Live handles are listed by their slots. -/
theorem entries_sorted (a : Arena κ α) :
    a.entries.Pairwise fun p q => p.1.index < q.1.index := by
  have indices : (a.slots.toList.zipIdx.map Prod.snd).Pairwise (· < ·) := by
    rw [List.zipIdx_map_snd]
    exact List.pairwise_lt_range'
  refine List.pairwise_filterMap.mpr ((List.pairwise_map.mp indices).imp ?_)
  rintro ⟨slot, i⟩ ⟨slot', j⟩ lt p hp q hq
  obtain ⟨x, _, rfl⟩ := Option.map_eq_some_iff.mp hp
  obtain ⟨y, _, rfl⟩ := Option.map_eq_some_iff.mp hq
  exact lt

theorem handles_sorted (a : Arena κ α) : a.handles.Pairwise (·.index < ·.index) :=
  List.pairwise_map.mpr a.entries_sorted

theorem handles_nodup (a : Arena κ α) : a.handles.Nodup :=
  a.handles_sorted.imp fun lt same => Nat.ne_of_lt lt (congrArg Handle.index same)

theorem length_entries (a : Arena κ α) :
    a.entries.length = a.slots.countP fun slot => slot.entry.isSome := by
  have values : a.entries.map Prod.snd = a.slots.toList.filterMap Slot.entry := by
    rw [entries, List.map_filterMap]
    conv_rhs => rw [← List.zipIdx_map_fst 0 a.slots.toList, List.filterMap_map]
    refine List.filterMap_congr fun p _ => ?_
    cases h : p.1.entry <;> simp [h]
  rw [← List.length_map Prod.snd, values, List.length_filterMap_eq_countP, Array.countP_toList]

theorem Valid.length_handles {a : Arena κ α} (valid : a.Valid) : a.handles.length = a.size := by
  rw [handles, List.length_map, length_entries, valid.counted]

/-- An arena is full once every index but that of the null handle has an entry. -/
theorem Valid.isFull_iff {a : Arena κ α} (valid : a.Valid) :
    a.isFull = true ↔ a.size = Handle.nullIndex := by
  have le : a.slots.countP (fun slot => slot.entry.isSome) ≤ a.slots.size := Array.countP_le_size
  have bounded := valid.bounded
  have all_used : a.free = [] ↔ a.size = a.slots.size := by
    rw [valid.counted, Array.countP_eq_size, List.eq_nil_iff_forall_not_mem]
    simp only [valid.mem_free, not_exists, Array.mem_iff_getElem?, Option.isSome_iff_ne_none]
    constructor
    · rintro unlisted ⟨generation, entry⟩ ⟨i, hs⟩ rfl
      exact unlisted i generation hs
    · intro used i generation hs
      exact used _ ⟨i, hs⟩ rfl
  simp only [isFull, Bool.and_eq_true, List.isEmpty_iff, decide_eq_true_eq, all_used]
  have counted := valid.counted
  omega

theorem find?_eq_none {a : Arena κ α} {test : α → Bool} :
    a.find? test = none ↔ ∀ h x, a.get? h = some x → test x = false := by
  simp [find?, mem_entries]

theorem find?_eq_some {a : Arena κ α} {test : α → Bool} {h : Handle κ}
    (found : a.find? test = some h) : ∃ x, a.get? h = some x ∧ test x = true := by
  obtain ⟨⟨h', x⟩, hp, rfl⟩ := Option.map_eq_some_iff.mp found
  exact ⟨x, mem_entries.mp (List.mem_of_find?_eq_some hp), by simpa using List.find?_some hp⟩

end Arena

end Provenance
