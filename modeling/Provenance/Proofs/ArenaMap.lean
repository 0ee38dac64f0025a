import Provenance.Proofs.Arena

/-! # Arenas with other entries

An arena whose entries are replaced by others keeps its slots, so an operation on it issues and
accepts the same handles. Changes of entries can be made in either order if they commute.
-/

namespace Provenance.Arena

variable {κ : Kind} {α β : Type}

/-- The same slots with each entry replaced. -/
def map (f : α → β) (a : Arena κ α) : Arena κ β where
  slots := a.slots.map fun slot => ⟨slot.generation, slot.entry.map f⟩
  free := a.free
  size := a.size

variable {a : Arena κ α} {f : α → β}

theorem map_map {γ : Type} (g : β → γ) : (a.map f).map g = a.map (g ∘ f) := by
  simp [map, Function.comp_def]

theorem map_id (a : Arena κ α) : a.map id = a := by
  simp [map]

theorem map_empty (f : α → β) : (∅ : Arena κ α).map f = ∅ := by
  simp [map, EmptyCollection.emptyCollection, empty]

@[simp]
theorem get?_map (h : Handle κ) : (a.map f).get? h = (a.get? h).map f := by
  unfold get? map
  rw [Array.getElem?_map]
  cases a.slots[h.index]? with
  | none => rfl
  | some slot =>
      dsimp only [Option.map_some]
      split <;> rfl

@[simp]
theorem contains_map (h : Handle κ) : (a.map f).contains h = a.contains h := by
  rw [contains, get?_map, Option.isSome_map, contains]

theorem generationAt_map (i : Nat) : (a.map f).generationAt i = a.generationAt i := by
  unfold generationAt map
  rw [Array.getElem?_map]
  cases a.slots[i]? <;> rfl

@[simp]
theorem isFull_map : (a.map f).isFull = a.isFull := by
  simp [isFull, map]

theorem insert_map (x : α) :
    (a.map f).insert (f x) = ((a.insert x).1, (a.insert x).2.map f) := by
  unfold insert
  rw [show (a.map f).free = a.free from rfl]
  cases a.free with
  | nil => simp [map]
  | cons i free =>
      dsimp only
      rw [generationAt_map]
      simp [map, Array.map_setIfInBounds]

theorem erase_map (h : Handle κ) : (a.map f).erase h = (a.erase h).map f := by
  unfold erase
  rw [contains_map]
  split
  · simp [map, Array.map_setIfInBounds]
  · rfl

theorem modify_map {g : α → α} {g' : β → β} (same : ∀ x, g' (f x) = f (g x)) (h : Handle κ) :
    (a.map f).modify h g' = (a.modify h g).map f := by
  unfold modify
  rw [get?_map]
  cases a.get? h with
  | none => rfl
  | some x => simp [map, Array.map_setIfInBounds, same]

theorem entries_map : (a.map f).entries = a.entries.map fun (h, x) => (h, f x) := by
  unfold entries map
  rw [Array.toList_map, List.zipIdx_map, List.filterMap_map, List.map_filterMap]
  refine List.filterMap_congr ?_
  intro ⟨slot, i⟩ _
  cases h : slot.entry <;> simp [h]

@[simp]
theorem handles_map : (a.map f).handles = a.handles := by
  rw [handles, entries_map, List.map_map, handles]
  rfl

theorem find?_map (test : β → Bool) : (a.map f).find? test = a.find? fun x => test (f x) := by
  rw [find?, entries_map, List.find?_map, Option.map_map, find?]
  rfl

/-! ## Changes at one slot -/

/-- What a change does to a slot. -/
def touch (h : Handle κ) (f : α → α) (i : Nat) (slot : Slot α) : Slot α :=
  if h.index = i ∧ slot.generation = h.generation then ⟨slot.generation, slot.entry.map f⟩ else slot

theorem size_slots_modify (h : Handle κ) (f : α → α) :
    (a.modify h f).slots.size = a.slots.size := by
  unfold modify
  split
  · exact Array.size_setIfInBounds
  · rfl

theorem slots_modify (h : Handle κ) (f : α → α) (i : Nat) :
    (a.modify h f).slots[i]? = a.slots[i]?.map (touch h f i) := by
  have kept : ∀ slot, ¬ (h.index = i ∧ slot.generation = h.generation) → touch h f i slot = slot :=
    fun slot other => if_neg other
  unfold modify
  cases found : a.get? h with
  | none =>
      dsimp only
      cases here : a.slots[i]? with
      | none => rfl
      | some slot =>
          rw [Option.map_some, touch]
          split
          next hit =>
            have absent : slot.entry = none := by
              simpa [get?, hit.1, here, hit.2] using found
            obtain ⟨generation, entry⟩ := slot
            simp only at absent
            rw [absent]
            rfl
          next => rfl
  | some x =>
      dsimp only
      have slot := get?_eq_some.mp found
      rw [Array.getElem?_setIfInBounds]
      split
      next same =>
        subst same
        rw [if_pos (index_lt found), slot]
        simp [touch]
      next other =>
        cases a.slots[i]? with
        | none => rfl
        | some slot => rw [Option.map_some, kept slot fun hit => other hit.1]

@[simp]
theorem free_modify (a : Arena κ α) (h : Handle κ) (f : α → α) : (a.modify h f).free = a.free := by
  unfold modify
  split <;> rfl

/-- An arena is told by its slots, its free list and its count. -/
theorem eq_of_slots {b : Arena κ α} (slots : ∀ i : Nat, a.slots[i]? = b.slots[i]?)
    (free : a.free = b.free) (size : a.size = b.size) : a = b := by
  have same : a.slots = b.slots := Array.ext_getElem? slots
  cases a
  cases b
  simp_all

theorem modify_comm {g g' : α → α} (commute : ∀ x, g (g' x) = g' (g x)) (h h' : Handle κ) :
    (a.modify h g).modify h' g' = (a.modify h' g').modify h g := by
  apply eq_of_slots
  · intro i
    simp only [slots_modify, Option.map_map]
    congr 1
    funext ⟨generation, entry⟩
    unfold touch
    dsimp only [Function.comp_def]
    split <;> split <;> simp_all [Option.map_map, Function.comp_def]
  · simp
  · simp

/-- A change that the replacement does not see. -/
theorem map_modify {g : α → α} (same : ∀ x, f (g x) = f x) (h : Handle κ) :
    (a.modify h g).map f = a.map f := by
  apply eq_of_slots
  · intro i
    simp only [map, Array.getElem?_map, slots_modify, Option.map_map]
    congr 1
    funext slot
    dsimp only [Function.comp_def, touch]
    split
    · simp [Option.map_map, Function.comp_def, same]
    · rfl
  · exact free_modify a h g
  · exact size_modify a h g

@[simp]
theorem handles_modify (h : Handle κ) (g : α → α) : (a.modify h g).handles = a.handles := by
  rw [← handles_map (f := fun _ => ()), map_modify (g := g) fun _ => rfl, handles_map]

/-- Arenas whose entries are found in the same way and replaced by the same ones are the same. -/
theorem eq_of_map_eq {b : Arena κ α} (same : a.map f = b.map f)
    (found : ∀ h, a.get? h = b.get? h) : a = b := by
  apply eq_of_slots
  · intro i
    have slots := congrArg (·.slots[i]?) same
    simp only [map, Array.getElem?_map] at slots
    cases here : a.slots[i]? with
    | none =>
        rw [here] at slots
        cases there : b.slots[i]? with
        | none => rfl
        | some slot => simp [there] at slots
    | some slot =>
        rw [here] at slots
        cases there : b.slots[i]? with
        | none => simp [there] at slots
        | some slot' =>
            obtain ⟨generation, entry⟩ := slot
            obtain ⟨generation', entry'⟩ := slot'
            simp only [there, Option.map_some, Option.some.injEq, Slot.mk.injEq] at slots
            obtain ⟨rfl, -⟩ := slots
            have entries := found ⟨i, generation⟩
            simp only [get?, here, there, if_true] at entries
            rw [entries]
  · change (a.map f).free = (b.map f).free
    rw [same]
  · change (a.map f).size = (b.map f).size
    rw [same]

/-! ## Arenas that never lost an entry -/

/-- As long as nothing was erased, an insertion takes the next slot. -/
theorem insert_of_no_free (no_free : a.free = []) (x : α) :
    a.insert x = (⟨a.slots.size, 0⟩, { slots := a.slots.push ⟨0, some x⟩, size := a.size + 1 }) := by
  unfold insert
  rw [no_free]

theorem entries_insert_of_no_free (no_free : a.free = []) (x : α) :
    (a.insert x).2.entries = a.entries ++ [(⟨a.slots.size, 0⟩, x)] := by
  rw [insert_of_no_free no_free]
  simp [entries, List.zipIdx_append, List.filterMap_append]

end Provenance.Arena
