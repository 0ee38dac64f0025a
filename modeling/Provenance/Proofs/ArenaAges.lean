import Provenance.Proofs.ArenaMap

/-! # Generations

The generation of a slot moves on by one each time the slot loses its entry, and never otherwise. So
a handle that has become stale stays so until generations start again.
-/

namespace Provenance.Arena

variable {κ : Kind} {α : Type} {a a' a'' : Arena κ α}

/-- Whether a slot has an entry in the first arena that is not in the second. -/
def loses (a a' : Arena κ α) (i : Nat) : Bool :=
  a.handles.any fun h => h.index == i && !a'.contains h

theorem loses_iff {i : Nat} :
    a.loses a' i = true ↔ ∃ h, a.contains h = true ∧ h.index = i ∧ a'.contains h = false := by
  simp [loses]

theorem eq_of_live {h h' : Handle κ} (live : a.contains h = true) (live' : a.contains h' = true)
    (same : h.index = h'.index) : h = h' := by
  obtain ⟨x, found⟩ := contains_iff.mp live
  obtain ⟨x', found'⟩ := contains_iff.mp live'
  exact eq_of_index_eq found found' same

theorem loses_of_live {h : Handle κ} (live : a.contains h = true) :
    a.loses a' h.index = !a'.contains h := by
  rw [Bool.eq_iff_iff, loses_iff, Bool.not_eq_true']
  constructor
  · rintro ⟨h', live', same, lost⟩
    rwa [← eq_of_live live' live same]
  · exact fun lost => ⟨h, live, rfl, lost⟩

theorem loses_of_kept (kept : ∀ h, a.contains h = true → a'.contains h = true) (i : Nat) :
    a.loses a' i = false := by
  rw [Bool.eq_false_iff, ne_eq, loses_iff]
  rintro ⟨h, live, -, lost⟩
  rw [kept h live] at lost
  cases lost

theorem generation_of_live {h : Handle κ} (live : a.contains h = true) :
    a.generationAt h.index = h.generation := by
  obtain ⟨x, found⟩ := contains_iff.mp live
  simp [generationAt, get?_eq_some.mp found]

/-- The slots that lose their entries are one generation on, and no others. -/
def Turns (a a' : Arena κ α) : Prop :=
  ∀ i, a'.generationAt i = a.generationAt i + UInt32.ofNat (a.loses a' i).toNat

theorem turns_of_kept (same : ∀ i, a'.generationAt i = a.generationAt i)
    (kept : ∀ h, a.contains h = true → a'.contains h = true) : Turns a a' := by
  intro i
  rw [loses_of_kept kept, same]
  simp

/-! ## Steps that take entries away -/

/-- The second arena has some of the entries of the first. -/
structure Fades (a a' : Arena κ α) : Prop where
  fewer : ∀ h, a'.contains h = true → a.contains h = true
  turns : Turns a a'

theorem Fades.refl (a : Arena κ α) : Fades a a where
  fewer _ live := live
  turns := turns_of_kept (fun _ => rfl) fun _ live => live

/-- A slot loses its entry in one of two steps at most. -/
theorem Fades.trans (first : Fades a a') (second : Fades a' a'') : Fades a a'' where
  fewer h live := first.fewer h (second.fewer h live)
  turns i := by
    have once : (a.loses a'' i).toNat = (a.loses a' i).toNat + (a'.loses a'' i).toNat := by
      by_cases taken : ∃ h, a.contains h = true ∧ h.index = i
      · obtain ⟨h, live, rfl⟩ := taken
        rw [loses_of_live live, loses_of_live live]
        cases live' : a'.contains h with
        | true => simp [loses_of_live live']
        | false =>
            have stale : a''.contains h = false := by
              rw [Bool.eq_false_iff] at live' ⊢
              exact fun again => live' (second.fewer h again)
            have no_more : a'.loses a'' h.index = false := by
              rw [Bool.eq_false_iff, ne_eq, loses_iff]
              rintro ⟨h', other, same, -⟩
              rw [eq_of_live (first.fewer h' other) live same, live'] at other
              cases other
            simp [stale, no_more]
      · have none_lost : ∀ b : Arena κ α, a.loses b i = false := fun b => by
          rw [Bool.eq_false_iff, ne_eq, loses_iff]
          exact fun ⟨h, live, same, _⟩ => taken ⟨h, live, same⟩
        have no_more : a'.loses a'' i = false := by
          rw [Bool.eq_false_iff, ne_eq, loses_iff]
          exact fun ⟨h, live, same, _⟩ => taken ⟨h, first.fewer h live, same⟩
        simp [none_lost, no_more]
    rw [second.turns, first.turns, once, UInt32.ofNat_add, UInt32.add_assoc]

theorem generationAt_modify (a : Arena κ α) (h : Handle κ) (f : α → α) (i : Nat) :
    (a.modify h f).generationAt i = a.generationAt i := by
  unfold generationAt
  rw [slots_modify]
  cases a.slots[i]? with
  | none => rfl
  | some slot =>
      dsimp only [Option.map_some, touch]
      split <;> rfl

theorem contains_modify (a : Arena κ α) (h : Handle κ) (f : α → α) (h' : Handle κ) :
    (a.modify h f).contains h' = a.contains h' := by
  rw [contains, get?_modify]
  split
  next same => rw [Option.isSome_map, same, contains]
  next => rfl

theorem fades_modify (a : Arena κ α) (h : Handle κ) (f : α → α) : Fades a (a.modify h f) where
  fewer h' live := (contains_modify a h f h').symm.trans live
  turns := turns_of_kept (generationAt_modify a h f) fun h' live =>
    (contains_modify a h f h').trans live

theorem contains_erase (a : Arena κ α) (h h' : Handle κ) :
    (a.erase h).contains h' = (decide (h' ≠ h) && a.contains h') := by
  rw [contains, get?_erase]
  by_cases same : h' = h
  · simp [same]
  · simp [same, contains]

theorem generationAt_erase {h : Handle κ} (live : a.contains h = true) (i : Nat) :
    (a.erase h).generationAt i = if i = h.index then h.generation + 1 else a.generationAt i := by
  obtain ⟨x, found⟩ := contains_iff.mp live
  unfold erase generationAt
  rw [if_pos live]
  simp only [Array.getElem?_setIfInBounds]
  by_cases same : i = h.index
  · simp [same, index_lt found]
  · simp [same, Ne.symm same]

theorem fades_erase (a : Arena κ α) (h : Handle κ) : Fades a (a.erase h) := by
  cases live : a.contains h with
  | false =>
      rw [erase, if_neg (by simp [live])]
      exact .refl a
  | true =>
      refine ⟨fun h' => by simp [contains_erase], fun i => ?_⟩
      rw [generationAt_erase live]
      split
      next same =>
        rw [same, loses_of_live live, generation_of_live live]
        simp [contains_erase]
      next other =>
        have kept : a.loses (a.erase h) i = false := by
          rw [Bool.eq_false_iff, ne_eq, loses_iff]
          rintro ⟨h', live', same, lost⟩
          have apart : h' ≠ h := fun equal => other (same.symm.trans (congrArg Handle.index equal))
          simp [contains_erase, apart, live'] at lost
        simp [kept]

/-! ## Steps that add an entry -/

theorem generationAt_insert {a : Arena κ α} (valid : a.Valid) (x : α) (i : Nat) :
    (a.insert x).2.generationAt i = a.generationAt i := by
  unfold insert
  cases free : a.free with
  | nil =>
      unfold generationAt
      dsimp only
      rw [Array.getElem?_push]
      by_cases same : i = a.slots.size
      · simp [same]
      · rw [if_neg same]
  | cons j free =>
      have inside := (Array.getElem?_eq_some_iff.mp (slot_of_free valid free)).1
      dsimp only
      rw [generationAt]
      by_cases same : j = i
      · subst same
        rw [Array.getElem?_setIfInBounds_self_of_lt inside]
      · rw [Array.getElem?_setIfInBounds_ne same, generationAt]

theorem contains_insert {a : Arena κ α} (valid : a.Valid) (x : α) (h : Handle κ) :
    (a.insert x).2.contains h = (decide (h = (a.insert x).1) || a.contains h) := by
  rw [contains, get?_insert valid]
  by_cases same : h = (a.insert x).1
  · simp [same]
  · simp [same, contains]

theorem turns_insert {a : Arena κ α} (valid : a.Valid) (x : α) : Turns a (a.insert x).2 :=
  turns_of_kept (generationAt_insert valid x) fun h live => by simp [contains_insert valid, live]

/-! ## Many steps -/

/-- How often each slot lost its entry on the way from one arena to another. -/
structure Ages (frees : Nat → Nat) (a a' : Arena κ α) : Prop where
  generation : ∀ i, a'.generationAt i = a.generationAt i + UInt32.ofNat (frees i)
  kept : ∀ h, a.contains h = true → frees h.index = 0 → a'.contains h = true

theorem Ages.refl (a : Arena κ α) : Ages (fun _ => 0) a a where
  generation i := by simp
  kept _ live _ := live

theorem Ages.trans {frees frees' : Nat → Nat} (first : Ages frees a a')
    (second : Ages frees' a' a'') : Ages (fun i => frees i + frees' i) a a'' where
  generation i := by
    rw [second.generation, first.generation, UInt32.ofNat_add, UInt32.add_assoc]
  kept h live none_lost := by
    obtain ⟨before, after⟩ := Nat.add_eq_zero_iff.mp none_lost
    exact second.kept h (first.kept h live before) after

theorem Turns.ages (turns : Turns a a') : Ages (fun i => (a.loses a' i).toNat) a a' where
  generation := turns
  kept h live none_lost := by
    rw [loses_of_live live] at none_lost
    cases live' : a'.contains h with
    | true => rfl
    | false => simp [live'] at none_lost

/-- A handle that is found no more is not found later, as long as its slot has not been through all
generations. -/
theorem Ages.stale {frees frees' : Nat → Nat} (first : Ages frees a a')
    (second : Ages frees' a' a'') {h : Handle κ} (live : a.contains h = true)
    (lost : a'.contains h = false) (few : frees h.index + frees' h.index < UInt32.size) :
    a''.contains h = false := by
  rw [Bool.eq_false_iff]
  intro again
  have moved : frees h.index ≠ 0 := by
    intro none_lost
    rw [first.kept h live none_lost] at lost
    cases lost
  have round := (first.trans second).generation h.index
  rw [generation_of_live live, generation_of_live again] at round
  have numbers := congrArg UInt32.toNat round
  rw [UInt32.toNat_add, UInt32.toNat_ofNat'] at numbers
  have below := h.generation.toNat_lt
  simp only [UInt32.size] at few
  omega

end Provenance.Arena
