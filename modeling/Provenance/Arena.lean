import Provenance.Handle

/-! # Arenas

An arena keeps entries in numbered slots. Freed slots are reused, the one freed last first, and
each freeing moves the slot's generation on, so that no earlier handle finds a later entry.
-/

namespace Provenance

structure Slot (α : Type) where
  generation : UInt32
  entry : Option α

/-- The occupied slots are those with an entry; `free` lists the others and `size` counts them. -/
structure Arena (κ : Kind) (α : Type) where
  slots : Array (Slot α) := #[]
  free : List Nat := []
  size : Nat := 0

namespace Arena

variable {κ : Kind} {α : Type}

def empty : Arena κ α := {}

instance : EmptyCollection (Arena κ α) := ⟨empty⟩

/-- The entry under a handle; none for a null, stale or never issued one. -/
def get? (a : Arena κ α) (h : Handle κ) : Option α :=
  match a.slots[h.index]? with
  | some slot => if slot.generation = h.generation then slot.entry else none
  | none => none

def contains (a : Arena κ α) (h : Handle κ) : Bool := (a.get? h).isSome

def generationAt (a : Arena κ α) (i : Nat) : UInt32 :=
  match a.slots[i]? with
  | some slot => slot.generation
  | none => 0

/-- Whether every index is taken. -/
def isFull (a : Arena κ α) : Bool := a.free.isEmpty && Handle.nullIndex ≤ a.slots.size

/-- Stores an entry in the slot freed last, or in a new slot. -/
def insert (a : Arena κ α) (x : α) : Handle κ × Arena κ α :=
  match a.free with
  | i :: free =>
      let generation := a.generationAt i
      (⟨i, generation⟩,
        { slots := a.slots.setIfInBounds i ⟨generation, some x⟩, free, size := a.size + 1 })
  | [] =>
      (⟨a.slots.size, 0⟩,
        { slots := a.slots.push ⟨0, some x⟩, free := [], size := a.size + 1 })

/-- Frees the slot of a live handle. -/
def erase (a : Arena κ α) (h : Handle κ) : Arena κ α :=
  if a.contains h then
    { slots := a.slots.setIfInBounds h.index ⟨h.generation + 1, none⟩
      free := h.index :: a.free
      size := a.size - 1 }
  else a

def modify (a : Arena κ α) (h : Handle κ) (f : α → α) : Arena κ α :=
  match a.get? h with
  | some x => { a with slots := a.slots.setIfInBounds h.index ⟨h.generation, some (f x)⟩ }
  | none => a

/-- The entries under their handles, in storage order. -/
def entries (a : Arena κ α) : List (Handle κ × α) :=
  a.slots.toList.zipIdx.filterMap fun (slot, i) =>
    slot.entry.map fun x => (⟨i, slot.generation⟩, x)

/-- The live handles, in storage order. -/
def handles (a : Arena κ α) : List (Handle κ) := a.entries.map Prod.fst

/-- The first handle, in storage order, whose entry passes the test. -/
def find? (a : Arena κ α) (test : α → Bool) : Option (Handle κ) :=
  (a.entries.find? fun (_, x) => test x).map Prod.fst

end Arena

end Provenance
