import Std.Data.ExtTreeMap

/-! # Actions

The editing steps that turn one version of an image into another.
-/

namespace Provenance

/-- How far a recorded action can be replayed. -/
inductive Category where
  | reproducible
  | complex
  | documented
deriving DecidableEq

instance : Inhabited Category := ⟨.reproducible⟩

abbrev Params := Std.ExtTreeMap String String

structure Action where
  identifier : String := ""
  version : UInt32 := 0
  category : Category := default
  params : Params := ∅
deriving DecidableEq

namespace Action

instance : Inhabited Action := ⟨{}⟩

def named (identifier : String) (version : UInt32) : Action := { identifier, version }

def withCategory (action : Action) (category : Category) : Action := { action with category }

/-- The value given last for a key is the one kept. -/
def withParam (action : Action) (key value : String) : Action :=
  { action with params := action.params.insert key value }

def isReproducible (action : Action) : Bool := action.category == .reproducible

end Action

end Provenance
