import Provenance.Image.Action
import Provenance.Image.Basic

/-! # Versions and derivations

What a history keeps at its vertices and edges.
-/

namespace Provenance

/-- A version of an image: the files that hold it, in the order in which they were recorded. -/
structure Version where
  ids : List ImageId
deriving DecidableEq

namespace Version

instance : Inhabited Version := ⟨⟨[]⟩⟩

def ofId (id : ImageId) : Version := ⟨[id]⟩

def primary? (version : Version) : Option ImageId := version.ids.head?

def holds (version : Version) (id : ImageId) : Bool := version.ids.contains id

def addId (id : ImageId) (version : Version) : Version := ⟨version.ids ++ [id]⟩

end Version

/-- The actions that turned the parent version into the child version. -/
structure Derivation where
  actions : List Action
deriving DecidableEq

namespace Derivation

instance : Inhabited Derivation := ⟨⟨[]⟩⟩

def addActions (actions : List Action) (derivation : Derivation) : Derivation :=
  ⟨derivation.actions ++ actions⟩

end Derivation

/-- The child derived from the parent, for every pair of their files. -/
def relationsBetween (parent child : Version) : List Relation :=
  child.ids.flatMap fun subject => parent.ids.map fun object => ⟨subject, object⟩

end Provenance
