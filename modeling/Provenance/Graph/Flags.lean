import Provenance.Direction

/-! # Flags

The sides of a vertex that a query looks at, and the payloads that a derived graph takes over.
-/

namespace Provenance

/-- A set of sides. The last two are relative to the direction of the graph. -/
structure AdjacencyFlags where
  outbound : Bool := false
  inbound : Bool := false
  toLeaves : Bool := false
  toRoots : Bool := false
deriving DecidableEq

namespace AdjacencyFlags

def onlyOutbound : AdjacencyFlags := { outbound := true }

def onlyInbound : AdjacencyFlags := { inbound := true }

def onlyToLeaves : AdjacencyFlags := { toLeaves := true }

def onlyToRoots : AdjacencyFlags := { toRoots := true }

def all : AdjacencyFlags := { outbound := true, inbound := true }

instance : Inhabited AdjacencyFlags := ⟨all⟩

def union (a b : AdjacencyFlags) : AdjacencyFlags where
  outbound := a.outbound || b.outbound
  inbound := a.inbound || b.inbound
  toLeaves := a.toLeaves || b.toLeaves
  toRoots := a.toRoots || b.toRoots

/-- Whether every side of `b` is in `a`. -/
def contains (a b : AdjacencyFlags) : Bool :=
  (!b.outbound || a.outbound) && (!b.inbound || a.inbound) &&
    (!b.toLeaves || a.toLeaves) && (!b.toRoots || a.toRoots)

/-- Replaces the relative sides by the side of the edge that they stand for. -/
def resolve (a : AdjacencyFlags) : Direction → AdjacencyFlags
  | .parentToChild =>
      { outbound := a.outbound || a.toLeaves, inbound := a.inbound || a.toRoots }
  | .childToParent =>
      { outbound := a.outbound || a.toRoots, inbound := a.inbound || a.toLeaves }

/-- The sides of a list taken together; an empty list stands for `all`. -/
def ofList : List AdjacencyFlags → AdjacencyFlags
  | [] => all
  | a :: as => as.foldl union a

end AdjacencyFlags

structure CopyFlags where
  vertexPayloads : Bool := false
  edgePayloads : Bool := false
deriving DecidableEq

namespace CopyFlags

def nothing : CopyFlags := {}

def vertices : CopyFlags := { vertexPayloads := true }

def edges : CopyFlags := { edgePayloads := true }

def all : CopyFlags := { vertexPayloads := true, edgePayloads := true }

instance : Inhabited CopyFlags := ⟨all⟩

def union (a b : CopyFlags) : CopyFlags where
  vertexPayloads := a.vertexPayloads || b.vertexPayloads
  edgePayloads := a.edgePayloads || b.edgePayloads

def contains (a b : CopyFlags) : Bool :=
  (!b.vertexPayloads || a.vertexPayloads) && (!b.edgePayloads || a.edgePayloads)

/-- The flags of a list taken together; an empty list stands for `all`. -/
def ofList : List CopyFlags → CopyFlags
  | [] => all
  | a :: as => as.foldl union a

end CopyFlags

end Provenance
