/-! # Directions

An edge points from its source to its target. `Direction` says which of the two is the parent,
`Toward` names the ends of a graph in those terms, and `Way` says how a walk takes the edges.
-/

namespace Provenance

inductive Direction where
  | parentToChild
  | childToParent
deriving DecidableEq

inductive Toward where
  | leaves
  | roots
deriving DecidableEq

inductive Way where
  | along
  | against
deriving DecidableEq

instance : Inhabited Direction := ⟨.parentToChild⟩

namespace Way

def flip : Way → Way
  | .along => .against
  | .against => .along

end Way

namespace Direction

/-- How a walk takes the edges in order to get to one end of the graph. -/
def way : Direction → Toward → Way
  | .parentToChild, .leaves => .along
  | .parentToChild, .roots => .against
  | .childToParent, .leaves => .against
  | .childToParent, .roots => .along

/-- Source and target of the edge that joins a parent and a child. -/
def orient {α : Type} (parent child : α) : Direction → α × α
  | .parentToChild => (parent, child)
  | .childToParent => (child, parent)

end Direction

end Provenance
