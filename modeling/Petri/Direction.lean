/-!
# Directions of arcs

A precondition leads from a place to a transition, a postcondition from a transition to a place.
-/

namespace Petri

/-- Which way an arc leads. -/
inductive Direction where
  | pre
  | post
  deriving DecidableEq, Repr

namespace Direction

/-- The name of the direction in descriptions of arcs. -/
def name : Direction → String
  | pre => "pre"
  | post => "post"

/-- The name of the matrix that holds the weights of the arcs of this direction. -/
def matrixName : Direction → String
  | pre => "input"
  | post => "output"

/-- The direction that a name stands for. -/
def ofName? (s : String) : Option Direction :=
  if s = pre.name then some pre else if s = post.name then some post else none

end Direction

end Petri
