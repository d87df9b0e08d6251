import Petri.Net.Basic

/-!
# Markings that belong to a transition

The least marking that enables a transition, what a transition leaves in an empty net, and the empty
marking. None of them is checked against capacities.
-/

namespace Petri.Net

variable (net : Net)

/-- The marking that holds exactly what `transition` takes. -/
def minimalEnabling (transition : Datum) : Except Fault Marking := do
  return net.markingOfWords (net.weights.get (← net.transitionIndex transition)).pre

/-- The marking that holds exactly what `transition` gives. -/
def exactEffect (transition : Datum) : Except Fault Marking := do
  return net.markingOfWords (net.weights.get (← net.transitionIndex transition)).post

/-- The marking without tokens. -/
def zero : Marking :=
  net.markingOfWords (Vector.replicate _ 0)

end Petri.Net
