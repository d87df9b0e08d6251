import Petri.Net.Forward

/-!
# Reverting transitions

Firing forgets how many tokens a place held beyond what was taken, so a marking has many predecessors under
a transition. One of them, the least, stands for all. Reverting a set of markings collects the predecessors
of its members under all transitions.
-/

namespace Petri.Net

variable (net : Net)

/-- The least predecessor of a marking under `transition`, if the marking is within capacity where the
transition takes tokens. -/
def revert (marking transition : Datum) : Except Fault (Option Marking) := do
  let (t, m) ← net.step transition marking
  match m with
  | .flat m => return ((net.weights.get t).revert? net.capacity m).map net.markingOfWords
  | .nested m => liftM ((net.weights.get t).revertNested net.capacity m)

/-- The predecessors under all transitions as vectors, each once. Without transitions the counts of the
marking need not be words. -/
def predecessorVectors (marking : Datum) : Except Fault (List (Vector Int64 net.places.length)) := do
  let m ← net.coerce marking
  if net.transitions.isEmpty then return []
  match ← net.words m with
  | .flat m => return (net.weights.toList.filterMap (·.revert? net.capacity m)).eraseDups
  | .nested m =>
    let found ← liftM (Weights.revertAllNested net.capacity net.weights.toList m)
    return found.eraseDups

/-- The predecessors under all transitions, each once. -/
def revertAll (marking : Datum) : Except Fault (List Marking) := do
  return (← net.predecessorVectors marking).map net.markingOfWords

/-- The predecessors of several markings under all transitions, each once. The first marking that fails
decides. -/
def predecessors (markings : List Datum) : Except Fault (List Marking) := do
  let found ← markings.mapM net.predecessorVectors
  return found.flatten.eraseDups.map net.markingOfWords

/-- The record of a set of markings that was reverted; it counts every item of the collection. -/
def revertSetRecord (reverted : Nat) (found : List Marking) : LogRecord :=
  { source := .reversal
    text := some ("revert_set: " ++ toString reverted ++ " markings -> " ++ toString found.length
      ++ " predecessors") }

/-- The predecessors of the markings in a collection under all transitions, each once. -/
def revertSet (markings : Datum) : Logged (List Marking) :=
  match markings.items with
  | .ok items => .ofResult (net.predecessors items) (revertSetRecord items.length)
  | .error fault => ⟨.error (.value fault), []⟩

end Petri.Net
