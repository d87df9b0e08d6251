import Petri.Log
import Petri.Net.Validation
import Petri.Weights.Nested

/-!
# Firing transitions

A transition fires from a marking if every place holds what it takes and has room for what it gives. The
marking is checked first, then the transition is looked up, then the counts become words. Counts that are
sequences make nested words, from which steps are taken as `Weights/Nested` says.
-/

namespace Petri.Net

variable (net : Net)

/-- The words of a marking of the net. -/
def words (m : Marking) : Except Fault (Words net.places.length) :=
  liftM (m.wordsOver net.places.length)

/-- The marking and the transition of a step, as words and position. -/
def step (transition marking : Datum) :
    Except Fault (Fin net.transitions.length × Words net.places.length) := do
  let m ← net.coerce marking
  let t ← net.transitionIndex transition
  return (t, ← net.words m)

/-- The marking after firing `transition`, if it fires. -/
def fire (transition marking : Datum) : Except Fault (Option Marking) := do
  let (t, m) ← net.step transition marking
  match m with
  | .flat m => return ((net.weights.get t).fire? net.capacity m).map net.markingOfWords
  | .nested m => liftM ((net.weights.get t).fireNested net.capacity m)

/-- Whether every place holds what `transition` takes. Capacities do not matter. -/
def isEnabled (transition marking : Datum) : Except Fault Bool := do
  let (t, m) ← net.step transition marking
  match m with
  | .flat m => return (net.weights.get t).Enabled m
  | .nested m => liftM ((net.weights.get t).enabledNested m)

/-- The transitions that fire, in index order. -/
def enabledTransitions (marking : Datum) : Except Fault (List Datum) := do
  let transitions := List.finRange net.transitions.length
  match ← net.words (← net.coerce marking) with
  | .flat m =>
    let fires (t : Fin net.transitions.length) : Bool :=
      ((net.weights.get t).fire? net.capacity m).isSome
    return (transitions.filter fires).map net.transitions.get
  | .nested m =>
    let found ← transitions.filterM fun t => liftM ((net.weights.get t).firesNested net.capacity m)
    return found.map net.transitions.get

/-- The vectors after one firing, each once. -/
def successorVectors (m : Words net.places.length) :
    Except Fault (List (Vector Int64 net.places.length)) :=
  match m with
  | .flat m => return (net.weights.toList.filterMap (·.fire? net.capacity m)).eraseDups
  | .nested m => do
    let found ← net.weights.toList.mapM fun w => liftM (w.fireNested net.capacity m)
    return found.filterMap id

/-- The record of successors that were listed; it shows the marking as it was given. -/
def successorsRecord (marking : Datum) (found : List Marking) : LogRecord :=
  { source := .firing
    text := do return toString found.length ++ " successors from " ++ (← marking.render?) }

/-- The markings after one firing, each once. -/
def successors (marking : Datum) : Logged (List Marking) :=
  let result : Except Fault (List Marking) := do
    let m ← net.words (← net.coerce marking)
    return (← net.successorVectors m).map net.markingOfWords
  .ofResult result (successorsRecord marking)

end Petri.Net
