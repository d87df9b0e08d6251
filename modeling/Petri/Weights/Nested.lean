import Petri.Datum.Fault
import Petri.Grid
import Petri.Weights

/-!
# Steps from nested counts

Counts that are sequences make a grid whose first axis runs along the places. It is combined with weights and
capacities as any two grids are, and so the last axis of the counts meets the places again. A transition
can be asked whether it fires, but what it leaves are no counts; only reverting under all transitions
at once takes the predecessors apart into counts.
-/

namespace Petri.Weights

variable {n : Nat}

/-- The shape at which grids are combined. -/
def combinedShape (shape other : List Nat) : Except Datum.Fault (List Nat) :=
  match Grid.commonShape shape other with
  | some common => .ok common
  | none => .error .unlikeShapes

/-- Whether every entry is at least what the transition takes. -/
def enabledNested (w : Weights n) (m : Grid Int64) : Except Datum.Fault Bool := do
  let pre := Grid.ofVector w.pre 0
  let shape ← combinedShape m.shape pre.shape
  return (Grid.indices shape).all fun i => pre.entryAt i ≤ m.entryAt i

/-- Whether every entry is at least what the transition takes and, where the transition gives, does not go
beyond capacity afterwards. -/
def firesNested (capacity : Vector Int64 n) (w : Weights n) (m : Grid Int64) :
    Except Datum.Fault Bool := do
  let pre := Grid.ofVector w.pre 0
  let post := Grid.ofVector w.post 0
  let capacity := Grid.ofVector capacity 0
  let shape ← combinedShape m.shape pre.shape
  return (Grid.indices shape).all fun i =>
    pre.entryAt i ≤ m.entryAt i ∧
      (0 < post.entryAt i → m.entryAt i - pre.entryAt i + post.entryAt i ≤ capacity.entryAt i)

/-- Fires the transition: there is no result if it does not fire, and if it does the result would not consist
of numbers. -/
def fireNested {α : Type} (capacity : Vector Int64 n) (w : Weights n) (m : Grid Int64) :
    Except Datum.Fault (Option α) := do
  if ← w.firesNested capacity m then throw .notNumber else return none

/-- A grid of counts with an axis for transitions after that for places, if it may have one more. -/
def withTransitionAxis (m : Grid Int64) : Except Datum.Fault (Grid Int64) :=
  if m.shape.length < Grid.mostAxes then .ok m.spread else .error .tooManyAxes

/-- The predecessors of nested counts under several transitions, a vector for every index beyond the first
axis, where the counts are within capacity. -/
def predecessorGrid (capacity : Vector Int64 n) (ws : List (Weights n)) (m : Grid Int64) :
    Except Datum.Fault (Grid (Option (Vector Int64 n))) := do
  let pre := Grid.ofColumns (ws.map Weights.pre) 0
  let post := Grid.ofColumns (ws.map Weights.post) 0
  let capacity := Grid.ofColumns [capacity] 0
  let m ← withTransitionAxis m
  let shape ← combinedShape m.shape pre.shape
  return {
    shape := shape.drop 1
    entry := fun i =>
      if ∀ p : Fin n, 0 < pre.entryAt (p :: i) → m.entryAt (p :: i) ≤ capacity.entryAt (p :: i) then
        some <| Vector.ofFn fun p : Fin n =>
          predecessor (pre.entryAt (p :: i)) (post.entryAt (p :: i)) (m.entryAt (p :: i))
      else none }

/-- Reverts the transition: whether there is a result is decided by the first predecessors, which must be a
single one, and the result would not consist of numbers. -/
def revertNested {α : Type} (capacity : Vector Int64 n) (w : Weights n) (m : Grid Int64) :
    Except Datum.Fault (Option α) := do
  let found ← predecessorGrid capacity [w] m
  match (Grid.indices (found.shape.drop 1)).map fun i => found.entry (0 :: i) with
  | [some _] => throw .notNumber
  | [none] => return none
  | _ => throw .undecided

/-- The predecessors of nested counts under all transitions. -/
def revertAllNested (capacity : Vector Int64 n) (ws : List (Weights n)) (m : Grid Int64) :
    Except Datum.Fault (List (Vector Int64 n)) := do
  return (← predecessorGrid capacity ws m).toList.filterMap id

end Petri.Weights
