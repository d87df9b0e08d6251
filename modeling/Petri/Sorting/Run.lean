import Petri.Sorting.Search

/-!
# Runs

A run is a part of a list that is in order already: no item is below the one before it, or each item is, and
then the reverse of the part is in order. Short runs are made longer by inserting the items that follow.
-/

namespace Petri.Sorting

variable {α : Type} (below : α → α → Option Bool)

/-- How many items after `x` go on with a run: each is below the one before it if the run falls, and
none is if it does not. -/
def runAfter (falling : Bool) (x : α) : List α → Option Nat
  | [] => some 0
  | y :: ys => do
    if (← below y x) == falling then return (← runAfter falling y ys) + 1
    else return 0

/-- The run of a list that begins with `x`: how many items it has after `x`, and whether it falls. -/
def runFrom (x : α) : List α → Option (Nat × Bool)
  | [] => some (0, false)
  | y :: ys => do
    let falling ← below y x
    return ((← runAfter below falling y ys) + 1, falling)

/-- Inserts `x` into a run behind all items that it is not below. -/
def insertInto (run : List α) (x : α) : Option (List α) := do
  let place ← halve .forward (holdsAt (fun y => (below x y).map not) run) 0 run.length
  return run.insertIdx place x

/-- The leading six bits of `n`, and one more if `extra` or any bit after them is. -/
def leadingBits (n extra : Nat) : Nat :=
  if n < 64 then n + extra else leadingBits (n / 2) (max extra (n % 2))
termination_by n

/-- The least length of a run in a list of `n` items: all of a short list, and otherwise a length from 32 to
64 of which a power of two makes the whole list or a little more. -/
def leastRun (n : Nat) : Nat :=
  leadingBits n 0

end Petri.Sorting
