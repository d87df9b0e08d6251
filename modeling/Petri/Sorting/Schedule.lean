import Petri.Sorting.Merge
import Petri.Sorting.Run

/-!
# Sorting by merging runs

A list is sorted by finding runs from left to right and merging neighbours. Between two neighbouring runs
there is a boundary, and its power says how deep it lies if the list is halved again and again: neighbours
are merged as soon as a boundary of lower power follows. The order may be partial, even no order at all;
`none` says that it does not compare two items that the sorting had to compare.
-/

namespace Petri.Sorting

variable {α : Type} (below : α → α → Option Bool)

/-- A run with the power of the boundary before it. -/
structure Pending (α : Type) where
  items : List α
  power : Nat := 0

/-- The runs found so far, the last one first, and the patience of the next merge. -/
structure Stack (α : Type) where
  runs : List (Pending α) := []
  patience : Nat := standardPatience

/-- The power of the boundary between a run of `left` items that begins at `start` and the run of `right`
items after it, in a list of `n` items: the first binary place in which the midpoints of the two runs, as
parts of the whole list, differ. -/
def boundaryPower (n start left right : Nat) : Nat :=
  let a := 2 * start + left
  let b := a + left + right
  1 + ((List.range n).find? fun i => (a <<< (i + 1)) / (2 * n) != (b <<< (i + 1)) / (2 * n)).getD n

/-- Merges runs at the end while the boundary between the last two is of higher power than the one that
follows. -/
def mergeAbove (power patience : Nat) : List (Pending α) → Option (Stack α)
  | top :: next :: rest =>
    if power < top.power then do
      let (items, patience) ← mergeRuns below patience next.items top.items
      mergeAbove power patience (⟨items, next.power⟩ :: rest)
    else some ⟨top :: next :: rest, patience⟩
  | runs => some ⟨runs, patience⟩
termination_by runs => runs.length

/-- Merges all runs. Of three runs at the end the middle one is merged with the shorter of its neighbours,
and with the last one if they are equally long. -/
def mergeAll (patience : Nat) : List (Pending α) → Option (List α)
  | [] => some []
  | [run] => some run.items
  | [top, next] => do return (← mergeRuns below patience next.items top.items).1
  | top :: next :: third :: rest => do
    if third.items.length < top.items.length then
      let (items, patience) ← mergeRuns below patience third.items next.items
      mergeAll patience (top :: ⟨items, third.power⟩ :: rest)
    else
      let (items, patience) ← mergeRuns below patience next.items top.items
      mergeAll patience (⟨items, next.power⟩ :: third :: rest)
termination_by runs => runs.length

/-- Adds a run to a stack, in a list of `n` items of which `start` were in runs before. -/
def Stack.push (stack : Stack α) (n start : Nat) (run : List α) : Option (Stack α) :=
  match stack.runs with
  | [] => some { stack with runs := [⟨run, 0⟩] }
  | top :: rest => do
    let left := top.items.length
    let power := boundaryPower n (start - left) left run.length
    let stack ← mergeAbove below power stack.patience (top :: rest)
    return { stack with runs := ⟨run, power⟩ :: stack.runs }

/-- The run at the front of the list that begins with `x`, with as many of the items after it inserted as
it takes to have `least` items, and how many items it has beside `x`. -/
def nextRun (least : Nat) (x : α) (xs : List α) : Option (List α × Nat) := do
  let (further, falling) ← runFrom below x xs
  let natural := x :: xs.take further
  let inserted := (xs.drop further).take (least - natural.length)
  let run ← inserted.foldlM (insertInto below) (if falling then natural.reverse else natural)
  return (run, further + inserted.length)

/-- Finds the runs of what is left of a list of `n` items and merges them with those of the stack as far as
their boundaries demand. -/
def collect (n : Nat) (stack : Stack α) : List α → Option (Stack α)
  | [] => some stack
  | x :: xs => do
    let (run, further) ← nextRun below (leastRun n) x xs
    let stack ← stack.push below n (n - (x :: xs).length) run
    collect n stack (xs.drop further)
termination_by xs => xs.length

/-- The items in ascending order, items that are not below each other in the given order. -/
def sort (xs : List α) : Option (List α) := do
  let stack ← collect below xs.length {} xs
  mergeAll below stack.patience stack.runs

end Petri.Sorting
