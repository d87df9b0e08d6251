import Petri.Sorting.Search

/-!
# Merging two runs

Two runs that follow each other are merged into one. Of the two, one is kept aside while the items of the
other move past it; the shorter one is kept. Items are put out one at a time, until one run has put out so
many in a row that it seems worth while to gallop: then stretches are put out, first found by searching, as
long as the stretches are long. How many in a row it takes is the patience, which grows and shrinks with the
success of galloping and goes on from merge to merge.

If the first run is kept, both are read forward; if the second one is, both are read backward, and the
merge is the reverse of what is put out.
-/

namespace Petri.Sorting

variable {α : Type}

/-- Whether items are put out one at a time, and then how many each run has put out last without the
other, or in stretches. -/
inductive Phase where
  | single (kept moved : Nat)
  | stretches
  deriving DecidableEq, Repr

/-- A merge in progress. -/
structure Merge (α : Type) where
  /-- What has been put out, the last item first. -/
  out : List α
  kept : List α
  moved : List α
  patience : Nat
  phase : Phase := .single 0 0

/-- The patience of the first merge, and the least length of a stretch that makes galloping worth while. -/
def standardPatience : Nat := 7

namespace Merge

/-- Everything in order of reading. What is left of the moved run comes before what is left of the kept
one: when the merge is over, one of them is empty or the kept one has only its last item, which is the last
of all. -/
def result (s : Merge α) : List α :=
  s.out.reverse ++ s.moved ++ s.kept

/-- Whether nothing is left to be compared. -/
def isOver (s : Merge α) : Bool :=
  s.moved.isEmpty || s.kept.length ≤ 1

/-- Puts out the first `k` items of the kept run. -/
def putKept (s : Merge α) (k : Nat) : Merge α :=
  { s with out := (s.kept.take k).reverse ++ s.out, kept := s.kept.drop k }

/-- Puts out the first `k` items of the moved run. -/
def putMoved (s : Merge α) (k : Nat) : Merge α :=
  { s with out := (s.moved.take k).reverse ++ s.out, moved := s.moved.drop k }

/-- The phase after an item was put out and made the counts of items in a row what they are. -/
def countRow (s : Merge α) (kept moved : Nat) : Merge α :=
  { s with phase := if s.patience ≤ max kept moved then .stretches else .single kept moved }

variable (precedes : α → α → Option Bool) (reading : Reading)

/-- Puts out one item: that of the moved run if it precedes that of the kept run. -/
def stepSingle (s : Merge α) (keptRow movedRow : Nat) : Option (Merge α) :=
  match s.moved, s.kept with
  | m :: _, k :: _ => do
    if ← precedes m k then return (s.putMoved 1).countRow 0 (movedRow + 1)
    else return (s.putKept 1).countRow (keptRow + 1) 0
  | _, _ => some s

/-- Puts out the stretch of the kept run up to the next item of the moved run, and that item. The number is
the length of the stretch. -/
def stretchKept (s : Merge α) : Option (Merge α × Nat) :=
  match s.moved with
  | [] => some (s, 0)
  | m :: _ => do
    let k ← gallop reading (fun x => (precedes m x).map not) s.kept
    let s := s.putKept k
    return (if s.isOver then s else s.putMoved 1, k)

/-- Puts out the stretch of the moved run up to the next item of the kept run, and that item. The number is
the length of the stretch. -/
def stretchMoved (s : Merge α) : Option (Merge α × Nat) :=
  match s.kept with
  | [] => some (s, 0)
  | x :: _ => do
    let k ← gallop reading (fun m => precedes m x) s.moved
    let s := s.putMoved k
    return (if s.isOver then s else s.putKept 1, k)

/-- Puts out a stretch of each run, that of the run which stands first before that of the other one. -/
def stretchBoth (s : Merge α) : Option (Merge α × Nat) := do
  let (first, second) :=
    match reading with
    | .forward => (stretchKept precedes reading, stretchMoved precedes reading)
    | .backward => (stretchMoved precedes reading, stretchKept precedes reading)
  let (s, j) ← first s
  if s.isOver then return (s, j)
  let (s, k) ← second s
  return (s, max j k)

/-- Puts out stretches. Long ones lower the patience; after short ones it is higher, and items are put out
one at a time again. -/
def stepStretches (s : Merge α) : Option (Merge α) := do
  let (s, longest) ← stretchBoth precedes reading s
  if s.isOver then return s
  else if standardPatience ≤ longest then return { s with patience := max 1 (s.patience - 1) }
  else return { s with patience := s.patience + 1, phase := .single 0 0 }

/-- One step of a merge that is not over. -/
def step (s : Merge α) : Option (Merge α) :=
  if s.isOver then some s
  else
    match s.phase with
    | .single keptRow movedRow => stepSingle precedes s keptRow movedRow
    | .stretches => stepStretches precedes reading s

/-- As many steps as given. -/
def steps : Nat → Merge α → Option (Merge α)
  | 0, s => some s
  | n + 1, s => do steps n (← step precedes reading s)

end Merge

/-- The items of both runs in order of reading, and the patience afterwards. The first item of the moved run
comes before all others, and the last of the kept one after all others. Every step puts out an item, so as
many steps as there are items are enough. -/
def mergeApart (precedes : α → α → Option Bool) (reading : Reading) (patience : Nat)
    (kept moved : List α) : Option (List α × Nat) := do
  let start : Merge α := { out := moved.take 1, kept, moved := moved.drop 1, patience }
  let s ← start.steps precedes reading (kept.length + moved.length)
  return (s.result, s.patience)

/-- Merges two runs. What of the first comes before all of the second, and what of the second comes after
all of the first, stays where it is. -/
def mergeRuns (below : α → α → Option Bool) (patience : Nat) (first second : List α) :
    Option (List α × Nat) :=
  match second with
  | [] => some (first, patience)
  | y :: _ => do
    let settled ← gallop .forward (fun x => (below y x).map not) first
    let (front, first) := first.splitAt settled
    match first.getLast? with
    | none => return (front ++ second, patience)
    | some x =>
      let settled ← gallop .backward (fun y => (below y x).map not) second.reverse
      let (back, second) := second.reverse.splitAt settled
      if second.isEmpty then return (front ++ first ++ back.reverse, patience)
      else if first.length ≤ second.length then
        let (merged, patience) ← mergeApart below .forward patience first second.reverse
        return (front ++ merged ++ back.reverse, patience)
      else
        let (merged, patience) ←
          mergeApart (fun x y => below y x) .backward patience second first.reverse
        return (front ++ merged.reverse ++ back.reverse, patience)

end Petri.Sorting
