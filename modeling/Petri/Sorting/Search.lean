/-!
# Searching from one end of a list

A list begins with items that hold a property and goes on with items that do not. How many hold it is found
by steps that double, for it is likely to be few, and then by halving what is left. A property that
cannot be decided for an item is `none` there, and a search that asks for it has no answer.

Which items are asked about is part of the meaning of a search, since a property may be undecided for some
items or hold again later on. A list that is read backward is asked about the same items as the list that it
is the reverse of.
-/

namespace Petri.Sorting

variable {α : Type}

/-- Whether a list is searched as it stands or is the reverse of the list that is meant. -/
inductive Reading where
  | forward
  | backward
  deriving DecidableEq, Repr

/-- The place in the middle of an interval. Of two such places it is the later one, and the earlier one of
a list that is read backward. -/
def Reading.middle (reading : Reading) (lo hi : Nat) : Nat :=
  match reading with
  | forward => lo + (hi - lo) / 2
  | backward => lo + (hi - lo - 1) / 2

theorem Reading.le_middle (reading : Reading) (lo hi : Nat) : lo ≤ reading.middle lo hi := by
  cases reading <;> exact Nat.le_add_right _ _

theorem Reading.middle_lt (reading : Reading) {lo hi : Nat} (h : lo < hi) :
    reading.middle lo hi < hi := by
  cases reading <;> simp only [middle] <;> omega

/-- The first place of the interval from `lo` to `hi` at which the property does not hold, or `hi`, found by
halving. -/
def halve (reading : Reading) (holds : Nat → Option Bool) (lo hi : Nat) : Option Nat :=
  if h : lo < hi then
    have := reading.le_middle lo hi
    have := reading.middle_lt h
    match holds (reading.middle lo hi) with
    | some true => halve reading holds (reading.middle lo hi + 1) hi
    | some false => halve reading holds lo (reading.middle lo hi)
    | none => none
  else some lo
termination_by hi - lo

/-- Asks at 1, 3, 7 and so on, as long as the property holds; it holds at `last`. The answer is the interval
in which the property ends: after the last place where it holds, up to the first where it does not or to the
end. -/
def leap (holds : Nat → Option Bool) (size last : Nat) : Option (Nat × Nat) :=
  if _h : 2 * last + 1 < size then
    match holds (2 * last + 1) with
    | some true => leap holds size (2 * last + 1)
    | some false => some (last + 1, 2 * last + 1)
    | none => none
  else some (last + 1, size)
termination_by size - last

/-- Whether the item at a place holds the property; past the end nothing does. -/
def holdsAt (holds : α → Option Bool) (xs : List α) (i : Nat) : Option Bool :=
  match xs[i]? with
  | some x => holds x
  | none => some false

/-- How many items at the front hold the property. -/
def gallop (reading : Reading) (holds : α → Option Bool) (xs : List α) : Option Nat :=
  match holdsAt holds xs 0 with
  | some true => do
    let (lo, hi) ← leap (holdsAt holds xs) xs.length 0
    halve reading (holdsAt holds xs) lo hi
  | some false => some 0
  | none => none

end Petri.Sorting
