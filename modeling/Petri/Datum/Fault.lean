import Petri.Datum.Basic

/-!
# What can go wrong with values
-/

namespace Petri.Datum

/-- Why a value cannot be used as it is meant to be. -/
inductive Fault where
  /-- An identifier, key or member that can change. -/
  | unhashable
  /-- Items are asked of a value that has none. -/
  | notIterable
  /-- Membership is asked of a value that has no members of that kind. -/
  | notContainer
  /-- A value is asked for what stands under a key, and has no keys. -/
  | notMapping
  /-- Entries are asked of a value that has none. -/
  | noEntries
  /-- Nothing stands under the key. -/
  | absentKey (key : Datum)
  /-- A list has no such position. -/
  | outOfRange
  /-- A value that is no number is used as one. -/
  | notNumber
  /-- A value that is no arc is used as one. -/
  | notArc
  /-- A text that is no numeral is read as a number. -/
  | notNumeral
  /-- A number is written that is too long to have a numeral. -/
  | noNumeral
  /-- Not-a-number has no whole part. -/
  | undefinedNumber
  /-- A number is beyond every limit of the numbers it is meant for. -/
  | tooLarge
  /-- Values that have no order are compared. -/
  | unordered
  /-- Two values are wanted and another number of them is given. -/
  | notPair
  /-- The items of a nested sequence are not equally shaped, or it is nested too deeply. -/
  | ragged
  /-- A grid that has as many axes as there may be is given a further one. -/
  | tooManyAxes
  /-- Grids cannot be combined, for they differ along an axis. -/
  | unlikeShapes
  /-- One truth value is wanted and another number of them is given. -/
  | undecided
  deriving Inhabited

end Petri.Datum
