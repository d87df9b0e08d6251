import Petri.Datum.Listing
import Petri.Datum.Order
import Petri.Datum.Render
import Petri.Sorting.Schedule

/-!
# Collections without repetition and in order

A set of values is the list of its members without those that are the same as an earlier one. Collections
are united and subtracted as sets, and put in ascending order if the items that are compared have an order,
or else by their labels.
`Datum/Listing` says how the resulting sets list their members.
-/

namespace Petri.Datum

/-- The slot table of a set that is made from `x`, whose members are given. A set is merged into an empty one,
the members of another collection are put in one after another. -/
def setSlots? (x : Datum) (members : List Datum) : Option (SlotTable Datum) :=
  match x with
  | set _ | frozenset _ => (slots? members).map (SlotTable.merge {} ·)
  | _ => slots? members

/-- The set of the members of either collection. A set made from `b` is merged into a copy of one made from
`a`. -/
def union (a b : Datum) : Except Fault (List Datum) := do
  let xs ← a.members
  let ys ← b.members
  match a.setSlots? xs, b.setSlots? ys with
  | some t, some u => return (SlotTable.merge (.merge {} t) u).toList
  | _, _ => return (xs ++ ys).eraseDups

/-- The set of the members of `a` that are not members of `b`. What stays of a set made from `a` is put into a
new one in the order of its listing. -/
def difference (a b : Datum) : Except Fault (List Datum) := do
  let xs ← a.members
  let ys ← b.members
  let xs := ((a.setSlots? xs).map SlotTable.toList).getD xs
  return listing (xs.filter fun x => !ys.any (· == x))

/-- A copy of a collection that can be copied: a list, a dictionary or a set. -/
def copy? : Datum → Option Datum
  | list xs => some (list xs)
  | dict es => some (dict es)
  | set xs => some (set (copyListing xs))
  | frozenset xs => some (frozenset xs)
  | _ => none

/-- The items in ascending order, items that are not below each other in the given order. -/
def sorted (xs : List Datum) : Except Fault (List Datum) :=
  match Sorting.sort lt? xs with
  | some ys => .ok ys
  | none => .error .unordered

/-- The items in ascending order of their labels, equal labels in the given order. All labels are written
before any two of them are compared. -/
def sortByLabel (xs : List Datum) : Except Fault (List Datum) := do
  let labelled ← xs.mapM fun x => return (← x.label, x)
  match Sorting.sort (fun a b => some (a.1 < b.1)) labelled with
  | some ys => return ys.map (·.2)
  | none => throw .unordered

end Petri.Datum
