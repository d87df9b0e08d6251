import Petri.Datum.Access
import Petri.Datum.Code
import Petri.SlotTable

/-!
# The order in which sets list their members

A set lists its members as a slot table does into which they were put with their codes. If a member has no
code, they stay in the order in which they were put in. Merging and copying sets goes by their tables too.
-/

namespace Petri.Datum

/-- The slot table into which the items are put one after another. -/
def slots? (items : List Datum) : Option (SlotTable Datum) :=
  items.foldlM (fun t x => x.meaning.code?.map (t.insert · x)) {}

/-- How a set lists the items that are put into it one after another. -/
def listing (items : List Datum) : List Datum :=
  match slots? items with
  | some t => t.toList
  | none => items.eraseDups

/-- How a set lists the members of other sets that are merged into it one after another. Each of these is
given by the items that were put into it. -/
def mergedListing (sets : List (List Datum)) : List Datum :=
  match sets.mapM slots? with
  | some tables => (tables.foldl SlotTable.merge {}).toList
  | none => sets.flatten.eraseDups

/-- How a copy of a set lists the members of the set. While the least table does not get crowded with them,
they keep their slots. -/
def copyListing (members : List Datum) : List Datum :=
  if SlotTable.crowded 8 members.length then mergedListing [members] else members

end Petri.Datum
