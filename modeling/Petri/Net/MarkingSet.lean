import Petri.Datum.Listing
import Petri.Net.Backward

/-!
# Sets of markings as values

The markings that one step leads to are put into a set in the order of the transitions. Reverting several
markings makes such a set for each and merges one after another into the result. This shows in the order in
which the sets list their members.
-/

namespace Petri

/-- The set into which the markings are put one after another. -/
def Marking.setOf (markings : List Marking) : Datum :=
  .set (Datum.listing (markings.map Marking.toDatum))

/-- The set of the predecessors of the given markings under all transitions. -/
def Net.predecessorSet (net : Net) (markings : List Datum) : Except Fault Datum := do
  let sets ← markings.mapM net.revertAll
  return .set (Datum.mergedListing (sets.map (·.map Marking.toDatum)))

end Petri
