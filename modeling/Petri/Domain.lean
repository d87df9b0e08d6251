import Petri.Datum.Access
import Petri.Datum.Collection
import Petri.Fault

/-!
# Declared domains

The places and the transitions of a net are declared as collections of identifiers. A domain is the
sequence of them in index order: ordered collections keep their order, sets and streams are put in order
of their labels.
-/

namespace Petri.Domain

/-- Refuses identifiers that are the same as an earlier one and what cannot be an identifier; `seen` holds the
earlier ones. -/
def checkDistinct (kind : String) (seen : List Datum) : List Datum → Except Fault Unit
  | [] => .ok ()
  | x :: xs => do
    x.requireSearchable
    if seen.any (· == x) then (Fault.repeatedIdentifier kind x).raise
    x.requireHashable
    checkDistinct kind (x :: seen) xs

/-- The declared identifiers in index order, before repetitions are looked for. -/
def sequence (declared : Datum) : Except Datum.Fault (List Datum) :=
  match declared with
  | .set xs | .frozenset xs | .stream _ xs => Datum.sortByLabel xs
  | x => x.items

/-- The declared identifiers in index order; `kind` says what they are in the message about a repeated
one. -/
def normalize (declared : Datum) (kind : String) : Except Fault (List Datum) := do
  let xs ← sequence declared
  checkDistinct kind [] xs
  return xs

/-- The index of every identifier. Of a repeated one the last index counts. -/
def indexTable (domain : List Datum) : Except Datum.Fault (Table Datum Nat) :=
  if Datum.allHashable domain then .ok (.ofList domain.zipIdx) else .error .unhashable

/-- The identifiers that two domains share, in order of their labels. Of two spellings that of the
shorter domain counts, of the second one if both are equally long. -/
def shared (first second : List Datum) : Except Datum.Fault (List Datum) :=
  let (few, many) := if first.length < second.length then (first, second) else (second, first)
  Datum.sortByLabel (few.filter fun x => many.any (· == x))

end Petri.Domain
