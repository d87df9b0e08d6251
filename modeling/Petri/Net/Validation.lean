import Petri.Net.Basic

/-!
# Markings of a net

A mapping from the places of a net to counts within capacity is a marking of the net. Counts that are
computed are taken as they are, and so is a marking over the same places.
-/

namespace Petri.Net

/-- Which of `places` are no members of `x`, and what of `x` is left after all were looked for. -/
def missingFrom (x : Datum) : List Datum → Except Datum.Fault (List Datum × Datum)
  | [] => .ok ([], x)
  | p :: ps => do
    let (found, x) ← x.contains p
    let (missing, x) ← missingFrom x ps
    return (if found then missing else p :: missing, x)

variable (net : Net)

/-- The keys of a mapping that are not places. -/
def extraIn (x : Datum) : Except Datum.Fault (List Datum) := do
  let keys ← x.items
  if Datum.allHashable keys then return keys.filter fun k => !net.places.any (· == k)
  else throw .unhashable

/-- The count of a place in a mapping, a whole number within capacity. -/
def checkedCount (x : Datum) (p : Fin net.places.length) : Except Fault Datum := do
  let place := net.places.get p
  let v ← x.valueAt place
  match v.asInt? with
  | none => (Fault.fractionalCount place v).raise
  | some n =>
    if 0 ≤ n ∧ n ≤ net.capacityAt p then return v
    else (Fault.countOutOfRange n place (net.capacityAt p)).raise

/-- The marking that a mapping from places to counts describes. -/
def marking (mapping : Datum) : Except Fault Marking := do
  let (missing, rest) ← missingFrom mapping net.places
  let extra ← net.extraIn rest
  unless missing.isEmpty && extra.isEmpty do (Fault.markingKeys missing extra).raise
  let counts ← (List.finRange net.places.length).mapM (net.checkedCount rest)
  return ⟨net.places.zip counts⟩

/-- The marking over the places of the net with the given counts, without regard to capacity. -/
def markingOfCounts (counts : Datum) : Except Fault Marking := do
  let values ← (← counts.items).mapM fun c => return Datum.int (← c.toInt)
  Marking.ofCounts net.places values

/-- A marking over the places of the net is taken as it is, any other mapping is checked. -/
def coerce (x : Datum) : Except Fault Marking :=
  match Marking.ofDatum? x with
  | some m => if m.places == net.places then .ok m else (Fault.foreignMarking x net.places).raise
  | none => net.marking x

end Petri.Net
