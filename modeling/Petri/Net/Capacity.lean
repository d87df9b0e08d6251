import Petri.Datum.Access
import Petri.Datum.Collection
import Petri.Datum.Number
import Petri.Fault

/-!
# Capacities

The capacity of a net is described by a mapping with exactly its places as keys, or by one default for all
places where the mapping is absent.
-/

namespace Petri.Capacity

/-- The capacity that every place has by default. -/
def standard : Int := 20

/-- The same word for every place. The default must be a word even if there is no place. -/
def uniform (n : Nat) (default : Datum) : Except Fault (Vector Int64 n) := do
  let word ← default.toWord
  return Vector.replicate n word

/-- Refuses a description whose keys are not the places. -/
def checkKeys (places : List Datum) (described : Datum) : Except Fault Unit := do
  let keys ← described.members
  let missing := places.filter fun p => !keys.any (· == p)
  let extra := keys.filter fun k => !places.any (· == k)
  if missing.isEmpty && extra.isEmpty then return
  (Fault.capacityKeys (← Datum.sortByLabel missing) (← Datum.sortByLabel extra)).raise

/-- The described capacity of one place, a whole number from zero. -/
def valueFor (described place : Datum) : Except Fault Int := do
  let c ← described.valueAt place
  match c.asInt? with
  | some n => if 0 ≤ n then return n else (Fault.badCapacity place c).raise
  | none => (Fault.badCapacity place c).raise

/-- The described capacities of all places. All of them are looked at before any is stored as a word. -/
def explicit (places : List Datum) (described : Datum) : Except Fault (Vector Int64 places.length) := do
  checkKeys places described
  let values ← places.mapM (valueFor described)
  let words : List Int64 ← liftM (values.mapM Datum.wordOfInt : Except Datum.Fault _)
  return Vector.ofFn fun p => words.getD p 0

/-- The capacities by description or, without one, by default. -/
def resolve (places : List Datum) (described default : Datum) :
    Except Fault (Vector Int64 places.length) :=
  if described.truthy then explicit places described else uniform places.length default

end Petri.Capacity
