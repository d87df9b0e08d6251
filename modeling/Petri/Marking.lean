import Petri.Datum.Access
import Petri.Datum.Nested
import Petri.Fault
import Petri.Table

/-!
# Markings

A marking gives every place a count. It is the sequence of its places with their counts, in the order of
the places of a net; built by hand it may hold any values as counts and may name a place repeatedly, and
then the last entry counts.
-/

namespace Petri

/-- Places with their counts. -/
structure Marking where
  entries : List (Datum × Datum)

namespace Marking

/-- The places, in order. -/
def places (m : Marking) : List Datum :=
  m.entries.map (·.1)

/-- The counts, in order of the places. -/
def counts (m : Marking) : List Datum :=
  m.entries.map (·.2)

/-- The marking as a value. -/
def toDatum (m : Marking) : Datum :=
  .marking m.entries

/-- The marking that a value is. -/
def ofDatum? : Datum → Option Marking
  | .marking es => some ⟨es⟩
  | _ => none

instance : BEq Marking := ⟨fun a b => a.toDatum == b.toDatum⟩

/-- Pairs counts with places, which must be equally many. -/
def ofCounts (places counts : List Datum) : Except Fault Marking :=
  if counts.length = places.length then .ok ⟨places.zip counts⟩
  else .error (.countMismatch counts.length places.length)

/-- The marking with the given counts and places, both as they are. Places must be able to be keys. -/
def make (places counts : List Datum) : Except Fault Marking := do
  let m ← ofCounts places counts
  if Datum.allHashable places then return m else throw (.value .unhashable)

/-- The marking of words over `places`. -/
def ofWords (places : List Datum) (words : Vector Int64 places.length) : Marking :=
  ⟨places.zip (words.toList.map fun w => .int w.toInt)⟩

/-- The count of `place`, if it has one. -/
def lookup? (m : Marking) (place : Datum) : Option Datum :=
  Datum.lastValue? m.entries place

/-- The count of `place`. -/
def countAt (m : Marking) (place : Datum) : Except Datum.Fault Datum :=
  m.toDatum.valueAt place

/-- The count of `place`, or `default` if it has none. -/
def getD (m : Marking) (place default : Datum) : Except Datum.Fault Datum :=
  m.toDatum.valueOr place default

/-- Whether `place` has a count. -/
def contains (m : Marking) (place : Datum) : Except Datum.Fault Bool := do
  return (← m.toDatum.contains place).1

/-- The counts by place, each place once. -/
def toTable (m : Marking) : Table Datum Datum :=
  .ofList m.entries

/-- The number of tokens. -/
def total (m : Marking) : Except Datum.Fault Datum :=
  Datum.sum m.counts

/-- The counts as words. -/
def toWords (m : Marking) : Except Datum.Fault (List Int64) :=
  m.counts.mapM Datum.toWord

/-- The counts as a grid of words. -/
def toGrid (m : Marking) : Except Datum.Fault (Grid Int64) :=
  (Datum.tuple m.counts).toGrid

/-- The counts as a vector of words over `n` places, of which a marking of them has one each. -/
def wordVector (m : Marking) (n : Nat) : Except Datum.Fault (Vector Int64 n) := do
  let words ← m.toWords
  return Vector.ofFn fun p : Fin n => words.getD p 0

end Marking

/-- What the engines make of a marking over `n` places: a word for every place or, where the counts are
sequences, a grid with further axes. -/
inductive Words (n : Nat) where
  | flat (words : Vector Int64 n)
  | nested (words : Grid Int64)

/-- The counts as words over `n` places. -/
def Marking.wordsOver (m : Marking) (n : Nat) : Except Datum.Fault (Words n) := do
  if m.counts.any (·.isSequence) then return .nested (← m.toGrid)
  else return .flat (← m.wordVector n)

end Petri
