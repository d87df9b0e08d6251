import Petri.Domain
import Petri.Marking
import Petri.Weights

/-!
# Nets

A net has places and transitions, each in index order, a capacity for every place and arc weights for
every transition, all of them words. This module holds the type and the questions that can be asked of
it: positions, weights by name, matrices.
-/

namespace Petri

/-- A bounded Petri net. -/
structure Net where
  places : List Datum
  transitions : List Datum
  capacity : Vector Int64 places.length
  weights : Vector (Weights places.length) transitions.length

/-- The weights of one direction. -/
def Weights.inDirection {n : Nat} (w : Weights n) : Direction → Vector Int64 n
  | .pre => w.pre
  | .post => w.post

namespace Net

variable (net : Net)

/-- The position of a declared place. -/
def placeIndex (place : Datum) : Except Fault (Fin net.places.length) := do
  place.requireHashable
  match net.places.findFinIdx? (· == place) with
  | some i => return i
  | none => (Fault.undeclaredPlace place).raise

/-- The position of a declared transition. -/
def transitionIndex (transition : Datum) : Except Fault (Fin net.transitions.length) := do
  transition.requireHashable
  match net.transitions.findFinIdx? (· == transition) with
  | some j => return j
  | none => (Fault.undeclaredTransition transition).raise

/-- The capacity of the place at a position, as a number. -/
def capacityAt (p : Fin net.places.length) : Int :=
  (net.capacity.get p).toInt

/-- The capacities by place. -/
def capacities : List (Datum × Int) :=
  net.places.zip (net.capacity.toList.map Int64.toInt)

/-- For every transition the places with an arc in direction `d` and the weights of these arcs. -/
def arcTable (d : Direction) : List (Datum × List (Datum × Int)) :=
  net.transitions.zip <| net.weights.toList.map fun w =>
    (net.places.zip ((w.inDirection d).toList.map Int64.toInt)).filter fun e => 0 < e.2

/-- A matrix with a row for every place and a column for every transition. -/
def matrix (column : Weights net.places.length → Vector Int64 net.places.length) : List (List Int) :=
  List.ofFn fun p : Fin net.places.length => net.weights.toList.map fun w => ((column w).get p).toInt

/-- The weights of direction `d`. -/
def weightMatrix (d : Direction) : List (List Int) :=
  net.matrix (Weights.inDirection · d)

/-- What every transition changes at every place. -/
def incidenceMatrix : List (List Int) :=
  net.matrix Weights.effect

/-- The size of the net as text. -/
def render : String :=
  "PetriNet(n_places=" ++ toString net.places.length ++ ", n_transitions="
    ++ toString net.transitions.length ++ ")"

/-- The net as a value, which is known by its number. -/
def toDatum (number : Nat) : Datum :=
  .entity number (some net.render)

/-- The marking of words over the places of the net. -/
def markingOfWords (words : Vector Int64 net.places.length) : Marking :=
  .ofWords net.places words

end Net

end Petri
