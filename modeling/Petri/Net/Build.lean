import Petri.Arc
import Petri.Log
import Petri.Net.Basic
import Petri.Net.Capacity

/-!
# Building nets

A net is built from declared places and transitions, arcs, and capacities. The checks are made in stages,
and the first fault is the outcome: the domains, arcs that repeat another, arcs between undeclared names
(preconditions first, transition by transition), labels that are no words, capacities.
-/

namespace Petri.Net

/-- Refuses arcs whose ends cannot be identifiers or that are parallel to an earlier one; `seen` holds the
earlier ones. -/
def checkArcs (seen : List Arc) : List Arc → Except Fault Unit
  | [] => .ok ()
  | a :: rest =>
    if !a.hashable then .error (.value .unhashable)
    else if seen.any a.parallel then (Fault.duplicateArc a.direction a.place a.transition).raise
    else checkArcs (a :: seen) rest

/-- The arcs by transition, in the order in which the transitions first come. -/
def groupByTransition (arcs : List Arc) : Table Datum (List Arc) :=
  arcs.foldl (fun t a => t.upsert a.transition [a] (· ++ [a])) ⟨[]⟩

/-- The first undeclared name in arcs of direction `d`, which are looked at transition by transition. -/
def undeclared? (places transitions : List Datum) (d : Direction) (arcs : List Arc) : Option Fault :=
  (groupByTransition (arcs.filter (·.direction == d))).entries.findSome? fun (t, group) =>
    if !transitions.any (· == t) then some (.undeclaredArcTransition d t)
    else (group.find? fun a => !places.any (· == a.place)).map fun a => .undeclaredArcPlace d a.place

/-- Refuses arcs that name what is not declared. -/
def checkDeclared (places transitions : List Datum) (arcs : List Arc) : Except Fault Unit :=
  match undeclared? places transitions .pre arcs <|> undeclared? places transitions .post arcs with
  | some fault => fault.raise
  | none => .ok ()

/-- Refuses labels that are no words. -/
def checkLabels (arcs : List Arc) : Except Fault Unit :=
  if arcs.all fun a => Datum.fitsWord a.label then .ok () else .error (.value .tooLarge)

/-- The weights that the arcs of one transition in one direction give to the places. -/
def weightVector (places : List Datum) (arcs : List Arc) : Vector Int64 places.length :=
  Vector.ofFn fun p =>
    match arcs.find? (·.place == places.get p) with
    | some a => Int64.ofNat a.label
    | none => 0

/-- The weights that the arcs give to `transition`. -/
def weightsOf (places : List Datum) (arcs : List Arc) (transition : Datum) : Weights places.length :=
  let own := arcs.filter (·.transition == transition)
  { pre := weightVector places (own.filter (·.direction == .pre))
    post := weightVector places (own.filter (·.direction == .post)) }

/-- Refuses domains that share identifiers. -/
def checkDisjoint (places transitions : List Datum) : Except Fault Unit := do
  let shared ← Domain.shared places transitions
  if shared.isEmpty then return else (Fault.sharedIdentifiers shared).raise

/-- The net over two domains that has the arcs and the capacities described. -/
def assemble (places transitions : List Datum) (arcs : List Arc)
    (capacity defaultCapacity : Datum) : Except Fault Net := do
  checkDisjoint places transitions
  checkArcs [] arcs
  checkDeclared places transitions arcs
  checkLabels arcs
  let capacity ← Capacity.resolve places capacity defaultCapacity
  return {
    places
    transitions
    capacity
    weights := Vector.ofFn fun t => weightsOf places arcs (transitions.get t) }

/-- The record of a net that was built. -/
def buildRecord (arcs : List Arc) (capacity : Datum) (net : Net) : LogRecord :=
  { source := .construction
    text := some <| "Built PetriNet: " ++ toString net.places.length ++ " places, "
      ++ toString net.transitions.length ++ " transitions, " ++ toString arcs.length
      ++ " arcs, capacity=" ++ if capacity.truthy then "explicit" else "default" }

/-- Builds a net. -/
def build (places transitions : Datum) (arcs : List Arc) (capacity defaultCapacity : Datum) :
    Logged Net :=
  let result := do
    let places ← Domain.normalize places "place"
    let transitions ← Domain.normalize transitions "transition"
    assemble places transitions arcs capacity defaultCapacity
  .ofResult result (buildRecord arcs capacity)

/-- The arcs before the first value that is none. -/
def leadingArcs : List Datum → List Arc
  | [] => []
  | x :: xs =>
    match Arc.ofDatum? x with
    | some a => a :: leadingArcs xs
    | none => []

/-- Builds a net from values that stand for arcs. If one of them is no arc, the domains and the arcs before
it are looked at first. -/
def buildFrom (places transitions : Datum) (arcs : List Datum) (capacity defaultCapacity : Datum) :
    Logged Net :=
  match arcs.mapM Arc.ofDatum? with
  | some arcs => build places transitions arcs capacity defaultCapacity
  | none =>
    let result := do
      let places ← Domain.normalize places "place"
      let transitions ← Domain.normalize transitions "transition"
      checkDisjoint places transitions
      checkArcs [] (leadingArcs arcs)
      throw (.value .notArc)
    ⟨result, []⟩

end Petri.Net
