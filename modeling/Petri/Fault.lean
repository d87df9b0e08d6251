import Petri.Datum.Fault
import Petri.Datum.Render
import Petri.Direction

/-!
# What can go wrong

A `Fault` is a cause. Its class places it in the hierarchy of the library's errors, and `message?` words
it. Faults of values that are not about nets have neither. An operation that ends with a fault words it
(`raise`), which can itself fail.
-/

namespace Petri

/-- The classes of the library's errors. -/
inductive FaultClass where
  | petriNet
  | construction
  | marking
  | invalidArc
  | domain
  | duplicateArc
  | undeclaredEntity
  | capacityMismatch
  deriving DecidableEq, Repr

namespace FaultClass

/-- All classes. -/
def all : List FaultClass :=
  [petriNet, construction, marking, invalidArc, domain, duplicateArc, undeclaredEntity,
   capacityMismatch]

/-- The name of the class. -/
def name : FaultClass → String
  | petriNet => "PetriNetError"
  | construction => "ConstructionError"
  | marking => "MarkingError"
  | invalidArc => "InvalidArcError"
  | domain => "DomainError"
  | duplicateArc => "DuplicateArcError"
  | undeclaredEntity => "UndeclaredEntityError"
  | capacityMismatch => "CapacityMismatchError"

/-- The class and those that contain it, the narrowest first. -/
def lineage : FaultClass → List FaultClass
  | petriNet => [petriNet]
  | construction => [construction, petriNet]
  | marking => [marking, petriNet]
  | c => [c, construction, petriNet]

end FaultClass

/-- Why an operation fails. -/
inductive Fault where
  | value (cause : Datum.Fault)
  /-- An arc leads in no known direction. -/
  | unknownDirection (direction : Datum)
  /-- The label of an arc is not a positive whole number. -/
  | badLabel (label place transition : Datum)
  /-- An identifier is declared twice among the places or among the transitions. -/
  | repeatedIdentifier (kind : String) (identifier : Datum)
  /-- Identifiers are declared both as places and as transitions. -/
  | sharedIdentifiers (identifiers : List Datum)
  /-- Two arcs of one direction join the same place and transition. -/
  | duplicateArc (direction : Direction) (place transition : Datum)
  /-- An arc names a transition that is not declared. -/
  | undeclaredArcTransition (direction : Direction) (transition : Datum)
  /-- An arc names a place that is not declared. -/
  | undeclaredArcPlace (direction : Direction) (place : Datum)
  | undeclaredPlace (place : Datum)
  | undeclaredTransition (transition : Datum)
  /-- The capacities name other places than the net has. -/
  | capacityKeys (missing extra : List Datum)
  /-- A capacity is not a whole number from zero. -/
  | badCapacity (place capacity : Datum)
  /-- There are not as many counts as places. -/
  | countMismatch (counts places : Nat)
  /-- A marking names other places than the net has. -/
  | markingKeys (missing extra : List Datum)
  /-- A token count is not a whole number. -/
  | fractionalCount (place count : Datum)
  /-- A token count is negative or above capacity. -/
  | countOutOfRange (count : Int) (place : Datum) (capacity : Int)
  /-- A marking has the places of another net. -/
  | foreignMarking (marking : Datum) (places : List Datum)
  /-- A node of a graph is neither a place nor a transition. -/
  | unclassifiedNode (node : Datum)
  /-- An edge of a graph joins two places or two transitions. -/
  | misjoinedEdge (source target : Datum)

namespace Fault

/-- The class of the fault, if it is one of the library's own. -/
def class? : Fault → Option FaultClass
  | value _ => none
  | unknownDirection _ | badLabel .. => some .invalidArc
  | repeatedIdentifier .. | sharedIdentifiers _ | unclassifiedNode _ | misjoinedEdge .. =>
    some .domain
  | duplicateArc .. => some .duplicateArc
  | undeclaredArcTransition .. | undeclaredArcPlace .. | undeclaredPlace _
  | undeclaredTransition _ => some .undeclaredEntity
  | capacityKeys .. | badCapacity .. => some .capacityMismatch
  | countMismatch .. | markingKeys .. | fractionalCount .. | countOutOfRange ..
  | foreignMarking .. => some .marking

/-- The two lists of names that do not match. -/
def mismatch? (missing extra : List Datum) : Option String := do
  return "(missing=" ++ (← Datum.renderList? missing) ++ ", extra=" ++ (← Datum.renderList? extra) ++ ")"

/-- The wording of the fault, if it is one of the library's own and every number in it has a numeral. -/
def message? : Fault → Option String
  | value _ => none
  | unknownDirection d => do return "Unknown arc direction " ++ (← d.render?)
  | badLabel l p t => do
    return "Arc label must be a positive integer, got " ++ (← l.render?) ++ " (" ++ (← p.render?) ++ ", "
      ++ (← t.render?) ++ ")"
  | repeatedIdentifier kind x => do return "Duplicate " ++ kind ++ " identifier " ++ (← x.render?)
  | sharedIdentifiers xs => do
    return "Identifiers declared both as place and transition: " ++ (← Datum.renderList? xs)
  | duplicateArc d p t => do
    return "Duplicate " ++ d.name ++ " arc between " ++ (← p.render?) ++ " and " ++ (← t.render?)
  | undeclaredArcTransition d t => do
    return "Transition " ++ (← t.render?) ++ " of the " ++ d.matrixName ++ " matrix is not declared"
  | undeclaredArcPlace d p => do
    return "Place " ++ (← p.render?) ++ " of the " ++ d.matrixName ++ " matrix is not declared"
  | undeclaredPlace p => do return "Place " ++ (← p.render?) ++ " is not declared"
  | undeclaredTransition t => do return "Transition " ++ (← t.render?) ++ " is not declared"
  | capacityKeys missing extra => do
    return "Capacity keys do not match the places " ++ (← mismatch? missing extra)
  | badCapacity p c => do
    return "Capacity of " ++ (← p.render?) ++ " must be a non-negative integer, got " ++ (← c.render?)
  | countMismatch counts places =>
    some ("Marking has " ++ toString counts ++ " counts for " ++ toString places ++ " places")
  | markingKeys missing extra => do
    return "Marking places do not match the net " ++ (← mismatch? missing extra)
  | fractionalCount p v => do
    return "Token count for " ++ (← p.render?) ++ " must be an integer, got " ++ (← v.render?)
  | countOutOfRange v p c => do
    return "Token count " ++ (← Text.numeral? v) ++ " for " ++ (← p.render?) ++ " outside [0, "
      ++ (← Text.numeral? c) ++ "]"
  | foreignMarking m places => do
    return (← m.render?) ++ " does not belong to this net's places " ++ (← (Datum.tuple places).render?)
  | unclassifiedNode n => do
    return "Cannot tell whether node " ++ (← n.render?) ++ " is a place or a transition"
  | misjoinedEdge u v => do
    return "Edge " ++ (← u.render?) ++ " -> " ++ (← v.render?) ++ " does not join a place and a transition"

/-- The operation ends with the fault. One of the library's own is worded at once, and if a number in it has no
numeral, then that is the fault. -/
def raise {α : Type} (fault : Fault) : Except Fault α :=
  match fault with
  | value cause => .error (.value cause)
  | fault =>
    match fault.message? with
    | some _ => .error fault
    | none => .error (.value .noNumeral)

theorem raise_ne_ok {α : Type} (fault : Fault) (a : α) : fault.raise ≠ .ok a := by
  unfold raise
  split
  · simp
  · split <;> simp

end Fault

/-- What fails for a value fails the operation on nets that uses it. -/
instance : MonadLift (Except Datum.Fault) (Except Fault) where
  monadLift r := r.mapError .value

end Petri
