import Petri.Datum.Access
import Petri.Fault

/-!
# Arcs

An arc joins a place and a transition in one direction and carries a positive whole number, the tokens
that it moves.
-/

namespace Petri

/-- A weighted arc. -/
structure Arc where
  place : Datum
  transition : Datum
  label : Nat
  direction : Direction
  label_pos : 0 < label

namespace Arc

/-- The arc in a known direction, if `label` is a positive whole number. -/
def make (direction : Direction) (place transition label : Datum) : Except Fault Arc :=
  match label with
  | .int (.ofNat (n + 1)) => .ok ⟨place, transition, n + 1, direction, n.succ_pos⟩
  | _ => (Fault.badLabel label place transition).raise

/-- The arc described by four values. The direction is checked before the label. -/
def ofValues (place transition label direction : Datum) : Except Fault Arc :=
  match direction with
  | .str s =>
    match Direction.ofName? s with
    | some d => make d place transition label
    | none => (Fault.unknownDirection direction).raise
  | _ => (Fault.unknownDirection direction).raise

/-- The arc as a value. -/
def toDatum (a : Arc) : Datum :=
  .arc a.direction a.place a.transition a.label

/-- The arc that a value is. -/
def ofDatum? : Datum → Option Arc
  | .arc d p t label => if h : 0 < label then some ⟨p, t, label, d, h⟩ else none
  | _ => none

/-- Whether two arcs have the same direction and ends. -/
def parallel (a b : Arc) : Bool :=
  a.direction == b.direction && a.transition == b.transition && a.place == b.place

instance : BEq Arc := ⟨fun a b => a.toDatum == b.toDatum⟩

/-- Whether both ends can be identifiers. -/
def hashable (a : Arc) : Bool :=
  a.toDatum.hashable

end Arc

end Petri
