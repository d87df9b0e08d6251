import Petri.Datum.Number
import Petri.Grid

/-!
# Nested sequences as grids of words

Lists and tuples are sequences of their items, a marking is the sequence of its places, a graph that of its
nodes, and every other value is a single number or none. Sequences of equally shaped items form a grid.
-/

namespace Petri.Datum

/-- Whether the value is a sequence. -/
def isSequence : Datum → Bool
  | list _ | tuple _ | marking _ | graph .. => true
  | _ => false

/-- The shape of a sequence whose items have the given shapes, if these are all the same one. -/
def shapeOfItems (shapes : List (Option (List Nat))) : Option (List Nat) :=
  match shapes with
  | [] => some [0]
  | s :: rest => if rest.all (· == s) then s.map ((rest.length + 1) :: ·) else none

mutual

/-- The shape of the grid that a value forms, if it forms one. -/
def shape? : Datum → Option (List Nat)
  | list xs | tuple xs => shapeOfItems (shapes xs)
  | marking es | graph _ _ es => shapeOfItems (keyShapes es)
  | _ => some []

/-- The shapes of the items. -/
def shapes : List Datum → List (Option (List Nat))
  | [] => []
  | x :: xs => x.shape? :: shapes xs

/-- The shapes of the keys. -/
def keyShapes : List (Datum × Datum) → List (Option (List Nat))
  | [] => []
  | (k, _) :: es => k.shape? :: keyShapes es

end

mutual

/-- What is found in a nested sequence at its innermost, in order. -/
def leaves : Datum → List Datum
  | list xs | tuple xs => allLeaves xs
  | marking es | graph _ _ es => keyLeaves es
  | x => [x]

/-- The leaves of all items. -/
def allLeaves : List Datum → List Datum
  | [] => []
  | x :: xs => x.leaves ++ allLeaves xs

/-- The leaves of all keys. -/
def keyLeaves : List (Datum × Datum) → List Datum
  | [] => []
  | (k, _) :: es => k.leaves ++ keyLeaves es

end

/-- The grid of words that a value forms. Its shape is looked at before its leaves. -/
def toGrid (x : Datum) : Except Fault (Grid Int64) := do
  match x.shape? with
  | none => throw .ragged
  | some shape =>
    if Grid.mostAxes < shape.length then throw .ragged
    let words ← x.leaves.mapM toWord
    return .ofEntries shape words.toArray 0

/-- Lists within lists with the numbers of a grid. -/
def nest (entry : List Nat → Int64) : List Nat → Datum
  | [] => int (entry []).toInt
  | d :: ds => list ((List.range d).map fun i => nest (fun index => entry (i :: index)) ds)

/-- The grid as lists within lists. -/
def ofGrid (g : Grid Int64) : Datum :=
  nest g.entry g.shape

end Petri.Datum
