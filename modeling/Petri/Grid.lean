/-!
# Arrays with any number of axes

A grid has an entry for every index within its shape. Grids of different shapes are combined at a common
shape: their axes are aligned at the last one, and a grid that has only one entry along an axis, or does not
have the axis, repeats there what it has.
-/

namespace Petri

/-- Entries by index. The shape says how far an index goes along each axis. -/
structure Grid (α : Type) where
  shape : List Nat
  entry : List Nat → α

namespace Grid

variable {α : Type}

/-- The most axes that a grid may have. -/
def mostAxes : Nat := 64

/-- The indices within a shape, those along the last axis next to each other. -/
def indices : List Nat → List (List Nat)
  | [] => [[]]
  | d :: ds => (List.range d).flatMap fun i => (indices ds).map (i :: ·)

/-- The entries in order of their indices. -/
def toList (g : Grid α) : List α :=
  (indices g.shape).map g.entry

/-- Where the entry of an index stands in the list of all entries. -/
def position (shape index : List Nat) : Nat :=
  (shape.zip index).foldl (fun n e => n * e.1 + e.2) 0

/-- The grid of a shape with the given entries. -/
def ofEntries (shape : List Nat) (entries : Array α) (default : α) : Grid α :=
  ⟨shape, fun index => entries.getD (position shape index) default⟩

/-- The extent of an axis along which two grids with the given extents are combined. -/
def commonExtent (c d : Nat) : Option Nat :=
  if c = d then some c
  else if c = 1 then some d
  else if d = 1 then some c
  else none

/-- The extents of the axes of two grids combined, each list from the last axis to the first. -/
def commonExtents : List Nat → List Nat → Option (List Nat)
  | [], ds => some ds
  | cs, [] => some cs
  | c :: cs, d :: ds => do return (← commonExtent c d) :: (← commonExtents cs ds)

/-- The shape at which grids of two shapes are combined, if they can be. -/
def commonShape (shape other : List Nat) : Option (List Nat) :=
  (commonExtents shape.reverse other.reverse).map List.reverse

/-- The index within `shape` that an index within a common shape leads to. -/
def clip (shape index : List Nat) : List Nat :=
  ((index.drop (index.length - shape.length)).zip shape).map fun e => if e.2 = 1 then 0 else e.1

/-- The entry at an index within a common shape. -/
def entryAt (g : Grid α) (index : List Nat) : α :=
  g.entry (clip g.shape index)

/-- The grid with a further axis of extent one after the first. -/
def spread (g : Grid α) : Grid α where
  shape := g.shape.take 1 ++ 1 :: g.shape.drop 1
  entry index := g.entry (index.take 1 ++ index.drop 2)

/-- The grid along one axis that a vector is. -/
def ofVector {n : Nat} (v : Vector α n) (default : α) : Grid α :=
  ofEntries [n] v.toArray default

/-- The vectors as columns side by side: the first axis runs along each of them. -/
def ofColumns {n : Nat} (columns : List (Vector α n)) (default : α) : Grid α where
  shape := [n, columns.length]
  entry
    | [i, j] => ((columns[j]?).map fun column => column.toArray.getD i default).getD default
    | _ => default

end Grid

end Petri
