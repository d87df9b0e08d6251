import Petri.Direction

/-!
# Values

Identifiers, token counts, attributes and descriptions of nets are values of one dynamic type. It has
scalars, texts and collections: lists and tuples keep positions, dictionaries pair keys with values in
insertion order, sets hold no two equal members, a stream can be gone through once only, and a marking
pairs places with counts and may name a place repeatedly. Arcs, nets and graphs are values too. An arc is
known by its parts; a net, a graph, a stream or a not-a-number is known by a number that it alone has.
-/

namespace Petri

/-- A value. -/
inductive Datum where
  | null
  | bool (b : Bool)
  | int (n : Int)
  /-- A floating-point number. The second number is that of a not-a-number and says nothing otherwise. -/
  | float (x : Float) (number : Nat)
  | str (s : String)
  | list (items : List Datum)
  | tuple (items : List Datum)
  | dict (entries : List (Datum × Datum))
  | set (items : List Datum)
  | frozenset (items : List Datum)
  | stream (number : Nat) (items : List Datum)
  | marking (entries : List (Datum × Datum))
  | arc (direction : Direction) (place transition : Datum) (label : Nat)
  /-- A thing that shows nothing but a text, if the text can be written. -/
  | entity (number : Nat) (text : Option String)
  /-- A graph, which shows its nodes and, under every node, what leads on from it. -/
  | graph (number : Nat) (text : String) (nodes : List (Datum × Datum))
  deriving Inhabited

namespace Datum

/-- Null, false, zero and everything empty count as absent. A stream never does, for its length is not
known, nor does what has no length. -/
def truthy : Datum → Bool
  | null => false
  | bool b => b
  | int n => n ≠ 0
  | float x _ => !(x == 0.0)
  | str s => !s.isEmpty
  | list xs | tuple xs | set xs | frozenset xs => !xs.isEmpty
  | dict es | marking es | graph _ _ es => !es.isEmpty
  | stream .. | arc .. | entity .. => true

mutual

/-- Whether the value can be an identifier, a key or a member of a set: it must not hold anything that
can change, as lists, dictionaries and sets can. -/
def hashable : Datum → Bool
  | list _ | dict _ | set _ => false
  | tuple xs => allHashable xs
  | marking es => entriesHashable es
  | arc _ p t _ => p.hashable && t.hashable
  | _ => true

/-- `hashable` of every item. -/
def allHashable : List Datum → Bool
  | [] => true
  | x :: xs => x.hashable && allHashable xs

/-- `hashable` of every key and value. -/
def entriesHashable : List (Datum × Datum) → Bool
  | [] => true
  | (k, v) :: es => k.hashable && v.hashable && entriesHashable es

end

/-- A whole number; truth values are none. -/
def asInt? : Datum → Option Int
  | int n => some n
  | _ => none

/-- The single characters of a text, as texts. -/
def characters (s : String) : List Datum :=
  s.toList.map fun c => str c.toString

end Datum

end Petri
