import Petri.Datum.Meaning
import Petri.Datum.Fault

/-!
# Items, members and entries of values

Dictionaries and markings are the mappings: their members are their keys, and what stands under a key is
found by the key, of a repeated one the last. A graph is like a mapping of its nodes, but has no entries.
Other collections have members too, and texts, lists and tuples have positions.
-/

namespace Petri.Datum

/-- Refuses what cannot be a key. -/
def requireHashable (x : Datum) : Except Fault Unit :=
  if x.hashable then .ok () else .error .unhashable

/-- The items of a collection: characters of a text, keys of a mapping. -/
def items : Datum → Except Fault (List Datum)
  | str s => .ok (characters s)
  | list xs | tuple xs | set xs | frozenset xs | stream _ xs => .ok xs
  | dict es | marking es | graph _ _ es => .ok (es.map (·.1))
  | null | bool _ | int _ | float .. | arc .. | entity .. => .error .notIterable

/-- The items of a collection without those that are the same as an earlier one. -/
def members (x : Datum) : Except Fault (List Datum) := do
  let xs ← x.items
  if allHashable xs then .ok xs.eraseDups else .error .unhashable

/-- Refuses what cannot be looked for in a set. A set that can change can be looked for, as the members that
it has. -/
def requireSearchable : Datum → Except Fault Unit
  | set _ => .ok ()
  | x => x.requireHashable

/-- Whether the characters `part` stand together somewhere in `text`. -/
def occursIn (part : List Char) : List Char → Bool
  | [] => part.isEmpty
  | c :: rest => part.isPrefixOf (c :: rest) || occursIn part rest

/-- Whether `key` is a member of `x`, and what of `x` is left to be asked: looking for a member of a
stream uses the stream up to it. -/
def contains (x key : Datum) : Except Fault (Bool × Datum) :=
  match x with
  | dict es | marking es => do
    key.requireHashable
    return (es.any (·.1 == key), x)
  | graph _ _ es => .ok (key.hashable && es.any (·.1 == key), x)
  | set xs | frozenset xs => do
    key.requireSearchable
    return (xs.any (· == key), x)
  | list xs | tuple xs => .ok (xs.any (· == key), x)
  | stream number xs =>
    match xs.dropWhile (!· == key) with
    | [] => .ok (false, stream number [])
    | _ :: rest => .ok (true, stream number rest)
  | str s =>
    match key with
    | str part => .ok (occursIn part.toList s.toList, x)
    | _ => .error .notContainer
  | null | bool _ | int _ | float .. | arc .. | entity .. => .error .notContainer

/-- The value of the last entry whose key is `key`. -/
def lastValue? (entries : List (Datum × Datum)) (key : Datum) : Option Datum :=
  (entries.findRev? fun e => e.1 == key).map (·.2)

/-- The item at a position, from the end for a negative one. -/
def itemAt (xs : List Datum) (position : Int) : Except Fault Datum :=
  let i := if position < 0 then position + xs.length else position
  if i < 0 then .error .outOfRange
  else
    match xs[i.toNat]? with
    | some x => .ok x
    | none => .error .outOfRange

/-- The item that `key` is the position of. -/
def itemUnder (xs : List Datum) (key : Datum) : Except Fault Datum :=
  match key with
  | int i => itemAt xs i
  | bool b => itemAt xs (if b then 1 else 0)
  | _ => .error .notMapping

/-- What stands under `key` in `x`. -/
def valueAt (x key : Datum) : Except Fault Datum :=
  match x with
  | dict es | marking es | graph _ _ es => do
    key.requireHashable
    match lastValue? es key with
    | some v => return v
    | none => throw (.absentKey key)
  | list xs | tuple xs => itemUnder xs key
  | str s => itemUnder (characters s) key
  | _ => .error .notMapping

/-- What stands under `key` in a mapping, or `default` if nothing does. -/
def valueOr (x key default : Datum) : Except Fault Datum :=
  match x with
  | dict es | marking es => do
    key.requireHashable
    return (lastValue? es key).getD default
  | _ => .error .noEntries

/-- The entries of a mapping. -/
def entries : Datum → Except Fault (List (Datum × Datum))
  | dict es | marking es => .ok es
  | _ => .error .noEntries

end Petri.Datum
