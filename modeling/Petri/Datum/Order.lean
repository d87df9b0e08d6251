import Petri.Datum.Meaning

/-!
# The order of values

Some values can be ordered: numbers among themselves, texts by code point, lists, tuples and markings
by their first unequal parts, sets by proper inclusion. Not-a-number is neither below nor above any
number. Whatever else is compared has no order, which is `none`.
-/

namespace Petri

namespace Meaning

mutual

/-- Whether `a` is below `b`, if they can be ordered. -/
def lt? : Meaning → Meaning → Option Bool
  | number x, number y => some (x < y)
  | number _, infinity negative => some !negative
  | infinity negative, number _ => some negative
  | infinity m, infinity n => some (m && !n)
  | nan _, nan _ | nan _, number _ | nan _, infinity _ | number _, nan _ | infinity _, nan _ => some false
  | text s, text t => some (s < t)
  | group .tuple xs, group .tuple ys => allLt? xs ys
  | group .list xs, group .list ys => allLt? xs ys
  | group .marking xs, group .marking ys => allLt? xs ys
  | group .set xs, group .set ys =>
    some (xs.all (fun x => ys.any (x == ·)) && xs.length < ys.length)
  | _, _ => none

/-- The first unequal parts decide; a list is above its proper initial parts. -/
def allLt? : List Meaning → List Meaning → Option Bool
  | _, [] => some false
  | [], _ :: _ => some true
  | x :: xs, y :: ys => if x == y then allLt? xs ys else x.lt? y

end

end Meaning

/-- Whether `a` is below `b`, if they can be ordered. -/
def Datum.lt? (a b : Datum) : Option Bool :=
  a.meaning.lt? b.meaning

/-- Whether `a` is below or the same as `b`, if they can be ordered. -/
def Datum.le? (a b : Datum) : Option Bool :=
  (a.lt? b).map (· || a.equals b)

end Petri
