import Petri.Binary64
import Petri.Datum.Fault
import Petri.Text.Numeral

/-!
# Values as numbers

Conversion to whole numbers, to the signed 64-bit words of the engines, and summation.
-/

namespace Petri.Datum

/-- The value as a whole number. Floating-point numbers lose what stands after the point, texts are read
as numerals. -/
def toInt : Datum → Except Fault Int
  | bool b => .ok (if b then 1 else 0)
  | int n => .ok n
  | float x _ =>
    match Binary64.ofFloat x with
    | .nan => .error .undefinedNumber
    | .infinite _ => .error .tooLarge
    | .finite negative m q =>
      let n : Int := Binary64.wholePart m q
      .ok (if negative then -n else n)
  | str s =>
    match Text.integer? s with
    | some n => .ok n
    | none => .error .notNumeral
  | _ => .error .notNumber

/-- Whether `n` is a signed 64-bit number. -/
def fitsWord (n : Int) : Bool :=
  Int64.minValue.toInt ≤ n && n ≤ Int64.maxValue.toInt

/-- `n` as a word, if it fits. -/
def wordOfInt (n : Int) : Except Fault Int64 :=
  if fitsWord n then .ok (Int64.ofInt n) else .error .tooLarge

/-- The value as a signed 64-bit word. -/
def toWord (x : Datum) : Except Fault Int64 := do
  wordOfInt (← x.toInt)

/-- `n` as the nearest floating-point number. -/
def floatOfInt (n : Int) : Except Fault Float :=
  let x := Float.ofInt n
  if x.isInf then .error .tooLarge else .ok x

/-- The number of a not-a-number that a sum is. Sums are shown and never compared, so they share it. -/
def sumNumber : Nat := 0

/-- The sum of two values: whole, unless one of them is a floating-point number. -/
def plus : Datum → Datum → Except Fault Datum
  | float x _, float y _ => .ok (float (x + y) sumNumber)
  | float x _, y => do return float (x + (← floatOfInt (← wholeNumber y))) sumNumber
  | x, float y _ => do return float ((← floatOfInt (← wholeNumber x)) + y) sumNumber
  | x, y => do return int ((← wholeNumber x) + (← wholeNumber y))
where
  /-- The number that a summand which is not a floating-point number adds. -/
  wholeNumber : Datum → Except Fault Int
    | bool b => .ok (if b then 1 else 0)
    | int n => .ok n
    | _ => .error .notNumber

/-- The sum of the values, from zero, from left to right. -/
def sum (xs : List Datum) : Except Fault Datum :=
  xs.foldlM plus (int 0)

end Petri.Datum
