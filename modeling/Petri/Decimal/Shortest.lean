import Petri.Binary64

/-!
# The shortest decimal that reads back

A finite floating-point number is the nearest one to every real in an interval around it. Of the
decimals in that interval, the one with the fewest digits is chosen, and of several with equally many
digits the nearest to the number; a tie goes to the even last digit. For a given number of digits only
the two neighbours of the number on the grid of such decimals need testing: if any point of the grid
lies in the interval, one of these two does.
-/

namespace Petri

/-- The number `digits * 10 ^ exponent`. -/
structure Decimal where
  digits : Nat
  exponent : Int
  deriving DecidableEq, Repr

namespace Decimal

/-- How many decimal digits `n` has; zero has none. -/
def digitCount (n : Nat) : Nat :=
  if h : n = 0 then 0 else digitCount (n / 10) + 1
  termination_by n
  decreasing_by omega

/-- A number `m * 2 ^ q` beside a grid of step `10 ^ k`, both as multiples of one common unit. -/
structure Grid where
  /-- The number. -/
  value : Nat
  /-- The step of the grid. -/
  step : Nat
  /-- Twice the distance from the number down to the end of its interval. -/
  below : Nat
  /-- Twice the distance from the number up to the end of its interval. -/
  above : Nat
  /-- Whether the ends belong to the interval, as they do for an even significand. -/
  closed : Bool

namespace Grid

/-- The number `m * 2 ^ q` on the grid of step `10 ^ k`. Its interval reaches half a unit of the last
place to either side, but only a quarter below a power of two with a smaller binade under it. -/
def make (m : Nat) (q k : Int) : Grid :=
  let unit := Nat.pow 10 (-k).toNat <<< (q - 2).toNat
  { value := 4 * m * unit
    step := Nat.pow 10 k.toNat <<< (2 - q).toNat
    below := if m = 1 <<< 52 ∧ q ≠ -1074 then 2 * unit else 4 * unit
    above := 4 * unit
    closed := m % 2 = 0 }

/-- Whether the grid point `c * step` reads back as the number. -/
def holds (g : Grid) (c : Nat) : Bool :=
  let p := 2 * (c * g.step)
  let v := 2 * g.value
  if g.closed then v - g.below ≤ p && p ≤ v + g.above
  else v < p + g.below && p < v + g.above

/-- The grid point that reads back and is nearest to the number, of two equally near the even one. -/
def nearest? (g : Grid) : Option Nat :=
  let c := g.value / g.step
  let toLower := g.value % g.step
  let toUpper := g.step - toLower
  match g.holds c, g.holds (c + 1) with
  | true, true =>
    if toLower < toUpper || (toLower = toUpper && c % 2 = 0) then some c else some (c + 1)
  | true, false => some c
  | false, true => some (c + 1)
  | false, false => none

end Grid

/-- The power of ten of the leading digit of `m * 2 ^ q`. -/
def leadingExponent (m : Nat) (q : Int) : Int :=
  let num := m <<< q.toNat
  let den := 1 <<< (-q).toNat
  if den ≤ num then (digitCount (num / den) : Int) - 1
  else -(digitCount ((den + num - 1) / num - 1) : Int)

/-- Drops zeros at the end of the digits; `fuel` bounds their number. -/
def dropZeros : Nat → Decimal → Decimal
  | 0, d => d
  | fuel + 1, d =>
    if d.digits ≠ 0 ∧ d.digits % 10 = 0 then dropZeros fuel ⟨d.digits / 10, d.exponent + 1⟩ else d

/-- The shortest decimal that reads back as `m * 2 ^ q`, for `m ≠ 0`. Seventeen digits always do. -/
def shortest (m : Nat) (q : Int) : Decimal :=
  let lead := leadingExponent m q
  let found := (List.range 17).findSome? fun i : Nat =>
    let k : Int := lead - i
    ((Grid.make m q k).nearest?).map fun c => (⟨c, k⟩ : Decimal)
  let d := found.getD ⟨m, q⟩
  dropZeros (digitCount d.digits) d

end Decimal

end Petri
