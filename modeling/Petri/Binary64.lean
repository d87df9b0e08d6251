/-!
# Binary floating-point numbers, decoded

A 64-bit floating-point number is read as what its bits say: not a number, an infinity, or a sign,
a whole significand and a power of two. Everything the library does with such numbers (comparing,
truncating, writing them in decimal) starts from this reading, so it is exact integer arithmetic.
-/

namespace Petri

/-- What 64 bits say as a floating-point number; `finite` stands for
`± significand * 2 ^ exponent`. -/
inductive Binary64 where
  | nan
  | infinite (negative : Bool)
  | finite (negative : Bool) (significand : Nat) (exponent : Int)
  deriving DecidableEq, Repr

namespace Binary64

/-- Reads sign, eleven exponent bits and fifty-two fraction bits. -/
def ofBits (bits : UInt64) : Binary64 :=
  let n := bits.toNat
  let negative := decide (1 <<< 63 ≤ n)
  let biased : Nat := (n >>> 52) % 2048
  let fraction : Nat := n % (1 <<< 52)
  if biased = 2047 then
    if fraction = 0 then .infinite negative else .nan
  else if biased = 0 then
    .finite negative fraction (-1074)
  else
    .finite negative ((1 <<< 52) + fraction) ((biased : Int) - 1075)

/-- The decoded form of a number. -/
def ofFloat (x : Float) : Binary64 :=
  ofBits x.toBits

/-- `m * 2 ^ q` as a rational. -/
def scaled (m : Nat) (q : Int) : Rat :=
  if 0 ≤ q then (m <<< q.toNat : Nat) else mkRat m (1 <<< (-q).toNat)

/-- The whole part of `m * 2 ^ q`. -/
def wholePart (m : Nat) (q : Int) : Nat :=
  if 0 ≤ q then m <<< q.toNat else m >>> (-q).toNat

end Binary64

end Petri
