import Petri.Decimal.Shortest

/-!
# How floating-point numbers are written

The digits come from `Petri.Decimal.shortest`; a `Layout` decides everything else about the text.
`Layout.standard` is the layout of all of the library's output.
-/

namespace Petri.Decimal

/-- The decisions of a number format. -/
structure Layout where
  /-- The least leading exponent that is written without an exponent. -/
  positionalFrom : Int
  /-- The first leading exponent that is written with an exponent again. -/
  positionalUntil : Int
  /-- Digits that an exponent has at least. -/
  exponentWidth : Nat
  nan : String
  infinity : String

/-- Without exponent from a ten-thousandth up to below `10 ^ 16`, always with a point or an exponent,
exponents signed and of two digits at least. -/
def Layout.standard : Layout :=
  { positionalFrom := -4
    positionalUntil := 16
    exponentWidth := 2
    nan := "nan"
    infinity := "inf" }

/-- Zeros in front of `digits` up to a width of `width`. -/
def padLeft (width : Nat) (digits : String) : String :=
  "".pushn '0' (width - digits.length) ++ digits

/-- The text of a positive decimal. -/
def Layout.positive (l : Layout) (d : Decimal) : String :=
  let digits := toString d.digits
  let count := digits.length
  let lead := d.exponent + count - 1
  if l.positionalFrom ≤ lead ∧ lead < l.positionalUntil then
    if lead < 0 then
      "0." ++ "".pushn '0' ((-lead).toNat - 1) ++ digits
    else
      let whole := lead.toNat + 1
      if count ≤ whole then digits ++ "".pushn '0' (whole - count) ++ ".0"
      else String.ofList (digits.toList.take whole) ++ "." ++ String.ofList (digits.toList.drop whole)
  else
    let mantissa :=
      match digits.toList with
      | [] => ""
      | [c] => c.toString
      | c :: rest => c.toString ++ "." ++ String.ofList rest
    let sign := if lead < 0 then "-" else "+"
    mantissa ++ "e" ++ sign ++ padLeft l.exponentWidth (toString lead.natAbs)

/-- The text of a decoded number. The sign of zero is written. -/
def Layout.text (l : Layout) : Binary64 → String
  | .nan => l.nan
  | .infinite negative => (if negative then "-" else "") ++ l.infinity
  | .finite negative m q =>
    (if negative then "-" else "") ++ if m = 0 then "0.0" else l.positive (shortest m q)

end Petri.Decimal
