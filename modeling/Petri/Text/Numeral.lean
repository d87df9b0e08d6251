/-!
# Numerals of whole numbers

A numeral is a sign, if any, and decimal digits of any script, among which single underscores may stand
between two digits; blanks around it are skipped. No numeral has more than 4300 digits: longer ones are not
read, and a number that would need more cannot be written.
-/

namespace Petri.Text

/-- The zero of every run of ten decimal digits. -/
def decimalZeros : List Nat :=
  [0x30, 0x660, 0x6f0, 0x7c0, 0x966, 0x9e6, 0xa66, 0xae6, 0xb66, 0xbe6, 0xc66, 0xce6, 0xd66, 0xde6,
   0xe50, 0xed0, 0xf20, 0x1040, 0x1090, 0x17e0, 0x1810, 0x1946, 0x19d0, 0x1a80, 0x1a90, 0x1b50,
   0x1bb0, 0x1c40, 0x1c50, 0xa620, 0xa8d0, 0xa900, 0xa9d0, 0xa9f0, 0xaa50, 0xabf0, 0xff10, 0x104a0,
   0x10d30, 0x11066, 0x110f0, 0x11136, 0x111d0, 0x112f0, 0x11450, 0x114d0, 0x11650, 0x116c0, 0x11730,
   0x118e0, 0x11950, 0x11c50, 0x11d50, 0x11da0, 0x16a60, 0x16ac0, 0x16b50, 0x1d7ce, 0x1d7d8, 0x1d7e2,
   0x1d7ec, 0x1d7f6, 0x1e140, 0x1e2f0, 0x1e950, 0x1fbf0]

/-- The value of a decimal digit. -/
def digitValue? (c : Char) : Option Nat :=
  (decimalZeros.find? fun z => z ≤ c.toNat && c.toNat < z + 10).map (c.toNat - ·)

/-- The blanks that may surround a numeral. -/
def isBlank (c : Char) : Bool :=
  let n := c.toNat
  (0x9 ≤ n && n ≤ 0xd) || n = 0x20 || n = 0x85 || n = 0xa0 || n = 0x1680
    || (0x2000 ≤ n && n ≤ 0x200a) || n = 0x2028 || n = 0x2029 || n = 0x202f || n = 0x205f || n = 0x3000

/-- How many digits a numeral may have. -/
def numeralLimit : Nat := 4300

/-- Whether `n` is gone after its last digit was left out at most `limit` times. -/
def digitsWithin : (limit n : Nat) → Bool
  | 0, n => n == 0
  | limit + 1, n => n == 0 || digitsWithin limit (n / 10)

/-- Whether `n` has a numeral, that is, no more decimal digits than a numeral may have. -/
def hasNumeral (n : Int) : Bool :=
  digitsWithin numeralLimit n.natAbs

/-- The numeral that `n` is written as. -/
def numeral? (n : Int) : Option String :=
  if hasNumeral n then some (toString n) else none

/-- The values of the digits of `cs`, whose underscores stand between two digits each. -/
def digits? : List Char → Option (List Nat)
  | [] => none
  | [c] => (digitValue? c).map ([·])
  | c :: '_' :: rest => do return (← digitValue? c) :: (← digits? rest)
  | c :: rest => do return (← digitValue? c) :: (← digits? rest)

/-- The number that decimal digits stand for, the most significant first. -/
def ofDigits (ds : List Nat) : Nat :=
  ds.foldl (fun n d => 10 * n + d) 0

/-- `cs` without the blanks at either end. -/
def trimBlanks (cs : List Char) : List Char :=
  ((cs.dropWhile isBlank).reverse.dropWhile isBlank).reverse

/-- An unsigned numeral. -/
def natural? (cs : List Char) : Option Nat := do
  let ds ← digits? cs
  if ds.length ≤ numeralLimit then some (ofDigits ds) else none

/-- The number that `s` spells. -/
def integer? (s : String) : Option Int :=
  match trimBlanks s.toList with
  | '+' :: rest => (natural? rest).map Int.ofNat
  | '-' :: rest => (natural? rest).map fun n => -(n : Int)
  | cs => (natural? cs).map Int.ofNat

end Petri.Text
