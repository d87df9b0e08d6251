import Petri.Datum.Meaning

/-!
# Codes of values

A code is a word that stands for what a value denotes, so that values that are the same have the same code.
A number has its residue modulo the prime `2 ^ 61 - 1`, in which fractions have residues too. The code of a
tuple takes in the codes of its items one after another; that of a set combines those of its members so that
their order does not matter. A marking has the code of the pair of its counts and its places.

Texts other than the empty one have no lasting codes, nor do null, not-a-numbers, streams, arcs, nets and
graphs: theirs are drawn anew whenever a program starts, so nothing can rest on them. Here such values have
no code at all, nor has a tuple, a set or a marking that holds one.
-/

namespace Petri.Meaning

/-- The prime `2 ^ 61 - 1`. Modulo it, `2 ^ 61` is one, so halving is the same as doubling sixty times. -/
def modulus : Nat := 2305843009213693951

/-- The word of all ones is no code; `other` stands in for it. -/
def evade (code other : UInt64) : UInt64 :=
  if code == 0 - 1 then other else code

/-- The code of a number whose denominator is a power of two: the residue of its absolute value, under its
sign. -/
def codeOfNumber (x : Rat) : UInt64 :=
  let halvings := x.den.log2
  let residue := (x.num.natAbs <<< ((61 - halvings % 61) % 61)) % modulus
  evade (if x.num < 0 then 0 - residue.toUInt64 else residue.toUInt64) (0 - 2)

/-- The word with its bits moved up by 31, those that leave it at the top coming back at the bottom. -/
def rotate (x : UInt64) : UInt64 :=
  x <<< 31 ||| x >>> 33

/-- Takes the code of a further part of a sequence in. -/
def mix (acc code : UInt64) : UInt64 :=
  rotate (acc + code * 14029467366897019727) * 11400714785074694791

/-- The code of a sequence of parts with these codes. -/
def codeOfSequence (codes : List UInt64) : UInt64 :=
  let seed : UInt64 := 2870177450012600261
  let salt : UInt64 := 3527539
  evade (codes.foldl mix seed + (codes.length.toUInt64 ^^^ seed ^^^ salt)) 1546275796

/-- The bits of a code, spread over the word. -/
def scatter (code : UInt64) : UInt64 :=
  let salt : UInt64 := 89869747
  (code ^^^ salt ^^^ code <<< 16) * 3644798167

/-- The code of a set of members with these codes. The exclusive or takes them in without regard to
order. -/
def codeOfSet (codes : List UInt64) : UInt64 :=
  let joined := codes.foldl (fun acc code => acc ^^^ scatter code) 0
  let sized := joined ^^^ (codes.length.toUInt64 + 1) * 1927868237
  let spread := sized ^^^ sized >>> 11 ^^^ sized >>> 25
  evade (spread * 69069 + 907133923) 590923713

mutual

/-- The code of what denotes this, if there is one. -/
def code? : Meaning → Option UInt64
  | number x => some (codeOfNumber x)
  | infinity negative => some (if negative then 0 - 314159 else 314159)
  | text s => if s.isEmpty then some 0 else none
  | group .tuple parts | group .marking parts => (codes? parts).map codeOfSequence
  | group .set parts => (codes? parts).map codeOfSet
  | null | nan _ | stream _ | group .list _ | group .mapping _ | group .arc _ | group .entity _ => none

/-- The codes of all parts. -/
def codes? : List Meaning → Option (List UInt64)
  | [] => some []
  | x :: xs =>
    match x.code?, codes? xs with
    | some c, some cs => some (c :: cs)
    | _, _ => none

end

end Petri.Meaning
