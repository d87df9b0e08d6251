import Petri.Binary64
import Petri.Datum.Basic

/-!
# What values denote

Two values are the same if they denote the same thing: truth values, whole and floating-point numbers are
numbers and are compared as such, sets of either kind are compared by their members and dictionaries by
their entries, without regard to order, arcs by their parts, and nets, graphs and streams by their numbers.
So are not-a-numbers. This is how keys and members are told apart. Two values that are compared for
themselves are equal (`Datum.equals`) if they are the same and not a not-a-number, which equals nothing.

Main statement: `same_iff` reduces sameness to equality of meanings, which makes it an equivalence
(`EquivBEq Datum`).
-/

namespace Petri

/-- Which collections can denote the same thing. -/
inductive Shape where
  | list | tuple | set | mapping | marking | arc | entity
  deriving DecidableEq, Repr

/-- What a value denotes. The parts of sets and mappings are in canonical order. -/
inductive Meaning where
  | null
  | nan (number : Nat)
  | stream (number : Nat)
  | infinity (negative : Bool)
  | number (value : Rat)
  | text (s : String)
  | group (shape : Shape) (parts : List Meaning)

namespace Meaning

mutual

/-- Decides equality. -/
def decEq : (a b : Meaning) → Decidable (a = b)
  | null, null => isTrue rfl
  | nan m, nan n => decidable_of_iff (m = n) (by simp)
  | stream m, stream n => decidable_of_iff (m = n) (by simp)
  | infinity m, infinity n => decidable_of_iff (m = n) (by simp)
  | number x, number y => decidable_of_iff (x = y) (by simp)
  | text s, text t => decidable_of_iff (s = t) (by simp)
  | group s xs, group t ys =>
    if h : s = t then
      match decEqAll xs ys with
      | isTrue e => isTrue (by rw [h, e])
      | isFalse n => isFalse (by simp [n])
    else isFalse (by simp [h])
  | null, nan _ | null, stream _ | null, infinity _ | null, number _ | null, text _ | null, group _ _
  | nan _, null | nan _, stream _ | nan _, infinity _ | nan _, number _ | nan _, text _ | nan _, group _ _
  | stream _, null | stream _, nan _ | stream _, infinity _ | stream _, number _ | stream _, text _
  | stream _, group _ _
  | infinity _, null | infinity _, nan _ | infinity _, stream _ | infinity _, number _
  | infinity _, text _ | infinity _, group _ _
  | number _, null | number _, nan _ | number _, stream _ | number _, infinity _ | number _, text _
  | number _, group _ _
  | text _, null | text _, nan _ | text _, stream _ | text _, infinity _ | text _, number _
  | text _, group _ _
  | group _ _, null | group _ _, nan _ | group _ _, stream _ | group _ _, infinity _
  | group _ _, number _ | group _ _, text _ => isFalse (by simp)

/-- Decides equality of lists. -/
def decEqAll : (xs ys : List Meaning) → Decidable (xs = ys)
  | [], [] => isTrue rfl
  | [], _ :: _ | _ :: _, [] => isFalse (by simp)
  | x :: xs, y :: ys =>
    match decEq x y, decEqAll xs ys with
    | isTrue h, isTrue hs => isTrue (by rw [h, hs])
    | isFalse n, _ => isFalse fun e => n (List.cons.inj e).1
    | _, isFalse n => isFalse fun e => n (List.cons.inj e).2

end

instance : DecidableEq Meaning := decEq

/-- The place of a meaning's kind in the canonical order. -/
def rank : Meaning → Nat
  | null => 0
  | nan _ => 1
  | stream _ => 2
  | infinity false => 3
  | infinity true => 4
  | number _ => 5
  | text _ => 6
  | group .list _ => 7
  | group .tuple _ => 8
  | group .set _ => 9
  | group .mapping _ => 10
  | group .marking _ => 11
  | group .arc _ => 12
  | group .entity _ => 13

mutual

/-- Whether `a` comes before `b` or is `b` in the canonical order of the members of sets. -/
def before : Meaning → Meaning → Bool
  | number x, number y => x ≤ y
  | nan m, nan n | stream m, stream n => m ≤ n
  | text s, text t => s ≤ t
  | group s xs, group t ys =>
    if s = t then allBefore xs ys else rank (group s []) ≤ rank (group t [])
  | a, b => a.rank ≤ b.rank

/-- The lexicographic order of lists. -/
def allBefore : List Meaning → List Meaning → Bool
  | [], _ => true
  | _ :: _, [] => false
  | x :: xs, y :: ys => if x = y then allBefore xs ys else x.before y

end

/-- Inserts `x` where it belongs in a list in canonical order. -/
def insertOrdered (x : Meaning) : List Meaning → List Meaning
  | [] => [x]
  | y :: ys => if x.before y then x :: y :: ys else y :: insertOrdered x ys

/-- The parts in canonical order. -/
def ordered (xs : List Meaning) : List Meaning :=
  xs.foldr insertOrdered []

/-- The meaning of a floating-point number: its exact value, where it has one, and for a not-a-number the
number by which it is known. -/
def ofFloat (x : Float) (number : Nat) : Meaning :=
  match Binary64.ofFloat x with
  | .nan => nan number
  | .infinite negative => infinity negative
  | .finite negative m q =>
    let v := Binary64.scaled m q
    .number (if negative then -v else v)

end Meaning

namespace Datum

mutual

/-- What the value denotes. -/
def meaning : Datum → Meaning
  | null => .null
  | bool b => .number (if b then 1 else 0)
  | int n => .number n
  | float x number => .ofFloat x number
  | str s => .text s
  | list xs => .group .list (meanings xs)
  | tuple xs => .group .tuple (meanings xs)
  | dict es => .group .mapping (Meaning.ordered (entryMeanings es))
  | set xs | frozenset xs => .group .set (Meaning.ordered (meanings xs))
  | stream number _ => .stream number
  | marking es =>
    .group .marking [.group .tuple (valueMeanings es), .group .tuple (keyMeanings es)]
  | arc d p t label => .group .arc [p.meaning, t.meaning, .number label, .text d.name]
  | entity number _ | graph number _ _ => .group .entity [.number number]

/-- The meanings of the items. -/
def meanings : List Datum → List Meaning
  | [] => []
  | x :: xs => x.meaning :: meanings xs

/-- The meanings of the entries, as pairs. -/
def entryMeanings : List (Datum × Datum) → List Meaning
  | [] => []
  | (k, v) :: es => .group .tuple [k.meaning, v.meaning] :: entryMeanings es

/-- The meanings of the keys. -/
def keyMeanings : List (Datum × Datum) → List Meaning
  | [] => []
  | (k, _) :: es => k.meaning :: keyMeanings es

/-- The meanings of the values. -/
def valueMeanings : List (Datum × Datum) → List Meaning
  | [] => []
  | (_, v) :: es => v.meaning :: valueMeanings es

end

/-- Whether the two values are the same. -/
def same (a b : Datum) : Bool :=
  match a, b with
  | str s, str t => s == t
  | int m, int n => m == n
  | a, b => a.meaning == b.meaning

instance : BEq Datum := ⟨same⟩

theorem beq_eq_same (a b : Datum) : (a == b) = a.same b := rfl

theorem same_iff {a b : Datum} : a.same b ↔ a.meaning = b.meaning := by
  unfold same
  split
  · simp [meaning]
  · simp [meaning]
  · simp

instance : EquivBEq Datum where
  rfl := same_iff.2 rfl
  symm h := same_iff.2 (same_iff.1 h).symm
  trans hab hbc := same_iff.2 ((same_iff.1 hab).trans (same_iff.1 hbc))

/-- Whether the two values are equal when they are compared for themselves. -/
def equals (a b : Datum) : Bool :=
  match a.meaning with
  | .nan _ => false
  | _ => a == b

end Datum

end Petri
