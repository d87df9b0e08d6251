import Mathlib.Data.List.OfFn
import Mathlib.Order.PiLex
import Petri.Datum.Order
import Petri.Proofs.Convexity

/-!
# The order of markings

Markings are ordered as values: the counts are compared first, and after them the places. The places of one net need
not be comparable with each other, a number stands beside a text, but two markings of one net have the same places, and
what is the same is not asked for its order. What remains is the lexicographic order of whole numbers:

> `Owns.lt?_eq`: of two markings of a net the one with fewer tokens at the first difference is below the other;
> `Owns.compares`: all comparisons of two markings have an answer, and the answers are those of one ordering;
> `Precedes.of_fires`: firing shifts all counts alike and leaves the first difference where it is;
> `markings_ordered`: **the markings of a net are strictly and totally ordered**, and firing is monotone.
-/

namespace Petri

namespace Meaning

/-- Sequences of whole numbers have the lexicographic order. -/
theorem allLt?_ints : ∀ {ks ls : List Int},
    allLt? (Datum.meanings (ks.map .int)) (Datum.meanings (ls.map .int)) = some (decide (ks < ls)) := by
  intro ks
  induction ks with
  | nil =>
    intro ls
    cases ls <;> simp [Datum.meanings, allLt?]
  | cons k ks ih =>
    intro ls
    cases ls with
    | nil => simp [Datum.meanings, allLt?]
    | cons l ls =>
      simp only [List.map_cons, Datum.meanings, Datum.meaning, allLt?, lt?]
      by_cases h : k = l
      · subst h
        simp [ih]
      · have hnumber : number k ≠ number l := by simpa using h
        simp only [hnumber, h, beq_iff_eq, if_false, List.cons_lt_cons_iff, Rat.intCast_lt_intCast, false_and, or_false]

theorem beq_tuples (xs ys : List Datum) :
    (group .tuple (Datum.meanings xs) == group .tuple (Datum.meanings ys)) = (xs == ys) := by
  rw [Bool.eq_iff_iff, list_beq_iff]
  simp

end Meaning

namespace Marking

/-- Marking `a` is below marking `b`. -/
def Below (a b : Marking) : Prop :=
  a.toDatum.lt? b.toDatum = some true

/-- The markings compare as `o` says: each of the five comparisons has an answer, and the answers agree. -/
structure Compares (a b : Marking) (o : Ordering) : Prop where
  lt : a.toDatum.lt? b.toDatum = some o.isLT
  le : a.toDatum.le? b.toDatum = some o.isLE
  same : (a == b) = o.isEq
  ge : b.toDatum.le? a.toDatum = some o.isGE
  gt : b.toDatum.lt? a.toDatum = some o.isGT

/-- Markings with the same places are compared by their counts. -/
theorem lt?_of_same_places {a b : Marking} (h : (a.places == b.places) = true) : a.toDatum.lt? b.toDatum
    = if a.counts == b.counts then some false
      else Meaning.allLt? (Datum.meanings a.counts) (Datum.meanings b.counts) := by
  rw [Datum.lt?, meaning_toDatum, meaning_toDatum]
  simp only [Meaning.lt?, Meaning.allLt?, Meaning.beq_tuples, h, if_true]

end Marking

namespace Net

/-- At the first place where the markings hold different counts, `a` holds fewer tokens. -/
def Precedes (net : Net) (a b : Marking) : Prop :=
  ∃ p : Fin net.places.length, (∀ q < p, a.tokens q = b.tokens q) ∧ a.tokens p < b.tokens p

variable {net : Net} {t : Datum} {a b c a' b' : Marking}

instance : Decidable (net.Precedes a b) :=
  inferInstanceAs
    (Decidable (∃ p : Fin net.places.length, (∀ q < p, a.tokens q = b.tokens q) ∧ a.tokens p < b.tokens p))

/-! ## The first difference -/

/-- The counts by position, in the lexicographic order of vectors. -/
def tokenVector (net : Net) (m : Marking) : Lex (Fin net.places.length → Int) :=
  toLex fun p => m.tokens p

theorem precedes_iff_lt : net.Precedes a b ↔ net.tokenVector a < net.tokenVector b :=
  Iff.rfl

theorem tokenVector_eq_iff :
    net.tokenVector a = net.tokenVector b ↔ ∀ p : Fin net.places.length, a.tokens p = b.tokens p :=
  funext_iff

/-- Vectors and the lists of their entries have the same order. -/
theorem ofFn_lt_iff : (List.ofFn fun p : Fin net.places.length => a.tokens p)
    < (List.ofFn fun p : Fin net.places.length => b.tokens p) ↔ net.Precedes a b := by
  rw [List.lt_iff_exists]
  simp only [List.length_ofFn, lt_self_iff_false, and_false, false_or, List.getElem_ofFn]
  constructor
  · intro h
    obtain ⟨i, hi, _, hbefore, hlt⟩ := h
    exact ⟨⟨i, hi⟩, fun q hq => hbefore q hq, hlt⟩
  · intro h
    obtain ⟨p, hbefore, hlt⟩ := h
    exact ⟨p, p.isLt, p.isLt, fun q hq => hbefore ⟨q, hq.trans p.isLt⟩ hq, hlt⟩

theorem Owns.lt?_eq (ha : net.Owns a) (hb : net.Owns b) :
    a.toDatum.lt? b.toDatum = some (decide (net.Precedes a b)) := by
  rw [Marking.lt?_of_same_places (BEq.trans ha.places (BEq.symm hb.places)), ha.counts_eq_ints,
    hb.counts_eq_ints]
  split
  case isTrue hsame =>
    -- equal counts have no first difference
    have hequal := eq_of_beq_ints hsame
    rw [decide_eq_false]
    rw [← ofFn_lt_iff, hequal]
    exact List.lt_irrefl _
  case isFalse =>
    simp only [Meaning.allLt?_ints, ofFn_lt_iff]

/-! ## The order -/

theorem Owns.below_iff (ha : net.Owns a) (hb : net.Owns b) : a.Below b ↔ net.Precedes a b := by
  rw [Marking.Below, ha.lt?_eq hb, Option.some.injEq, decide_eq_true_iff]

/-- All comparisons go by the first difference. -/
theorem Owns.compares (ha : net.Owns a) (hb : net.Owns b) :
    a.Compares b (compare (net.tokenVector a) (net.tokenVector b)) := by
  have hlt : decide (net.Precedes a b) = (compare (net.tokenVector a) (net.tokenVector b)).isLT := by
    rw [Bool.eq_iff_iff, decide_eq_true_iff, precedes_iff_lt, Ordering.isLT_iff_eq_lt, compare_lt_iff_lt]
    exact Iff.rfl
  have hgt : decide (net.Precedes b a) = (compare (net.tokenVector a) (net.tokenVector b)).isGT := by
    rw [Bool.eq_iff_iff, decide_eq_true_iff, precedes_iff_lt, Ordering.isGT_iff_eq_gt, compare_gt_iff_gt]
    exact Iff.rfl
  have hsame : (a == b) = (compare (net.tokenVector a) (net.tokenVector b)).isEq := by
    rw [Bool.eq_iff_iff, ha.beq_iff hb, ← tokenVector_eq_iff, Ordering.isEq_iff_eq_eq, compare_eq_iff_eq]
  have hle : ∀ {m q : Marking}, net.Owns m → net.Owns q →
      m.toDatum.le? q.toDatum = some (decide (net.Precedes m q) || (m == q)) := by
    intro m q hm hq
    rw [Datum.le?, hm.lt?_eq hq]
    rfl
  refine ⟨?_, ?_, hsame, ?_, ?_⟩
  · rw [ha.lt?_eq hb, hlt]
  · rw [hle ha hb, hlt, hsame]
    cases compare (net.tokenVector a) (net.tokenVector b) <;> rfl
  · rw [hle hb ha, hgt, BEq.comm, hsame]
    cases compare (net.tokenVector a) (net.tokenVector b) <;> rfl
  · rw [hb.lt?_eq ha, hgt]

theorem Precedes.trans (hab : net.Precedes a b) (hbc : net.Precedes b c) : net.Precedes a c :=
  lt_trans (precedes_iff_lt.mp hab) (precedes_iff_lt.mp hbc)

/-- A marking that is covered by another one precedes it, or is the same. -/
theorem AtLeast.precedes_or_same (ha : net.Owns a) (hb : net.Owns b) (h : net.AtLeast b a) :
    net.Precedes a b ∨ (a == b) = true := by
  rw [ha.beq_iff hb, ← tokenVector_eq_iff, precedes_iff_lt]
  have hle : net.tokenVector a ≤ net.tokenVector b := Pi.toLex_monotone h
  exact lt_or_eq_of_le hle

/-- **Firing is monotone.** What a transition adds to a place does not depend on the marking, so the counts first
differ where they did, and in the same direction. -/
theorem Precedes.of_fires (hnet : net.Built) (ha : net.Countable a) (hb : net.Countable b)
    (hfa : net.FiresExactly t a a') (hfb : net.FiresExactly t b b') (h : net.Precedes a b) : net.Precedes a' b' := by
  obtain ⟨j, hj, _⟩ := (fires_iff ha.1 ha.2.fitsWords).mp hfa.1
  have hshift : ∀ p : Fin net.places.length, b'.tokens p - a'.tokens p = b.tokens p - a.tokens p := by
    intro p
    rw [hfa.tokens_eq hnet ha hj, hfb.tokens_eq hnet hb hj]
    exact sumAt_sub_sumAt p
  obtain ⟨p, hbefore, hlt⟩ := h
  refine ⟨p, fun q hq => ?_, ?_⟩
  · have := hshift q
    have := hbefore q hq
    omega
  · have := hshift p
    omega

/-- **The markings of a net are ordered.** Any two of them compare, and the five comparisons answer as one ordering
does: the first is below the second, or they are the same, or the second is below the first, and only one of these. The
order is transitive, a marking that is covered by another one is below it or the same, and a transition that fires from
two markings without wrapped counts leads from the lower marking to the lower result. -/
theorem markings_ordered (hnet : net.Built) (ha : net.Owns a) (hb : net.Owns b) (hc : net.Owns c) :
    (∃ o, a.Compares b o) ∧ (a.Below b → b.Below c → a.Below c) ∧
      (net.AtLeast b a → a.toDatum.le? b.toDatum = some true) ∧
      ∀ t a' b', net.InRange a → net.InRange b → net.FiresExactly t a a' → net.FiresExactly t b b' →
        a.Below b → a'.Below b' := by
  refine ⟨⟨_, ha.compares hb⟩, fun hab hbc => ?_, fun hle => ?_, fun t a' b' hra hrb hfa hfb hab => ?_⟩
  · rw [ha.below_iff hc]
    exact ((ha.below_iff hb).mp hab).trans ((hb.below_iff hc).mp hbc)
  · rw [Datum.le?, ha.lt?_eq hb, Option.map_some, Option.some.injEq, Bool.or_eq_true, decide_eq_true_iff]
    exact hle.precedes_or_same ha hb
  · have hcountable : net.Countable a := ⟨ha, hra⟩
    have hcountable' : net.Countable b := ⟨hb, hrb⟩
    rw [(hfa.countable hcountable).1.below_iff (hfb.countable hcountable').1]
    exact ((ha.below_iff hb).mp hab).of_fires hnet hcountable hcountable' hfa hfb

/-- A shelf with a numbered compartment, a named one and one without a name. What is boxed in the first is unpacked into
the second. -/
def shelf : Net where
  places := [.int 1, .str "one", .null]
  transitions := [.str "unpack"]
  capacity := #v[9, 9, 9]
  weights := #v[⟨#v[1, 0, 0], #v[0, 4, 0]⟩]

theorem shelf_built : shelf.Built :=
  ⟨.list [.int 1, .str "one", .null], .list [.str "unpack"],
    [⟨.int 1, .str "unpack", 1, .pre, by decide⟩, ⟨.str "one", .str "unpack", 4, .post, by decide⟩],
    .null, .int 9, by with_unfolding_all rfl⟩

def shelfAt (numbered named nameless : Int) : Marking :=
  ⟨[(.int 1, .int numbered), (.str "one", .int named), (.null, .int nameless)]⟩

theorem shelfAt_owns (numbered named nameless : Int) : shelf.Owns (shelfAt numbered named nameless) := by
  refine ⟨by rfl, ?_⟩
  intro c hc
  simp only [shelfAt, Marking.counts, List.map_cons, List.map_nil, List.mem_cons, List.not_mem_nil, or_false] at hc
  rcases hc with rfl | rfl | rfl <;> exact ⟨_, rfl⟩

/-- The compartments do not compare with each other, and what they hold does. With a box unpacked on each, the lower
shelf stays the lower. -/
theorem markings_ordered_shelf :
    (Datum.int 1).lt? (.str "one") = none ∧ (Datum.str "one").lt? .null = none ∧
      (∃ o, (shelfAt 1 2 3).Compares (shelfAt 1 2 3) o) ∧ (shelfAt 1 2 3).Below (shelfAt 2 0 0) ∧
      shelf.FiresExactly (.str "unpack") (shelfAt 1 2 3) (shelfAt 0 6 3) ∧ (shelfAt 0 6 3).Below (shelfAt 0 7 0) := by
  have howns := shelfAt_owns
  have hmoved : shelf.FiresExactly (.str "unpack") (shelfAt 1 2 3) (shelfAt 0 6 3) := ⟨rfl, by decide⟩
  have hmoved' : shelf.FiresExactly (.str "unpack") (shelfAt 1 3 0) (shelfAt 0 7 0) := ⟨rfl, by decide⟩
  have hbelow : (shelfAt 1 2 3).Below (shelfAt 1 3 0) :=
    ((howns 1 2 3).below_iff (howns 1 3 0)).mpr (by decide)
  have hbelow' : (shelfAt 1 3 0).Below (shelfAt 2 0 0) :=
    ((howns 1 3 0).below_iff (howns 2 0 0)).mpr (by decide)
  obtain ⟨_, htrans, _, hfires⟩ := markings_ordered shelf_built (howns 1 2 3) (howns 1 3 0) (howns 2 0 0)
  obtain ⟨hcompares, _⟩ := markings_ordered shelf_built (howns 1 2 3) (howns 1 2 3) (howns 1 2 3)
  exact ⟨rfl, rfl, hcompares, htrans hbelow hbelow', hmoved,
    hfires _ _ _ (by decide) (by decide) hmoved hmoved' hbelow⟩

end Net

end Petri
