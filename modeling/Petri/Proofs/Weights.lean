import Petri.Datum.Number
import Petri.Weights

/-!
# Arc weights in whole numbers

The engines of `Weights` add and subtract 64-bit words, and a sum that is too large comes back as a negative
word. This file says what the words stand for. As long as weights and counts are not negative, both
directions have a closed form at every place, over all four shapes of arcs:

> `toInt_move`: firing leaves `v - pre + post`, less `2 ^ 64` if that is no word;
> `toInt_predecessor`: reverting leaves `pre + max 0 (v - post)`, less `2 ^ 64` if that is no word.

So a negative result always means that a sum did not fit. Where the sums fit, reverting undoes firing
(`unapply_apply`), and the two are adjoint (`covers_apply_iff`): firing from `x` covers `m` exactly if `x`
covers what reverting `m` asks for.
-/

namespace Petri

/-- The greatest number of tokens that a word holds. -/
def mostTokens : Int := Int64.maxValue.toInt

theorem mostTokens_eq : mostTokens = 9223372036854775807 := rfl

/-- A number is a word if it lies between the least and the greatest one. -/
theorem fitsWord_iff {k : Int} :
    Datum.fitsWord k = true ↔ -9223372036854775808 ≤ k ∧ k ≤ mostTokens := by
  unfold Datum.fitsWord
  rw [Bool.and_eq_true, decide_eq_true_eq, decide_eq_true_eq]
  exact Iff.rfl

/-- What a word holds of a number between zero and twice `mostTokens`. -/
def wrapped (x : Int) : Int :=
  if x ≤ mostTokens then x else x - 18446744073709551616

theorem wrapped_of_le {x : Int} (h : x ≤ mostTokens) : wrapped x = x := if_pos h

/-- A number that does not fit comes back negative. -/
theorem wrapped_nonneg_iff {x : Int} (h0 : 0 ≤ x) (h : x ≤ 2 * mostTokens) :
    0 ≤ wrapped x ↔ x ≤ mostTokens := by
  rw [mostTokens_eq] at h
  unfold wrapped
  rw [mostTokens_eq]
  split <;> omega

namespace Weights

/-! ## One place -/

theorem toInt_le_most (v : Int64) : v.toInt ≤ mostTokens := Int64.toInt_le v

theorem zero_le_iff {v : Int64} : 0 ≤ v ↔ 0 ≤ v.toInt := Int64.le_iff_toInt_le

theorem zero_lt_iff {v : Int64} : 0 < v ↔ 0 < v.toInt := Int64.lt_iff_toInt_lt

/-- What firing leaves at a place, in whole numbers. -/
theorem toInt_move {pre post v : Int64} (hpre : 0 ≤ pre) (hpost : 0 ≤ post) (hle : pre ≤ v) :
    (v - pre + post).toInt = wrapped (v.toInt - pre.toInt + post.toInt) := by
  rw [zero_le_iff] at hpre hpost
  rw [Int64.le_iff_toInt_le] at hle
  have hv := toInt_le_most v
  have hp := toInt_le_most post
  rw [mostTokens_eq] at hv hp
  -- the difference and the sum are words both, so they are read modulo `2 ^ 64` together
  rw [Int64.toInt_add, Int64.toInt_sub, Int.bmod_add_bmod, Int.bmod_def]
  unfold wrapped
  rw [mostTokens_eq]
  split <;> split <;> omega

/-- What reverting leaves at a place, in whole numbers: the four shapes of arcs are one formula. -/
theorem toInt_predecessor {pre post v : Int64} (hpre : 0 ≤ pre) (hpost : 0 ≤ post) (hv : 0 ≤ v) :
    (predecessor pre post v).toInt = wrapped (pre.toInt + max 0 (v.toInt - post.toInt)) := by
  have hpre' := toInt_le_most pre
  have hv' := toInt_le_most v
  rw [mostTokens_eq] at hpre' hv'
  rw [zero_le_iff] at hpre hpost hv
  unfold predecessor wrapped
  rw [mostTokens_eq]
  simp only [zero_lt_iff, Int64.le_iff_toInt_le]
  -- with both arcs the sum may wrap and come back, so it is compared modulo `2 ^ 64` as a whole
  split
  · split
    · split
      · rw [if_pos (by omega)]
        omega
      · rw [Int64.toInt_sub, Int64.toInt_add, Int.bmod_sub_bmod, Int.bmod_def]
        split <;> split <;> omega
    · rw [Int64.toInt_add, Int.bmod_def]
      split <;> split <;> omega
  · split
    · split
      · rw [if_pos (by omega), Int64.toInt_zero]
        omega
      · rw [Int64.toInt_sub, Int.bmod_def, if_pos (by omega)]
        split <;> omega
    · rw [if_pos (by omega)]
      omega

/-! ## All places -/

variable {n : Nat}

/-- No place holds a negative word. -/
def Natural (m : Vector Int64 n) : Prop := ∀ p : Fin n, 0 ≤ m.get p

/-- Every place of `x` holds at least what `m` holds there. -/
def Covers (x m : Vector Int64 n) : Prop := ∀ p : Fin n, m.get p ≤ x.get p

/-- No weight is negative. -/
structure Sound (w : Weights n) : Prop where
  pre : Natural w.pre
  post : Natural w.post

theorem vector_ext {α : Type} {a b : Vector α n} (h : ∀ p : Fin n, a.get p = b.get p) : a = b :=
  Vector.ext fun i hi => h ⟨i, hi⟩

variable {w : Weights n} {capacity m x : Vector Int64 n}

theorem toInt_apply (hw : w.Sound) (hen : w.Enabled m) (p : Fin n) :
    ((w.apply m).get p).toInt
      = wrapped ((m.get p).toInt - (w.pre.get p).toInt + (w.post.get p).toInt) := by
  rw [get_apply]
  exact toInt_move (hw.pre p) (hw.post p) (hen p)

/-- The sum at a place is between zero and twice `mostTokens`, so that it wraps once at most. -/
theorem moved_bounds (hw : w.Sound) (hen : w.Enabled m) (p : Fin n) :
    0 ≤ (m.get p).toInt - (w.pre.get p).toInt + (w.post.get p).toInt ∧
      (m.get p).toInt - (w.pre.get p).toInt + (w.post.get p).toInt ≤ 2 * mostTokens := by
  have hpre := zero_le_iff.mp (hw.pre p)
  have hpost := zero_le_iff.mp (hw.post p)
  have hle := Int64.le_iff_toInt_le.mp (hen p)
  have h1 := toInt_le_most (m.get p)
  have h2 := toInt_le_most (w.post.get p)
  omega

theorem apply_nonneg_iff (hw : w.Sound) (hen : w.Enabled m) (p : Fin n) :
    0 ≤ (w.apply m).get p
      ↔ (m.get p).toInt - (w.pre.get p).toInt + (w.post.get p).toInt ≤ mostTokens := by
  obtain ⟨h0, h2⟩ := moved_bounds hw hen p
  rw [zero_le_iff, toInt_apply hw hen p]
  exact wrapped_nonneg_iff h0 h2

theorem toInt_apply_of_natural (hw : w.Sound) (hen : w.Enabled m) (hn : Natural (w.apply m))
    (p : Fin n) :
    ((w.apply m).get p).toInt
      = (m.get p).toInt - (w.pre.get p).toInt + (w.post.get p).toInt := by
  rw [toInt_apply hw hen p, wrapped_of_le ((apply_nonneg_iff hw hen p).mp (hn p))]

theorem toInt_unapply (hw : w.Sound) (hm : Natural m) (p : Fin n) :
    ((w.unapply m).get p).toInt
      = wrapped ((w.pre.get p).toInt + max 0 ((m.get p).toInt - (w.post.get p).toInt)) := by
  rw [get_unapply]
  exact toInt_predecessor (hw.pre p) (hw.post p) (hm p)

theorem unapply_nonneg_iff (hw : w.Sound) (hm : Natural m) (p : Fin n) :
    0 ≤ (w.unapply m).get p
      ↔ (w.pre.get p).toInt + max 0 ((m.get p).toInt - (w.post.get p).toInt) ≤ mostTokens := by
  have hpre := zero_le_iff.mp (hw.pre p)
  have hpost := zero_le_iff.mp (hw.post p)
  have h1 := toInt_le_most (m.get p)
  have h2 := toInt_le_most (w.pre.get p)
  have hmost : 0 ≤ mostTokens := by decide
  rw [zero_le_iff, toInt_unapply hw hm p]
  exact wrapped_nonneg_iff (by omega) (by omega)

theorem toInt_unapply_of_natural (hw : w.Sound) (hm : Natural m) (hn : Natural (w.unapply m))
    (p : Fin n) :
    ((w.unapply m).get p).toInt
      = (w.pre.get p).toInt + max 0 ((m.get p).toInt - (w.post.get p).toInt) := by
  rw [toInt_unapply hw hm p, wrapped_of_le ((unapply_nonneg_iff hw hm p).mp (hn p))]

/-! ## Back and forth -/

/-- What was moved forward exactly is moved back to where it was. -/
theorem unapply_apply (hw : w.Sound) (hen : w.Enabled m) (hn : Natural (w.apply m)) :
    w.unapply (w.apply m) = m := by
  apply vector_ext
  intro p
  have hpre := zero_le_iff.mp (hw.pre p)
  have hv := Int64.le_iff_toInt_le.mp (hen p)
  have hback : (w.pre.get p).toInt
      + max 0 (((w.apply m).get p).toInt - (w.post.get p).toInt) = (m.get p).toInt := by
    -- at least what was given is there, so that taking it back does not stop at zero
    rw [toInt_apply_of_natural hw hen hn p]
    omega
  rw [← Int64.toInt_inj, toInt_unapply hw hn p, hback, wrapped_of_le (toInt_le_most _)]

/-- After firing, the guard of reverting can fail only where tokens are taken and none are given, for at the
other places firing has compared the same count with the same capacity. -/
theorem revertible_apply_iff (hfit : w.Fits capacity (w.apply m)) :
    w.Revertible capacity (w.apply m) ↔
      ∀ p : Fin n, 0 < w.pre.get p → ¬ 0 < w.post.get p → (w.apply m).get p ≤ capacity.get p := by
  constructor
  · intro h p hpre _
    exact h p hpre
  · intro h p hpre
    by_cases hpost : 0 < w.post.get p
    · exact hfit p hpost
    · exact h p hpre hpost

/-- **Adjunction.** Firing from `x` covers `m` exactly if `x` covers the predecessor of `m`. -/
theorem covers_apply_iff (hw : w.Sound) (hm : Natural m) (hp : Natural (w.unapply m))
    (hen : w.Enabled x) (hn : Natural (w.apply x)) :
    Covers (w.apply x) m ↔ Covers x (w.unapply m) := by
  refine forall_congr' fun p => ?_
  have hv := Int64.le_iff_toInt_le.mp (hen p)
  rw [Int64.le_iff_toInt_le, Int64.le_iff_toInt_le, toInt_apply_of_natural hw hen hn p,
    toInt_unapply_of_natural hw hm hp p]
  omega

/-- What covers a predecessor holds everything that the transition takes. -/
theorem enabled_of_covers (hw : w.Sound) (hm : Natural m) (hp : Natural (w.unapply m))
    (hx : Covers x (w.unapply m)) : w.Enabled x := by
  intro p
  have h := Int64.le_iff_toInt_le.mp (hx p)
  rw [toInt_unapply_of_natural hw hm hp p] at h
  rw [Int64.le_iff_toInt_le]
  omega

end Weights

end Petri
