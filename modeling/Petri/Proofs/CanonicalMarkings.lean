import Petri.Proofs.ReversalRule

/-!
# The markings of one transition

What a transition takes and what it gives are markings too, and in them the two engines meet. The first is the least
marking that enables the transition, and firing it leaves the second, unless a capacity forbids it. Reverting leads
back, and not from the second alone: whatever holds no more than the transition gives may have come from the first.

> `isEnabled_eq_atLeast`: to be enabled is to hold at least the first;
> `fire_taken`: firing the first leaves the second, for the sum at every place is what is given there;
> `revert_below_given`: reverting anything below the second restores the first, for nothing is left over.

Together they are `canonical_markings`. Neither of the two is checked against the capacities when it is made.
-/

namespace Petri

namespace Net

variable {net : Net} {t : Datum} {j : Fin net.transitions.length} {m x : Marking}

/-! ## What is taken and what is given -/

theorem minimalEnabling_eq (hj : net.transitionIndex t = .ok j) :
    net.minimalEnabling t = .ok (net.markingOf (net.takes j)) := by
  rw [minimalEnabling, hj]
  show Except.ok (net.markingOfWords (net.weights.get j).pre) = _
  rw [markingOfWords_eq]
  rfl

theorem exactEffect_eq (hj : net.transitionIndex t = .ok j) :
    net.exactEffect t = .ok (net.markingOf (net.gives j)) := by
  rw [exactEffect, hj]
  show Except.ok (net.markingOfWords (net.weights.get j).post) = _
  rw [markingOfWords_eq]
  rfl

theorem zero_eq : net.zero = net.markingOf fun _ => 0 := by
  rw [zero, markingOfWords_eq]
  congr 1
  funext p
  show ((Vector.replicate net.places.length (0 : Int64))[(p : Nat)]).toInt = 0
  rw [Vector.getElem_replicate]
  rfl

theorem inRange_taken (hb : net.Built) : net.InRange (net.markingOf (net.takes j)) := by
  intro p
  rw [tokens_markingOf]
  exact ⟨takes_nonneg hb p, Weights.toInt_le_most _⟩

/-! ## The two engines -/

/-- A transition is enabled exactly by the markings that hold what it takes. -/
theorem isEnabled_eq_atLeast (hj : net.transitionIndex t = .ok j) (hx : net.Owns x) (hfit : net.FitsWords x) :
    net.isEnabled t x.toDatum = .ok (decide (net.AtLeast x (net.markingOf (net.takes j)))) := by
  have hiff : (net.weights.get j).Enabled (net.wordsOf x) ↔ net.AtLeast x (net.markingOf (net.takes j)) := by
    rw [enabled_wordsOf_iff hfit]
    unfold AtLeast
    simp only [tokens_markingOf]
  rw [isEnabled_eq hx hfit, hj, ok_bind]
  simp only [hiff]

/-- Fired with exactly what it takes, a transition leaves exactly what it gives. -/
theorem fire_taken (hb : net.Built) (hj : net.transitionIndex t = .ok j) :
    net.fire t (net.markingOf (net.takes j)).toDatum
      = .ok (if ∀ p, 0 < net.gives j p → net.gives j p ≤ net.capacityAt p then
          some (net.markingOf (net.gives j)) else none) := by
  have hsum : ∀ p, wrapped (net.sumAt j (net.markingOf (net.takes j)) p) = net.gives j p := by
    intro p
    have hgives : net.gives j p ≤ mostTokens := Weights.toInt_le_most _
    unfold sumAt
    rw [tokens_markingOf, wrapped_of_le (by omega)]
    omega
  rw [fire_eq_wrapped hb hj (owns_markingOf _) (inRange_taken hb)]
  simp only [tokens_markingOf, Int.le_refl, implies_true, true_and, hsum]

/-- Where no place holds more than the transition gives, reverting leaves nothing of it. -/
theorem revert_below_given (hb : net.Built) (hj : net.transitionIndex t = .ok j) (hm : net.Owns m)
    (hnonneg : net.Nonnegative m) (hbelow : ∀ p : Fin net.places.length, m.tokens p ≤ net.gives j p) :
    net.revert m.toDatum t
      = .ok (if ∃ p, 0 < net.takes j p ∧ net.capacityAt p < m.tokens p then none
          else some (net.markingOf (net.takes j))) := by
  have hrange : net.InRange m := fun p => ⟨hnonneg p, Int.le_trans (hbelow p) (Weights.toInt_le_most _)⟩
  have hrestored : ∀ p, wrapped (net.restoredAt j m p) = net.takes j p := by
    intro p
    have htakes : net.takes j p ≤ mostTokens := Weights.toInt_le_most _
    have hle := hbelow p
    unfold restoredAt
    rw [wrapped_of_le (by omega)]
    omega
  have hguard : (∀ p, 0 < net.takes j p → m.tokens p ≤ net.capacityAt p) ↔
      ¬ ∃ p, 0 < net.takes j p ∧ net.capacityAt p < m.tokens p := by
    simp only [not_exists, not_and, Int.not_lt]
  rw [revert_eq_wrapped hb hj hm hrange]
  simp only [hrestored, hguard, ite_not]

/-- **What a transition takes and gives, and the two engines.** The least enabling marking holds what is taken and the
exact effect holds what is given. A transition is enabled by the markings that hold at least the former. Fired from
it, it leaves the latter, if all that is given fits into the capacities, and nothing otherwise. Whatever lies between
no tokens and the latter is reverted to the former, unless a place that is taken from holds more than its capacity.
So the empty marking and the effect have the same predecessor, if both are within capacity. -/
theorem canonical_markings (hb : net.Built) (hj : net.transitionIndex t = .ok j) :
    ∃ least effect, net.minimalEnabling t = .ok least ∧ net.exactEffect t = .ok effect ∧
      (∀ p : Fin net.places.length, least.tokens p = net.takes j p ∧ effect.tokens p = net.gives j p) ∧
      (∀ x, net.Owns x → net.FitsWords x →
        ∃ enabled, net.isEnabled t x.toDatum = .ok enabled ∧ (enabled = true ↔ net.AtLeast x least)) ∧
      net.fire t least.toDatum
        = .ok (if ∀ p, 0 < net.gives j p → net.gives j p ≤ net.capacityAt p then some effect else none) ∧
      (∀ m, net.Owns m → net.Nonnegative m → net.AtLeast effect m →
        net.revert m.toDatum t
          = .ok (if ∃ p, 0 < net.takes j p ∧ net.capacityAt p < m.tokens p then none else some least)) ∧
      (net.Within net.zero → net.Within effect →
        net.revert net.zero.toDatum t = .ok (some least) ∧ net.revert effect.toDatum t = .ok (some least)) := by
  have hrevert : ∀ m, net.Owns m → net.Nonnegative m → net.AtLeast (net.markingOf (net.gives j)) m →
      net.revert m.toDatum t
        = .ok (if ∃ p, 0 < net.takes j p ∧ net.capacityAt p < m.tokens p then none
            else some (net.markingOf (net.takes j))) := by
    intro m hm hnonneg hle
    refine revert_below_given hb hj hm hnonneg fun p => ?_
    rw [← tokens_markingOf (net.gives j) p]
    exact hle p
  have hwithin : ∀ m, net.Owns m → net.AtLeast (net.markingOf (net.gives j)) m → net.Within m →
      net.revert m.toDatum t = .ok (some (net.markingOf (net.takes j))) := by
    intro m hm hle hwithin
    rw [hrevert m hm (fun p => (hwithin p).1) hle, if_neg]
    intro hexceeds
    obtain ⟨p, _, hover⟩ := hexceeds
    exact absurd (hwithin p).2 (Int.not_le.mpr hover)
  refine ⟨_, _, minimalEnabling_eq hj, exactEffect_eq hj, fun p => ?_, fun x hx hfit => ?_,
    fire_taken hb hj, hrevert, fun hzero heffect => ⟨?_, ?_⟩⟩
  · exact ⟨tokens_markingOf _ p, tokens_markingOf _ p⟩
  · exact ⟨_, isEnabled_eq_atLeast hj hx hfit, decide_eq_true_iff⟩
  · refine hwithin _ (owns_markingOfWords _) (fun p => ?_) hzero
    rw [zero_eq, tokens_markingOf, tokens_markingOf]
    exact gives_nonneg hb p
  · exact hwithin _ (owns_markingOf _) (fun p => Int.le_refl _) heffect

/-- The mill, fired from the two measures of grain and the stone it takes, leaves the stone and three measures of
flour. Reverting leads from this, from two measures of flour and from nothing at all to the same marking. The
reservoir is not filled from the nothing it takes, because it gives more than fits. -/
theorem canonical_markings_mill :
    mill.fire (.str "turn") (millAt 2 1 0 0).toDatum = .ok (some (millAt 0 1 3 0)) ∧
      mill.isEnabled (.str "turn") (millAt 2 (-1) 0 0).toDatum = .ok false ∧
      mill.revert (millAt 0 0 2 0).toDatum (.str "turn") = .ok (some (millAt 2 1 0 0)) ∧
      mill.revert mill.zero.toDatum (.str "turn") = mill.revert (millAt 0 1 3 0).toDatum (.str "turn") ∧
      reservoir.fire (.str "fill") (tankAt 0).toDatum = .ok none := by
  have hindex : mill.transitionIndex (.str "turn") = .ok ⟨0, by decide⟩ := rfl
  have hfill : reservoir.transitionIndex (.str "fill") = .ok ⟨0, by decide⟩ := rfl
  obtain ⟨least, effect, hleast, heffect, _, henabled, hfire, hrevert, hsame⟩ :=
    canonical_markings mill_built hindex
  obtain rfl : millAt 2 1 0 0 = least := Except.ok.inj hleast
  obtain rfl : millAt 0 1 3 0 = effect := Except.ok.inj heffect
  obtain ⟨least, effect, hleast, heffect, _, _, hoverfull, _⟩ := canonical_markings reservoir_built hfill
  obtain rfl : tankAt 0 = least := Except.ok.inj hleast
  refine ⟨?_, ?_, ?_, ?_, ?_⟩
  · rw [hfire, if_pos (by decide)]
  · obtain ⟨enabled, hanswer, hiff⟩ := henabled (millAt 2 (-1) 0 0) (millAt_owns ..) (by decide)
    have hdisabled : ¬ enabled = true := by
      rw [hiff]
      decide
    rw [hanswer, Bool.eq_false_iff.mpr hdisabled]
  · rw [hrevert (millAt 0 0 2 0) (millAt_owns ..) (by decide) (by decide), if_neg (by decide)]
  · obtain ⟨hzero, hgiven⟩ := hsame (by decide) (by decide)
    rw [hzero, hgiven]
  · rw [hoverfull, if_neg (by decide)]

end Net

end Petri
