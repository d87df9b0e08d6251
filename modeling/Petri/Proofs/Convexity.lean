import Petri.Proofs.ReversalRule

/-!
# Where a transition fires

The guards of firing pull in opposite directions: what has enough tokens still has enough with more of them, and what
has room still has it with fewer. A sum that wraps is on the side of too many. So the markings from which a transition
fires without wrapping lie between bounds at every place, and firing shifts all of them by the same amount:

> `firesExactly_iff`: a transition fires exactly from the markings of its region, and leaves the sums;
> `FiringRegion.between`: what lies between two markings of the region belongs to it;
> `sumAt_sub_sumAt`: sums of one transition differ as the markings do;
> `fire_between`: **the region is convex, and firing is a translation on it.**
-/

namespace Petri

namespace Net

variable {net : Net} {t : Datum} {j : Fin net.transitions.length} {m m' x y z x' z' : Marking}

/-- Transition `j` has its tokens in `m`, every sum is a word, and no place to which tokens are given ends above its
capacity. -/
structure FiringRegion (net : Net) (j : Fin net.transitions.length) (m : Marking) : Prop where
  enabled : ∀ p : Fin net.places.length, net.takes j p ≤ m.tokens p
  words : ∀ p, net.sumAt j m p ≤ mostTokens
  room : ∀ p, 0 < net.gives j p → net.sumAt j m p ≤ net.capacityAt p

/-- A transition fires without wrapped counts from the markings of its region, and leaves the sum at every place. -/
theorem firesExactly_iff (hb : net.Built) (hj : net.transitionIndex t = .ok j) (hm : net.Countable m) :
    net.FiresExactly t m m' ↔ net.FiringRegion j m ∧ m' = net.markingOf (net.sumAt j m) := by
  constructor
  · intro h
    have hstep := h.1.tokens hb hm.1 hm.2 hj
    have hwords : ∀ p, net.sumAt j m p ≤ mostTokens := fun p =>
      (h.1.nonneg_iff hb hm.1 hm.2 hj p).mp (h.2 p)
    refine ⟨⟨fun p => (hstep p).1, hwords, fun p hgives => ?_⟩, ?_⟩
    · rw [← h.tokens_eq hb hm hj p]
      exact (hstep p).2.2 hgives
    · have hfires := h.1
      rw [Fires, fire_eq_wrapped hb hj hm.1 hm.2] at hfires
      split at hfires
      case isFalse => cases hfires
      case isTrue =>
        rw [← Option.some.inj (Except.ok.inj hfires)]
        simp only [wrapped_of_le (hwords _)]
  · intro h
    obtain ⟨hregion, rfl⟩ := h
    refine ⟨?_, fun p => ?_⟩
    · rw [Fires, fire_eq_wrapped hb hj hm.1 hm.2]
      simp only [wrapped_of_le (hregion.words _)]
      rw [if_pos ⟨hregion.enabled, hregion.room⟩]
    · rw [tokens_markingOf]
      exact (sumAt_bounds hb hm.2 (hregion.enabled p)).1

theorem sumAt_sub_sumAt (p : Fin net.places.length) :
    net.sumAt j y p - net.sumAt j x p = y.tokens p - x.tokens p := by
  unfold sumAt
  omega

/-- Tokens suffice in a marking above the lower one, and there is room in a marking below the upper one. -/
theorem FiringRegion.between (hx : net.FiringRegion j x) (hz : net.FiringRegion j z) (hxy : net.AtLeast y x)
    (hyz : net.AtLeast z y) : net.FiringRegion j y := by
  have hbelow : ∀ p, net.sumAt j y p ≤ net.sumAt j z p := by
    intro p
    have hle := hyz p
    have hshift := sumAt_sub_sumAt (j := j) (x := y) (y := z) p
    omega
  exact ⟨fun p => Int.le_trans (hx.enabled p) (hxy p), fun p => Int.le_trans (hbelow p) (hz.words p),
    fun p hgives => Int.le_trans (hbelow p) (hz.room p hgives)⟩

/-- **Firing is a translation on a convex region.** If a transition fires without wrapped counts from two markings, it
does so from every marking between them, and the results differ at every place as the markings do. -/
theorem fire_between (hb : net.Built) (hx : net.Countable x) (hy : net.Owns y) (hz : net.Countable z)
    (hxy : net.AtLeast y x) (hyz : net.AtLeast z y) (hfx : net.FiresExactly t x x') (hfz : net.FiresExactly t z z') :
    ∃ y', net.FiresExactly t y y' ∧ ∀ p : Fin net.places.length,
      y'.tokens p - x'.tokens p = y.tokens p - x.tokens p ∧ z'.tokens p - y'.tokens p = z.tokens p - y.tokens p := by
  obtain ⟨j, hj, _⟩ := (fires_iff hx.1 hx.2.fitsWords).mp hfx.1
  have hcountable : net.Countable y :=
    ⟨hy, fun p => ⟨Int.le_trans (hx.2 p).1 (hxy p), Int.le_trans (hyz p) (hz.2 p).2⟩⟩
  obtain ⟨hlower, rfl⟩ := (firesExactly_iff hb hj hx).mp hfx
  obtain ⟨hupper, rfl⟩ := (firesExactly_iff hb hj hz).mp hfz
  have hregion := hlower.between hupper hxy hyz
  refine ⟨_, (firesExactly_iff hb hj hcountable).mpr ⟨hregion, rfl⟩, fun p => ?_⟩
  rw [tokens_markingOf, tokens_markingOf, tokens_markingOf]
  exact ⟨sumAt_sub_sumAt p, sumAt_sub_sumAt p⟩

/-- The mill turns with just the grain it takes and with as much flour as leaves room for what it gives. So it turns
with any amount of grain and flour in between, and with any water. -/
theorem fire_between_mill :
    mill.FiresExactly (.str "turn") (millAt 2 1 0 0) (millAt 0 1 3 0) ∧
      mill.FiresExactly (.str "turn") (millAt 9 1 17 9223372036854775807) (millAt 7 1 20 9223372036854775807) ∧
      ∃ q, mill.FiresExactly (.str "turn") (millAt 5 1 16 4) q ∧ q.tokens 2 = 19 := by
  have hlower : mill.FiresExactly (.str "turn") (millAt 2 1 0 0) (millAt 0 1 3 0) := ⟨rfl, by decide⟩
  have hupper : mill.FiresExactly (.str "turn") (millAt 9 1 17 9223372036854775807)
      (millAt 7 1 20 9223372036854775807) := ⟨rfl, by decide⟩
  obtain ⟨q, hfires, hshift⟩ := fire_between mill_built ⟨millAt_owns .., by decide⟩ (millAt_owns 5 1 16 4)
    ⟨millAt_owns .., by decide⟩ (by decide) (by decide) hlower hupper
  have hgained : q.tokens 2 - 3 = 16 - 0 := (hshift ⟨2, by decide⟩).1
  exact ⟨hlower, hupper, q, hfires, by omega⟩

end Net

end Petri
