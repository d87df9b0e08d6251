import Petri.Proofs.Boundedness

/-!
# The rule of firing

A transition is meant to fire in whole numbers: every place needs what is taken from it, no place to which tokens
are given may end above its capacity, and then every place ends with the sum (`Net.firingRule`). Words differ from
this where a sum is too large for them. It comes back negative, and a negative count passes the comparison with a
capacity, so that the place which is filled most of all is the one that refuses nothing.

> `fire_eq_wrapped`: what firing returns for every marking of a net, with all sums wrapped;
> `wrapped_le_capacity_iff`: a wrapped sum passes if it is within capacity or no word;
> `Net.Escapes`: no place is short of tokens, some sum is no word, and all other places would not refuse;
> `fire_follows_rule`: **firing follows the rule exactly if the transition does not escape it.**
-/

namespace Petri

namespace Net

variable {net : Net} {t : Datum} {j : Fin net.transitions.length} {m : Marking}

/-! ## What firing returns -/

/-- A transition that misses tokens at some place does not fire. The counts may be any words. -/
theorem fire_of_missing (hj : net.transitionIndex t = .ok j) (hm : net.Owns m) (hfit : net.FitsWords m)
    {p : Fin net.places.length} (hmissing : m.tokens p < net.takes j p) :
    net.fire t m.toDatum = .ok none := by
  have hdisabled : ¬ (net.weights.get j).Enabled (net.wordsOf m) := by
    rw [enabled_wordsOf_iff hfit]
    intro htakes
    exact absurd (htakes p) (Int.not_le.mpr hmissing)
  rw [fire_eq hm hfit, hj, ok_bind, Weights.fire?, if_neg fun h => hdisabled h.1]
  rfl

/-- What firing returns, in whole numbers: the tokens must be there, and the wrapped sums are compared and kept. -/
theorem fire_eq_wrapped (hb : net.Built) (hj : net.transitionIndex t = .ok j) (hm : net.Owns m)
    (hrange : net.InRange m) :
    net.fire t m.toDatum
      = .ok (if (∀ p, net.takes j p ≤ m.tokens p) ∧
            ∀ p, 0 < net.gives j p → wrapped (net.sumAt j m p) ≤ net.capacityAt p then
          some (net.markingOf fun p => wrapped (net.sumAt j m p))
        else none) := by
  by_cases htakes : ∀ p, net.takes j p ≤ m.tokens p
  · have hen := (enabled_wordsOf_iff hrange.fitsWords j).mpr htakes
    have hresult : net.markingOfWords ((net.weights.get j).apply (net.wordsOf m))
        = net.markingOf fun p => wrapped (net.sumAt j m p) := by
      rw [markingOfWords_eq]
      congr 1
      funext p
      rw [← tokens_markingOfWords, tokens_apply hb hrange hen]
    rw [fire_eq hm hrange.fitsWords, hj, ok_bind, Weights.fire?]
    simp only [hen, fits_apply_iff hb hrange hen, htakes, implies_true, true_and, ← hresult]
    split <;> rfl
  · obtain ⟨p, hp⟩ := Classical.not_forall.mp htakes
    rw [fire_of_missing hj hm hrange.fitsWords (Int.not_le.mp hp), if_neg fun h => htakes h.1]

/-! ## The rule -/

/-- The rule of firing. Transition `j` does not fire if a place holds less than is taken from it, nor if a place to
which tokens are given would hold more than its capacity. Otherwise every place loses what is taken and gets what is
given. -/
def firingRule (net : Net) (j : Fin net.transitions.length) (m : Marking) : Option Marking :=
  if ∃ p : Fin net.places.length, m.tokens p < net.takes j p then none
  else if ∃ p, 0 < net.gives j p ∧ net.capacityAt p < net.sumAt j m p then none
  else some (net.markingOf (net.sumAt j m))

/-- Transition `j` has all its tokens in `m`, the sum at some place is too large for a word, and no other place to
which tokens are given would hold more than its capacity. -/
structure Escapes (net : Net) (j : Fin net.transitions.length) (m : Marking) : Prop where
  enabled : ∀ p : Fin net.places.length, net.takes j p ≤ m.tokens p
  overflows : ∃ p, mostTokens < net.sumAt j m p
  others : ∀ p, 0 < net.gives j p → net.sumAt j m p ≤ mostTokens → net.sumAt j m p ≤ net.capacityAt p

theorem firingRule_of_missing {p : Fin net.places.length} (hmissing : m.tokens p < net.takes j p) :
    net.firingRule j m = none :=
  if_pos ⟨p, hmissing⟩

theorem firingRule_of_enabled (htakes : ∀ p, net.takes j p ≤ m.tokens p) :
    net.firingRule j m
      = if ∀ p, 0 < net.gives j p → net.sumAt j m p ≤ net.capacityAt p then some (net.markingOf (net.sumAt j m))
        else none := by
  have hnone : ¬ ∃ p : Fin net.places.length, m.tokens p < net.takes j p := by
    intro h
    obtain ⟨p, hp⟩ := h
    exact absurd (htakes p) (Int.not_le.mpr hp)
  have hguard : (∃ p, 0 < net.gives j p ∧ net.capacityAt p < net.sumAt j m p) ↔
      ¬ ∀ p, 0 < net.gives j p → net.sumAt j m p ≤ net.capacityAt p := by
    simp only [Classical.not_forall, Int.not_le, exists_prop]
  rw [firingRule, if_neg hnone]
  simp only [hguard, ite_not]

/-- A sum that is no word shows that tokens are given, for what is held less what is taken is a word. -/
theorem gives_pos_of_overflow (hb : net.Built) (hrange : net.InRange m) {p : Fin net.places.length}
    (hover : mostTokens < net.sumAt j m p) : 0 < net.gives j p := by
  have htakes := takes_nonneg (j := j) hb p
  have hmost := (hrange p).2
  unfold sumAt at hover
  omega

/-- Against a capacity that is not negative, a wrapped sum passes if it is within capacity or no word. -/
theorem wrapped_le_capacity_iff (hb : net.Built) (hrange : net.InRange m) {p : Fin net.places.length}
    (hcap : 0 ≤ net.capacityAt p) (htakes : net.takes j p ≤ m.tokens p) :
    wrapped (net.sumAt j m p) ≤ net.capacityAt p ↔
      (net.sumAt j m p ≤ mostTokens → net.sumAt j m p ≤ net.capacityAt p) := by
  obtain ⟨_, h2⟩ := sumAt_bounds hb hrange htakes
  rw [mostTokens_eq] at h2
  unfold wrapped
  rw [mostTokens_eq]
  split <;> omega

/-- The rule refuses a transition at a place where the sum is no word, for no capacity is that large. -/
theorem firingRule_of_overflow (hb : net.Built) (hrange : net.InRange m) (htakes : ∀ p, net.takes j p ≤ m.tokens p)
    {p : Fin net.places.length} (hover : mostTokens < net.sumAt j m p) : net.firingRule j m = none := by
  rw [firingRule_of_enabled htakes, if_neg]
  intro hfits
  have hle := hfits p (gives_pos_of_overflow hb hrange hover)
  have hmost : net.capacityAt p ≤ mostTokens := Weights.toInt_le_most _
  omega

theorem Escapes.fire_eq (hb : net.Built) (hcap : ∀ p, 0 ≤ net.capacityAt p)
    (hj : net.transitionIndex t = .ok j) (hm : net.Owns m) (hrange : net.InRange m) (h : net.Escapes j m) :
    net.fire t m.toDatum = .ok (some (net.markingOf fun p => wrapped (net.sumAt j m p))) := by
  rw [fire_eq_wrapped hb hj hm hrange, if_pos]
  refine ⟨h.enabled, fun p hgives => ?_⟩
  exact (wrapped_le_capacity_iff hb hrange (hcap p) (h.enabled p)).mpr (h.others p hgives)

/-- Without an escape, what passes the comparison of words is within capacity in whole numbers. -/
theorem fire_eq_firingRule (hb : net.Built) (hcap : ∀ p, 0 ≤ net.capacityAt p)
    (hj : net.transitionIndex t = .ok j) (hm : net.Owns m) (hrange : net.InRange m) (h : ¬ net.Escapes j m) :
    net.fire t m.toDatum = .ok (net.firingRule j m) := by
  by_cases htakes : ∀ p, net.takes j p ≤ m.tokens p
  · rw [fire_eq_wrapped hb hj hm hrange]
    by_cases hwords : ∀ p, net.sumAt j m p ≤ mostTokens
    · rw [firingRule_of_enabled htakes]
      simp only [wrapped_of_le (hwords _), htakes, implies_true, true_and]
    · -- some sum is no word, and then another place must refuse, or the transition would escape
      obtain ⟨p, hp⟩ := Classical.not_forall.mp hwords
      have hover := Int.not_le.mp hp
      rw [firingRule_of_overflow hb hrange htakes hover, if_neg]
      intro hpasses
      rcases hpasses with ⟨_, hpasses⟩
      refine h ⟨htakes, ⟨p, hover⟩, fun q hgives => ?_⟩
      exact (wrapped_le_capacity_iff hb hrange (hcap q) (htakes q)).mp (hpasses q hgives)
  · obtain ⟨p, hp⟩ := Classical.not_forall.mp htakes
    have hmissing := Int.not_le.mp hp
    rw [fire_of_missing hj hm hrange.fitsWords hmissing, firingRule_of_missing hmissing]

/-- **Firing follows the rule, except where a sum overflows and nothing else refuses.** Let no capacity be negative.
Firing returns what the rule says exactly if the transition does not escape it. If it does, the rule says that
nothing fires, and firing returns a marking: it holds the sum less `2 ^ 64`, a negative count, exactly where the sum
is no word, and the sum at all other places. -/
theorem fire_follows_rule (hb : net.Built) (hcap : ∀ p, 0 ≤ net.capacityAt p)
    (hj : net.transitionIndex t = .ok j) (hm : net.Owns m) (hrange : net.InRange m) :
    (net.fire t m.toDatum = .ok (net.firingRule j m) ↔ ¬ net.Escapes j m) ∧
      (net.Escapes j m → net.firingRule j m = none ∧
        ∃ m', net.fire t m.toDatum = .ok (some m') ∧ net.Owns m' ∧ m'.places = net.places ∧
          ∀ p : Fin net.places.length,
            (mostTokens < net.sumAt j m p →
              m'.tokens p = net.sumAt j m p - 18446744073709551616 ∧ m'.tokens p < 0) ∧
            (net.sumAt j m p ≤ mostTokens → m'.tokens p = net.sumAt j m p ∧ 0 ≤ m'.tokens p)) := by
  have hrefused : net.Escapes j m → net.firingRule j m = none := by
    intro hescapes
    obtain ⟨p, hover⟩ := hescapes.overflows
    exact firingRule_of_overflow hb hrange hescapes.enabled hover
  refine ⟨⟨fun hfire hescapes => ?_, fire_eq_firingRule hb hcap hj hm hrange⟩, fun hescapes => ?_⟩
  · -- the rule says that nothing fires, and something does
    rw [hescapes.fire_eq hb hcap hj hm hrange, hrefused hescapes] at hfire
    cases hfire
  · refine ⟨hrefused hescapes, _, hescapes.fire_eq hb hcap hj hm hrange,
      owns_markingOf _, places_markingOf _, fun p => ?_⟩
    obtain ⟨h0, h2⟩ := sumAt_bounds hb hrange (hescapes.enabled p)
    rw [tokens_markingOf]
    refine ⟨fun hover => ?_, fun hle => ?_⟩
    · have hwraps : wrapped (net.sumAt j m p) = net.sumAt j m p - 18446744073709551616 :=
        if_neg (Int.not_le.mpr hover)
      rw [mostTokens_eq] at h2
      exact ⟨hwraps, by omega⟩
    · rw [wrapped_of_le hle]
      exact ⟨rfl, h0⟩

theorem reservoir_owns (tokens : Int) : reservoir.Owns (tankAt tokens) :=
  ⟨rfl, fun _ hc => ⟨tokens, List.mem_singleton.mp hc⟩⟩

/-- The empty tank has no room for what filling gives, and it is not filled. From one token on the sum is no word, and
it is. -/
theorem fire_follows_rule_reservoir :
    (∀ p, 0 ≤ reservoir.capacityAt p) ∧
      reservoir.fire (.str "fill") (tankAt 0).toDatum = .ok (reservoir.firingRule ⟨0, by decide⟩ (tankAt 0)) ∧
      reservoir.firingRule ⟨0, by decide⟩ (tankAt 0) = none ∧
      reservoir.firingRule ⟨0, by decide⟩ (tankAt 1) = none ∧
      ∃ m', reservoir.fire (.str "fill") (tankAt 1).toDatum = .ok (some m') ∧
        m'.tokens 0 = -9223372036854775808 := by
  have hcap : ∀ p, 0 ≤ reservoir.capacityAt p := by decide
  have hindex : reservoir.transitionIndex (.str "fill") = .ok ⟨0, by decide⟩ := rfl
  obtain ⟨hfollows, _⟩ := fire_follows_rule reservoir_built hcap hindex (reservoir_owns 0) (by decide)
  obtain ⟨_, hescaped⟩ := fire_follows_rule reservoir_built hcap hindex (reservoir_owns 1) (by decide)
  have hstays : ¬ reservoir.Escapes ⟨0, by decide⟩ (tankAt 0) := by
    intro h
    have hwords : ∀ p, reservoir.sumAt ⟨0, by decide⟩ (tankAt 0) p ≤ mostTokens := by decide
    obtain ⟨p, hp⟩ := h.overflows
    exact absurd (hwords p) (Int.not_le.mpr hp)
  have hescapes : reservoir.Escapes ⟨0, by decide⟩ (tankAt 1) :=
    ⟨by decide, ⟨⟨0, by decide⟩, by decide⟩, by decide⟩
  obtain ⟨hrule, m', hfire, _, _, htokens⟩ := hescaped hescapes
  refine ⟨hcap, hfollows.mpr hstays, by decide, hrule, m', hfire, ?_⟩
  exact ((htokens ⟨0, by decide⟩).1 (by decide)).1

end Net

end Petri
