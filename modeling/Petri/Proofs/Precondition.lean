import Petri.Proofs.Reversal

/-!
# Weakest preconditions

Reverting a marking under a sequence of transitions, the last one first, asks what must be there before the
sequence for the marking to be covered after it. For one transition, firing and reverting are adjoint
(`FiresExactly.atLeast_iff`); the sequence follows by induction from its first transition, which is the last
one to be reverted:

> `run_atLeast_iff`: an exact run ends above `m` exactly if it starts above what reverting `m` returns;
> `run_enabled`: from above that, the run can stop short only where a capacity forbids to go on.

Both together are `weakest_precondition`.
-/

namespace Petri

namespace Net

variable {net : Net} {t : Datum} {ts : List Datum} {m p x y : Marking}

/-! ## One transition -/

/-- **Firing and reverting are adjoint**: a step from `x` ends above `m` exactly if `x` is above the
predecessor of `m`. -/
theorem FiresExactly.atLeast_iff (hb : net.Built) (hm : net.Countable m) (hx : net.Countable x)
    (hback : net.RevertsExactly t m p) (h : net.FiresExactly t x y) :
    net.AtLeast y m ↔ net.AtLeast x p := by
  have hp := hback.countable hm
  have hy := h.countable hx
  rw [← covers_wordsOf_iff hm.2.fitsWords hy.2.fitsWords,
    ← covers_wordsOf_iff hp.2.fitsWords hx.2.fitsWords]
  obtain ⟨j, hj, _, rfl⟩ := (reverts_iff hm.1 hm.2.fitsWords).mp hback.1
  obtain ⟨j', hj', hen, _, rfl⟩ := (fires_iff hx.1 hx.2.fitsWords).mp h.1
  obtain rfl : j' = j := Except.ok.inj (hj'.symm.trans hj)
  rw [wordsOf_markingOfWords, wordsOf_markingOfWords]
  exact Weights.covers_apply_iff (hb.sound j') (natural_wordsOf hm.2) (natural_iff.mpr hback.2) hen
    (natural_iff.mpr h.2)

theorem enabled_of_atLeast (hb : net.Built) (hm : net.Countable m) (hx : net.Countable x)
    (hback : net.RevertsExactly t m p) (hle : net.AtLeast x p) :
    ∃ j, net.transitionIndex t = .ok j ∧ (net.weights.get j).Enabled (net.wordsOf x) := by
  have hp := hback.countable hm
  have hcovers := (covers_wordsOf_iff hp.2.fitsWords hx.2.fitsWords).mpr hle
  obtain ⟨j, hj, _, rfl⟩ := (reverts_iff hm.1 hm.2.fitsWords).mp hback.1
  rw [wordsOf_markingOfWords] at hcovers
  exact ⟨j, hj, Weights.enabled_of_covers (hb.sound j) (natural_wordsOf hm.2)
    (natural_iff.mpr hback.2) hcovers⟩

/-- The sum at some place that `t` gives to, as a word, is beyond the capacity of the place. -/
def Congested (net : Net) (t : Datum) (x : Marking) : Prop :=
  ∃ j q, net.transitionIndex t = .ok j ∧ 0 < net.gives j q ∧
    net.capacityAt q < wrapped (net.sumAt j x q)

theorem congested_of_refused (hb : net.Built) {j : Fin net.transitions.length}
    (hx : net.Countable x) (hj : net.transitionIndex t = .ok j)
    (hen : (net.weights.get j).Enabled (net.wordsOf x)) (h : net.fire t x.toDatum = .ok none) :
    net.Congested t x := by
  by_cases hfits : (net.weights.get j).Fits net.capacity ((net.weights.get j).apply (net.wordsOf x))
  · rw [fire_eq hx.1 hx.2.fitsWords, hj, ok_bind, Weights.fire?, if_pos ⟨hen, hfits⟩] at h
    cases h
  · rw [fits_apply_iff hb hx.2 hen] at hfits
    obtain ⟨q, hq⟩ := Classical.not_forall.mp hfits
    obtain ⟨hgives, hover⟩ := Classical.not_imp.mp hq
    exact ⟨j, q, hj, hgives, Int.not_le.mp hover⟩

/-! ## Sequences -/

theorem run_atLeast_iff (hb : net.Built) (hm : net.Countable m) (hx : net.Countable x)
    (hback : Run net.RevertsExactly ts.reverse m p) (h : Run net.FiresExactly ts x y) :
    net.AtLeast y m ↔ net.AtLeast x p := by
  -- the first transition of the sequence is the last one to be reverted
  induction ts generalizing x p with
  | nil =>
    rw [Run.nil_iff.mp hback, Run.nil_iff.mp h]
  | cons t ts ih =>
    rw [List.reverse_cons, Run.append_iff] at hback
    obtain ⟨p', hback, hlast⟩ := hback
    obtain ⟨x', hfirst, h⟩ := Run.cons_iff.mp h
    have hp' := run_reverts_countable hm hback
    calc net.AtLeast y m
      _ ↔ net.AtLeast x' p' := ih (hfirst.countable hx) hback h
      _ ↔ net.AtLeast x p := hfirst.atLeast_iff hb hp' hx (Run.singleton_iff.mp hlast)

/-- Before every transition of the sequence, the run is above what was reverted so far. -/
theorem run_enabled (hb : net.Built) (hm : net.Countable m) (hx : net.Countable x)
    {before after : List Datum}
    (hback : Run net.RevertsExactly (before ++ t :: after).reverse m p) (hle : net.AtLeast x p)
    (h : Run net.FiresExactly before x y) :
    ∃ j, net.transitionIndex t = .ok j ∧ (net.weights.get j).Enabled (net.wordsOf y) := by
  rw [List.reverse_append, List.reverse_cons, List.append_assoc, Run.append_iff] at hback
  -- reverting the whole passes the marking after `t` and the marking before `t` on its way
  obtain ⟨m₁, hafter, hback⟩ := hback
  obtain ⟨m₂, hstep, hback⟩ := Run.append_iff.mp hback
  have hm₁ := run_reverts_countable hm hafter
  have hstep := Run.singleton_iff.mp hstep
  have hle := (run_atLeast_iff hb (hstep.countable hm₁) hx hback h).mpr hle
  exact enabled_of_atLeast hb hm₁ (run_fires_countable hx h) hstep hle

/-- **Reverting computes the weakest precondition.** Let reverting `m` under the sequence `ts`, the last
transition first, end in `p` without wrapped sums. An exact run of `ts` from `x` ends above `m` exactly if `x`
is above `p`. If `x` is above `p`, then after every exact run of a part of `ts` the next transition is
enabled, and it is refused only at a place that would hold more than its capacity. -/
theorem weakest_precondition (hb : net.Built) (hm : net.Owns m) (hmrange : net.InRange m)
    (hback : Run net.RevertsExactly ts.reverse m p) (hx : net.Owns x) (hxrange : net.InRange x) :
    (∀ y, Run net.FiresExactly ts x y → (net.AtLeast y m ↔ net.AtLeast x p)) ∧
      (net.AtLeast x p → ∀ before t after y, ts = before ++ t :: after →
        Run net.FiresExactly before x y →
          net.isEnabled t y.toDatum = .ok true ∧
          (net.fire t y.toDatum = .ok none → net.Congested t y)) := by
  have hm' : net.Countable m := ⟨hm, hmrange⟩
  have hx' : net.Countable x := ⟨hx, hxrange⟩
  refine ⟨fun y h => run_atLeast_iff hb hm' hx' hback h, ?_⟩
  intro hle before t after y hts h
  rw [hts] at hback
  have hy := run_fires_countable hx' h
  obtain ⟨j, hj, hen⟩ := run_enabled hb hm' hx' hback hle h
  refine ⟨?_, congested_of_refused hb hy hj hen⟩
  rw [isEnabled_eq hy.1 hy.2.fitsWords, hj, ok_bind, decide_eq_true hen]

/-- Switching the lamp off and on again needs that it is on. -/
theorem weakest_precondition_lamp :
    lamp.AtLeast (lampAt 1 0) (lampAt 1 0) ∧
      lamp.isEnabled (.str "switchOn") (lampAt 0 1).toDatum = .ok true := by
  have hunOn : lamp.RevertsExactly (.str "switchOn") (lampAt 1 0) (lampAt 0 1) := ⟨rfl, by decide⟩
  have hunOff : lamp.RevertsExactly (.str "switchOff") (lampAt 0 1) (lampAt 1 0) := ⟨rfl, by decide⟩
  have hback : Run lamp.RevertsExactly [.str "switchOff", .str "switchOn"].reverse (lampAt 1 0)
      (lampAt 1 0) := .cons hunOn (.cons hunOff (.nil _))
  have hoff : lamp.FiresExactly (.str "switchOff") (lampAt 1 0) (lampAt 0 1) := ⟨rfl, by decide⟩
  have hon : lamp.FiresExactly (.str "switchOn") (lampAt 0 1) (lampAt 1 0) := ⟨rfl, by decide⟩
  obtain ⟨hends, hgoes⟩ := weakest_precondition lamp_built (lampAt_owns 1 0) (by decide) hback
    (lampAt_owns 1 0) (by decide)
  have hle := (hends _ (.cons hoff (.cons hon (.nil _)))).mp (by decide)
  exact ⟨hle, (hgoes hle [.str "switchOff"] (.str "switchOn") [] _ rfl (.cons hoff (.nil _))).1⟩

end Net

end Petri
