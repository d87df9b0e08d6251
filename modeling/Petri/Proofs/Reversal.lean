import Petri.Proofs.Runs

/-!
# Reverting undoes firing

Reverting forgets what it cannot know and returns the least predecessor of a marking, so it is no inverse of
firing in general. On the results of firing it is one: what a transition has given is there to be taken back,
and what it has taken is put back. The guards of the two directions differ, though. Firing looks at the places
that the transition gives to, reverting at those that it takes from, so that the places of the second kind
which are not of the first have never been compared.

> `revert_of_fires`: the result of reverting, with the one condition that is left of the guard;
> `revert_fire`: **reverting undoes firing**, always for the markings that the net accepts.
-/

namespace Petri

namespace Net

variable {net : Net} {t : Datum} {j : Fin net.transitions.length} {m m' : Marking}

/-- The places that transition `j` takes from without giving to them are within capacity. -/
def TakenWithin (net : Net) (j : Fin net.transitions.length) (m : Marking) : Prop :=
  ∀ p, 0 < net.takes j p → net.gives j p = 0 → m.tokens p ≤ net.capacityAt p

instance : Decidable (net.TakenWithin j m) :=
  inferInstanceAs (Decidable (∀ p, 0 < net.takes j p → net.gives j p = 0 →
    m.tokens p ≤ net.capacityAt p))

/-- After firing, the guard of reverting comes down to the places that are only taken from. -/
theorem revertible_iff (hb : net.Built) {w : Vector Int64 net.places.length}
    (hfits : (net.weights.get j).Fits net.capacity ((net.weights.get j).apply w)) :
    (net.weights.get j).Revertible net.capacity ((net.weights.get j).apply w) ↔
      net.TakenWithin j (net.markingOfWords ((net.weights.get j).apply w)) := by
  rw [Weights.revertible_apply_iff hfits]
  refine forall_congr' fun p => ?_
  have h0 := gives_nonneg (j := j) hb p
  have hgives : ¬ 0 < (net.weights.get j).post.get p ↔ net.gives j p = 0 := by
    rw [Weights.zero_lt_iff]
    show ¬ 0 < net.gives j p ↔ _
    omega
  rw [hgives, Weights.zero_lt_iff, Int64.le_iff_toInt_le, tokens_markingOfWords]
  rfl

/-- What reverting makes of the result of firing. -/
theorem revert_of_fires (hb : net.Built) (hj : net.transitionIndex t = .ok j)
    (hm : net.Countable m) (h : net.FiresExactly t m m') :
    net.revert m'.toDatum t
      = .ok (if net.TakenWithin j m' then some (net.markingOfWords (net.wordsOf m)) else none) := by
  obtain ⟨j', hj', hen, hfits, rfl⟩ := (fires_iff hm.1 hm.2.fitsWords).mp h.1
  obtain rfl : j' = j := Except.ok.inj (hj'.symm.trans hj)
  -- whatever the guard says, the vector is the one that firing began with
  have hback := Weights.unapply_apply (hb.sound j') hen (natural_iff.mpr h.2)
  rw [revert_eq (owns_markingOfWords _) (fitsWords_markingOfWords _), hj, ok_bind,
    wordsOf_markingOfWords, Weights.revert?, hback]
  simp only [revertible_iff hb hfits]
  split <;> rfl

theorem takenWithin_of_valid (hb : net.Built) (hj : net.transitionIndex t = .ok j)
    (hm : net.Valid m) (h : net.FiresExactly t m m') : net.TakenWithin j m' := by
  intro p htakes hgives
  have hcap := (hm.within p).2
  rw [h.tokens_eq hb hm.countable hj p]
  unfold sumAt
  omega

/-- **Reverting undoes firing.** Let a step without wrapped sums lead from `m` to `m'`. Reverting `m'` returns
the marking `m` if the places that are only taken from are within capacity afterwards, and nothing otherwise.
If the net accepts `m`, then it is returned. -/
theorem revert_fire (hb : net.Built) (hj : net.transitionIndex t = .ok j) (howns : net.Owns m)
    (hrange : net.InRange m) (hfires : net.fire t m.toDatum = .ok (some m'))
    (hexact : net.Nonnegative m') :
    (net.TakenWithin j m' →
        ∃ q, net.revert m'.toDatum t = .ok (some q) ∧ q.counts = m.counts ∧ (q == m) = true) ∧
      (¬ net.TakenWithin j m' → net.revert m'.toDatum t = .ok none) ∧
      ∀ x, net.marking x = .ok m → net.revert m'.toDatum t = .ok (some m) := by
  have hrevert := revert_of_fires hb hj ⟨howns, hrange⟩ ⟨hfires, hexact⟩
  refine ⟨fun htaken => ?_, fun htaken => ?_, fun x hx => ?_⟩
  · rw [if_pos htaken] at hrevert
    exact ⟨_, hrevert, counts_markingOfWords_wordsOf howns hrange.fitsWords,
      markingOfWords_wordsOf_beq howns hrange.fitsWords⟩
  · rw [if_neg htaken] at hrevert
    exact hrevert
  · have hvalid := valid_of_marking hx
    rw [if_pos (takenWithin_of_valid hb hj hvalid ⟨hfires, hexact⟩),
      markingOfWords_wordsOf howns hrange.fitsWords hvalid.places] at hrevert
    exact hrevert

/-- The lamp can be switched off and back. With three tokens for being on it can be switched off as well, but
what is left is beyond capacity and is not reverted. -/
theorem revert_fire_lamp :
    lamp.revert (lampAt 0 1).toDatum (.str "switchOff") = .ok (some (lampAt 1 0)) ∧
      lamp.revert (lampAt 2 1).toDatum (.str "switchOff") = .ok none := by
  constructor
  · have hfires : lamp.fire (.str "switchOff") (lampAt 1 0).toDatum = .ok (some (lampAt 0 1)) := rfl
    exact (revert_fire lamp_built (j := ⟨1, by decide⟩) rfl (lampAt_owns 1 0) (by decide) hfires
      (by decide)).2.2 (lampAt 1 0).toDatum rfl
  · have hfires : lamp.fire (.str "switchOff") (lampAt 3 0).toDatum = .ok (some (lampAt 2 1)) := rfl
    exact (revert_fire lamp_built (j := ⟨1, by decide⟩) rfl (lampAt_owns 3 0) (by decide) hfires
      (by decide)).2.1 (by decide)

end Net

end Petri
