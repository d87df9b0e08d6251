import Petri.Proofs.ReversalRule

/-!
# Reverting a join

The join of two markings holds at every place the larger of their counts. A predecessor is the least marking that
leads to enough, so what is needed for two goals at once should be the join of what is needed for each. It is, although
the two counts of a place may lie on different sides of what the transition gives there:

> `IsJoin.restoredAt`: the formula of reverting takes the larger count to the larger result;
> `IsJoin.within_iff`: the guard lets the join pass if it lets both pass;
> `revertsExactly_iff`: guard, formula and range are all that reverting depends on;
> `revert_preserves_joins`: **reverting a join gives the join of what reverting gives**, and so it is monotone.

A wrapped count is less than all others, and then the larger result is not the result of the larger count. Hence the
condition that nothing has wrapped.
-/

namespace Petri

namespace Net

variable {net : Net} {t : Datum} {j : Fin net.transitions.length} {m m₁ m₂ q : Marking}

/-! ## Joins -/

/-- `m` holds at every place the larger one of the counts of `m₁` and `m₂`. -/
def IsJoin (net : Net) (m m₁ m₂ : Marking) : Prop :=
  ∀ p : Fin net.places.length, m.tokens p = max (m₁.tokens p) (m₂.tokens p)

instance : Decidable (net.IsJoin m m₁ m₂) :=
  inferInstanceAs (Decidable (∀ p : Fin net.places.length, m.tokens p = max (m₁.tokens p) (m₂.tokens p)))

/-- The join, over the places of the net. -/
def join (net : Net) (m₁ m₂ : Marking) : Marking :=
  net.markingOf fun p => max (m₁.tokens p) (m₂.tokens p)

theorem isJoin_join : net.IsJoin (net.join m₁ m₂) m₁ m₂ :=
  fun p => tokens_markingOf _ p

theorem owns_join : net.Owns (net.join m₁ m₂) :=
  owns_markingOf _

theorem IsJoin.inRange (h : net.IsJoin m m₁ m₂) (h₁ : net.InRange m₁) (h₂ : net.InRange m₂) : net.InRange m := by
  intro p
  have hleft := h₁ p
  have hright := h₂ p
  rw [h p]
  omega

/-- Within capacity at the places that are taken from is the join exactly if both are. -/
theorem IsJoin.within_iff (h : net.IsJoin m m₁ m₂) :
    (∀ p, 0 < net.takes j p → m.tokens p ≤ net.capacityAt p) ↔
      (∀ p, 0 < net.takes j p → m₁.tokens p ≤ net.capacityAt p) ∧
        ∀ p, 0 < net.takes j p → m₂.tokens p ≤ net.capacityAt p := by
  unfold IsJoin at h
  simp only [h, Int.max_le, forall_and]

/-- Adding what is taken and removing what is given both keep the order, and so does stopping at zero. -/
theorem restoredAt_mono (h : net.AtLeast m₂ m₁) (p : Fin net.places.length) :
    net.restoredAt j m₁ p ≤ net.restoredAt j m₂ p := by
  have hle := h p
  unfold restoredAt
  omega

theorem IsJoin.restoredAt (h : net.IsJoin m m₁ m₂) (p : Fin net.places.length) :
    net.restoredAt j m p = max (net.restoredAt j m₁ p) (net.restoredAt j m₂ p) := by
  unfold Net.restoredAt
  rw [h p]
  omega

/-! ## What reverting depends on -/

theorem revert_eq_none_iff (hb : net.Built) (hj : net.transitionIndex t = .ok j) (hm : net.Countable m) :
    net.revert m.toDatum t = .ok none ↔ ¬ ∀ p, 0 < net.takes j p → m.tokens p ≤ net.capacityAt p := by
  rw [revert_eq_wrapped hb hj hm.1 hm.2]
  split
  case isTrue hwithin => exact iff_of_false (fun hnone => by cases hnone) (not_not_intro hwithin)
  case isFalse hexceeds => exact iff_of_true rfl hexceeds

/-- Reverting gives a marking without wrapped counts if the guard lets it pass and every number the formula gives is a
word, and then the marking holds these numbers. -/
theorem revertsExactly_iff (hb : net.Built) (hj : net.transitionIndex t = .ok j) (hm : net.Countable m) :
    net.RevertsExactly t m q ↔
      (∀ p, 0 < net.takes j p → m.tokens p ≤ net.capacityAt p) ∧
        (∀ p, net.restoredAt j m p ≤ mostTokens) ∧ q = net.markingOf (net.restoredAt j m) := by
  constructor
  · intro h
    have hwords : ∀ p, net.restoredAt j m p ≤ mostTokens := by
      intro p
      rw [← h.tokens_eq hb hj hm p]
      exact ((h.countable hm).2 p).2
    have hreverts := h.1
    rw [Reverts, revert_eq_wrapped hb hj hm.1 hm.2] at hreverts
    split at hreverts
    case isFalse => cases hreverts
    case isTrue hwithin =>
      refine ⟨hwithin, hwords, ?_⟩
      rw [← Option.some.inj (Except.ok.inj hreverts)]
      simp only [wrapped_of_le (hwords _)]
  · intro h
    obtain ⟨hwithin, hwords, rfl⟩ := h
    refine ⟨?_, fun p => ?_⟩
    · rw [Reverts, revert_eq_wrapped hb hj hm.1 hm.2, if_pos hwithin]
      simp only [wrapped_of_le (hwords _)]
    · rw [tokens_markingOf]
      exact (restoredAt_bounds hb hm.2 p).1

/-! ## Reverting and joins -/

/-- Where both are reverted without wrapping, so is their join, and to the join of what they are reverted to. -/
theorem RevertsExactly.join {q₁ q₂ : Marking} (hb : net.Built) (hj : net.transitionIndex t = .ok j)
    (h₁ : net.Countable m₁) (h₂ : net.Countable m₂) (hm : net.Countable m) (hjoin : net.IsJoin m m₁ m₂)
    (hq₁ : net.RevertsExactly t m₁ q₁) (hq₂ : net.RevertsExactly t m₂ q₂) :
    net.RevertsExactly t m (net.join q₁ q₂) := by
  obtain ⟨hwithin₁, hwords₁, rfl⟩ := (revertsExactly_iff hb hj h₁).mp hq₁
  obtain ⟨hwithin₂, hwords₂, rfl⟩ := (revertsExactly_iff hb hj h₂).mp hq₂
  refine (revertsExactly_iff hb hj hm).mpr ⟨hjoin.within_iff.mpr ⟨hwithin₁, hwithin₂⟩, fun p => ?_, ?_⟩
  · rw [hjoin.restoredAt p]
    exact Int.max_le.mpr ⟨hwords₁ p, hwords₂ p⟩
  · unfold Net.join
    congr 1
    funext p
    rw [tokens_markingOf, tokens_markingOf, hjoin.restoredAt p]

/-- A smaller marking is reverted where a larger one is, and to a smaller predecessor. -/
theorem RevertsExactly.mono {q₂ : Marking} (hb : net.Built) (hj : net.transitionIndex t = .ok j)
    (h₁ : net.Countable m₁) (h₂ : net.Countable m₂) (hle : net.AtLeast m₂ m₁) (hq₂ : net.RevertsExactly t m₂ q₂) :
    ∃ q₁, net.RevertsExactly t m₁ q₁ ∧ net.AtLeast q₂ q₁ := by
  obtain ⟨hwithin, hwords, rfl⟩ := (revertsExactly_iff hb hj h₂).mp hq₂
  have hreverts := (revertsExactly_iff (q := net.markingOf (net.restoredAt j m₁)) hb hj h₁).mpr
    ⟨fun p htakes => Int.le_trans (hle p) (hwithin p htakes),
      fun p => Int.le_trans (restoredAt_mono hle p) (hwords p), rfl⟩
  refine ⟨_, hreverts, fun p => ?_⟩
  rw [tokens_markingOf, tokens_markingOf]
  exact restoredAt_mono hle p

/-- **Reverting preserves joins.** Reverting a join returns nothing exactly if reverting one of the two markings
returns nothing. Where both are reverted to markings without wrapped counts, their join is reverted to the join of
these. In particular reverting is monotone: if the larger one of two comparable markings is reverted, so is the
smaller one, and where no count of the larger predecessor has wrapped, none of the smaller one has, and the
predecessors compare as the markings do. -/
theorem revert_preserves_joins (hb : net.Built) (hj : net.transitionIndex t = .ok j) (h₁ : net.Countable m₁)
    (h₂ : net.Countable m₂) :
    ∃ r₁ r₂, net.revert m₁.toDatum t = .ok r₁ ∧ net.revert m₂.toDatum t = .ok r₂ ∧
      (∀ m, net.Owns m → net.IsJoin m m₁ m₂ →
        ∃ r, net.revert m.toDatum t = .ok r ∧ (r = none ↔ r₁ = none ∨ r₂ = none) ∧
          ∀ q₁ q₂, r₁ = some q₁ → r₂ = some q₂ → net.Nonnegative q₁ → net.Nonnegative q₂ →
            r = some (net.join q₁ q₂)) ∧
      (net.AtLeast m₂ m₁ → (r₁ = none → r₂ = none) ∧
        ∀ q₂, r₂ = some q₂ → net.Nonnegative q₂ →
          ∃ q₁, r₁ = some q₁ ∧ net.Nonnegative q₁ ∧ net.AtLeast q₂ q₁) := by
  obtain ⟨r₁, hr₁⟩ : ∃ r, net.revert m₁.toDatum t = .ok r := ⟨_, revert_eq_wrapped hb hj h₁.1 h₁.2⟩
  obtain ⟨r₂, hr₂⟩ : ∃ r, net.revert m₂.toDatum t = .ok r := ⟨_, revert_eq_wrapped hb hj h₂.1 h₂.2⟩
  have hnone₁ := revert_eq_none_iff hb hj h₁
  have hnone₂ := revert_eq_none_iff hb hj h₂
  rw [hr₁, Except.ok.injEq] at hnone₁
  rw [hr₂, Except.ok.injEq] at hnone₂
  refine ⟨r₁, r₂, hr₁, hr₂, fun m hm hjoin => ?_, fun hle => ⟨fun hnone => ?_, fun q₂ hq₂ hnonneg => ?_⟩⟩
  · have hcountable : net.Countable m := ⟨hm, hjoin.inRange h₁.2 h₂.2⟩
    obtain ⟨r, hr⟩ : ∃ r, net.revert m.toDatum t = .ok r := ⟨_, revert_eq_wrapped hb hj hm hcountable.2⟩
    have hnone := revert_eq_none_iff hb hj hcountable
    rw [hr, Except.ok.injEq] at hnone
    refine ⟨r, hr, ?_, fun q₁ q₂ hq₁ hq₂ hnonneg₁ hnonneg₂ => ?_⟩
    · rw [hnone, hnone₁, hnone₂, hjoin.within_iff, Classical.not_and_iff_not_or_not]
    · subst hq₁ hq₂
      have hexact := RevertsExactly.join hb hj h₁ h₂ hcountable hjoin ⟨hr₁, hnonneg₁⟩ ⟨hr₂, hnonneg₂⟩
      exact Except.ok.inj (hr.symm.trans hexact.1)
  · refine hnone₂.mpr fun hwithin => hnone₁.mp hnone fun p htakes => ?_
    exact Int.le_trans (hle p) (hwithin p htakes)
  · subst hq₂
    obtain ⟨q₁, hexact, hatLeast⟩ := RevertsExactly.mono hb hj h₁ h₂ hle ⟨hr₂, hnonneg⟩
    exact ⟨q₁, Except.ok.inj (hr₁.symm.trans hexact.1), hexact.2, hatLeast⟩

/-- Of one measure of flour nothing is left when the three are gone that the mill gives, of five there are two. The
join has five, and the join of the predecessors is its predecessor. With two stones in one of the markings there is no
predecessor of that one, nor of the join. -/
theorem revert_preserves_joins_mill :
    mill.revert (millAt 5 1 5 7).toDatum (.str "turn") = .ok (some (millAt 7 1 2 7)) ∧
      mill.revert (mill.join (millAt 5 1 1 2) (millAt 0 2 5 7)).toDatum (.str "turn") = .ok none ∧
      ∃ q, mill.revert (millAt 5 1 1 2).toDatum (.str "turn") = .ok (some q) ∧
        mill.AtLeast (millAt 7 1 2 7) q := by
  have hindex : mill.transitionIndex (.str "turn") = .ok ⟨0, by decide⟩ := rfl
  have hsmall : mill.Countable (millAt 5 1 1 2) := ⟨millAt_owns .., by decide⟩
  have hlarge : mill.Countable (millAt 0 0 5 7) := ⟨millAt_owns .., by decide⟩
  have hfull : mill.Countable (millAt 0 2 5 7) := ⟨millAt_owns .., by decide⟩
  have hboth : mill.Countable (millAt 5 1 5 7) := ⟨millAt_owns .., by decide⟩
  have hsmaller : mill.Reverts (.str "turn") (millAt 5 1 1 2) (millAt 7 1 0 2) := rfl
  have hlarger : mill.Reverts (.str "turn") (millAt 0 0 5 7) (millAt 2 1 2 7) := rfl
  have hnone : mill.revert (millAt 0 2 5 7).toDatum (.str "turn") = .ok none := rfl
  have hreverts : mill.revert (millAt 5 1 5 7).toDatum (.str "turn") = .ok (some (millAt 7 1 2 7)) := by
    obtain ⟨r₁, r₂, hr₁, hr₂, hjoins, _⟩ := revert_preserves_joins mill_built hindex hsmall hlarge
    obtain ⟨r, hr, _, hjoin⟩ := hjoins (millAt 5 1 5 7) (millAt_owns ..) (by decide)
    rw [hr, hjoin _ _ (Except.ok.inj (hr₁.symm.trans hsmaller)) (Except.ok.inj (hr₂.symm.trans hlarger)) (by decide)
      (by decide)]
    rfl
  refine ⟨hreverts, ?_, ?_⟩
  · obtain ⟨r₁, r₂, _, hr₂, hjoins, _⟩ := revert_preserves_joins mill_built hindex hsmall hfull
    obtain ⟨r, hr, hiff, _⟩ := hjoins _ owns_join isJoin_join
    rw [hr, hiff.mpr (.inr (Except.ok.inj (hr₂.symm.trans hnone)))]
  · obtain ⟨r₁, r₂, hr₁, hr₂, _, hmono⟩ := revert_preserves_joins mill_built hindex hsmall hboth
    obtain ⟨q₁, rfl, _, hatLeast⟩ :=
      (hmono (by decide)).2 (millAt 7 1 2 7) (Except.ok.inj (hr₂.symm.trans hreverts)) (by decide)
    exact ⟨q₁, hr₁, hatLeast⟩

end Net

end Petri
