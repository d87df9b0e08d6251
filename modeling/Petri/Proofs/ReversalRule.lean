import Petri.Net.Canonical
import Petri.Proofs.FiringRule

/-!
# The rule of reverting

Reverting tells four shapes of arcs apart, and where a place has arcs both ways or only takes, one half of the cases
again by what the place holds (`Net.predecessorCount`). In whole numbers all of this is one formula: what was taken,
on top of what is left when that which was given is gone (`Net.restoredAt`). Words wrap where this is too much.

> `predecessorCount_eq`: the cases are the formula;
> `revert_closed_form`: **reverting returns the formula in words**, if the places that are taken from are within
> capacity;
> `sumAt_restored`: what was restored at a place and is fired again adds up to the larger of what the place held and
> what it is given;
> `fire_revert`: **firing the predecessor returns that**, so it comes back to the marking exactly if the marking has
> all that the transition gives.
-/

namespace Petri

namespace Net

variable {net : Net} {t : Datum} {j : Fin net.transitions.length} {m q : Marking} {p : Fin net.places.length}

/-! ## The formula -/

/-- The predecessor of a count by the arcs that the place has: both ways, only to the transition, only from it, or
none. -/
def predecessorCount (net : Net) (j : Fin net.transitions.length) (m : Marking) (p : Fin net.places.length) : Int :=
  if 0 < net.takes j p then
    if 0 < net.gives j p then
      if m.tokens p ≤ net.gives j p then net.takes j p else m.tokens p + net.takes j p - net.gives j p
    else m.tokens p + net.takes j p
  else if 0 < net.gives j p then
    if m.tokens p ≤ net.gives j p then 0 else m.tokens p - net.gives j p
  else m.tokens p

/-- What was taken, on top of what is left when that which was given is gone. -/
def restoredAt (net : Net) (j : Fin net.transitions.length) (m : Marking) (p : Fin net.places.length) : Int :=
  net.takes j p + max 0 (m.tokens p - net.gives j p)

theorem predecessorCount_eq (hb : net.Built) (hrange : net.InRange m) (p : Fin net.places.length) :
    net.predecessorCount j m p = net.restoredAt j m p := by
  have htakes := takes_nonneg (j := j) hb p
  have hgives := gives_nonneg (j := j) hb p
  have hcount := (hrange p).1
  unfold predecessorCount restoredAt
  split
  case isTrue =>
    split
    case isTrue => split <;> omega
    case isFalse => omega
  case isFalse =>
    split
    case isTrue => split <;> omega
    case isFalse => omega

theorem restoredAt_bounds (hb : net.Built) (hrange : net.InRange m) (p : Fin net.places.length) :
    0 ≤ net.restoredAt j m p ∧ net.restoredAt j m p ≤ 2 * mostTokens := by
  have htakes := takes_nonneg (j := j) hb p
  have htakes' : net.takes j p ≤ mostTokens := Weights.toInt_le_most _
  have hgives := gives_nonneg (j := j) hb p
  have hcount := hrange p
  unfold restoredAt
  omega

/-- Where nothing was taken there is not more than before, which is a word. -/
theorem takes_pos_of_overflow (hb : net.Built) (hrange : net.InRange m) (hover : mostTokens < net.restoredAt j m p) :
    0 < net.takes j p := by
  have hgives := gives_nonneg (j := j) hb p
  have hcount := hrange p
  unfold restoredAt at hover
  omega

/-! ## A mill with arcs of all shapes -/

/-- A mill takes two measures of grain and gives three of flour. It needs its stone, and the water only flows by. -/
def mill : Net where
  places := [.str "grain", .str "stone", .str "flour", .str "water"]
  transitions := [.str "turn"]
  capacity := #v[9223372036854775807, 1, 20, 20]
  weights := #v[⟨#v[2, 1, 0, 0], #v[0, 1, 3, 0]⟩]

theorem mill_built : mill.Built :=
  ⟨.list [.str "grain", .str "stone", .str "flour", .str "water"], .list [.str "turn"],
    [⟨.str "grain", .str "turn", 2, .pre, by decide⟩, ⟨.str "stone", .str "turn", 1, .pre, by decide⟩,
      ⟨.str "stone", .str "turn", 1, .post, by decide⟩, ⟨.str "flour", .str "turn", 3, .post, by decide⟩],
    .dict [(.str "grain", .int 9223372036854775807), (.str "stone", .int 1), (.str "flour", .int 20),
      (.str "water", .int 20)], .int 20, by with_unfolding_all rfl⟩

def millAt (grain stone flour water : Int) : Marking :=
  ⟨[(.str "grain", .int grain), (.str "stone", .int stone), (.str "flour", .int flour), (.str "water", .int water)]⟩

theorem millAt_owns (grain stone flour water : Int) : mill.Owns (millAt grain stone flour water) := by
  refine ⟨by rfl, ?_⟩
  intro c hc
  simp only [millAt, Marking.counts, List.map_cons, List.map_nil, List.mem_cons, List.not_mem_nil, or_false] at hc
  rcases hc with rfl | rfl | rfl | rfl <;> exact ⟨_, rfl⟩

/-! ## What reverting returns -/

theorem revert_eq_wrapped (hb : net.Built) (hj : net.transitionIndex t = .ok j) (hm : net.Owns m)
    (hrange : net.InRange m) :
    net.revert m.toDatum t
      = .ok (if ∀ p, 0 < net.takes j p → m.tokens p ≤ net.capacityAt p then
          some (net.markingOf fun p => wrapped (net.restoredAt j m p))
        else none) := by
  have hguard : (net.weights.get j).Revertible net.capacity (net.wordsOf m) ↔
      ∀ p, 0 < net.takes j p → m.tokens p ≤ net.capacityAt p := by
    refine forall_congr' fun p => ?_
    rw [Weights.zero_lt_iff, Int64.le_iff_toInt_le, toInt_wordsOf hrange.fitsWords]
    rfl
  have hresult : net.markingOfWords ((net.weights.get j).unapply (net.wordsOf m))
      = net.markingOf fun p => wrapped (net.restoredAt j m p) := by
    rw [markingOfWords_eq]
    congr 1
    funext p
    rw [Weights.toInt_unapply (hb.sound j) (natural_wordsOf hrange), toInt_wordsOf hrange.fitsWords]
    rfl
  rw [revert_eq hm hrange.fitsWords, hj, ok_bind, Weights.revert?]
  simp only [hguard, ← hresult]
  split <;> rfl

theorem Reverts.tokens (hb : net.Built) (hj : net.transitionIndex t = .ok j) (hm : net.Owns m)
    (hrange : net.InRange m) (h : net.Reverts t m q) (p : Fin net.places.length) :
    q.tokens p = wrapped (net.restoredAt j m p) := by
  rw [Reverts, revert_eq_wrapped hb hj hm hrange] at h
  split at h
  case isFalse => cases h
  case isTrue =>
    obtain rfl := Option.some.inj (Except.ok.inj h)
    exact tokens_markingOf _ p

/-- Where nothing has wrapped, the predecessor holds what the formula says. -/
theorem RevertsExactly.tokens_eq (hb : net.Built) (hj : net.transitionIndex t = .ok j) (hm : net.Countable m)
    (h : net.RevertsExactly t m q) (p : Fin net.places.length) : q.tokens p = net.restoredAt j m p := by
  obtain ⟨h0, h2⟩ := restoredAt_bounds (j := j) hb hm.2 p
  have hword := h.2 p
  rw [h.1.tokens hb hj hm.1 hm.2] at hword ⊢
  exact wrapped_of_le ((wrapped_nonneg_iff h0 h2).mp hword)

/-- **Reverting in closed form.** Nothing is returned exactly if a place that is taken from holds more than its
capacity. Otherwise the predecessor of a count is what was taken, on top of what is left when that which was given is
gone, whatever arcs the place has. This is returned where it is a word, and less `2 ^ 64` where it is not. So negative
counts stand exactly where it is no word, and the transition takes from all these places. -/
theorem revert_closed_form (hb : net.Built) (hj : net.transitionIndex t = .ok j) (hm : net.Owns m)
    (hrange : net.InRange m) :
    (net.revert m.toDatum t = .ok none ↔ ∃ p, 0 < net.takes j p ∧ net.capacityAt p < m.tokens p) ∧
      (∀ p, net.predecessorCount j m p = net.takes j p + max 0 (m.tokens p - net.gives j p)) ∧
      (¬ (∃ p, 0 < net.takes j p ∧ net.capacityAt p < m.tokens p) →
        ∃ q, net.revert m.toDatum t = .ok (some q) ∧ net.Owns q ∧ q.places = net.places ∧
          ∀ p : Fin net.places.length,
            (net.predecessorCount j m p ≤ mostTokens → q.tokens p = net.predecessorCount j m p) ∧
            (mostTokens < net.predecessorCount j m p →
              q.tokens p = net.predecessorCount j m p - 18446744073709551616) ∧
            (q.tokens p < 0 ↔ mostTokens < net.predecessorCount j m p) ∧
            (mostTokens < net.predecessorCount j m p → 0 < net.takes j p)) := by
  have hguard : (∃ p, 0 < net.takes j p ∧ net.capacityAt p < m.tokens p) ↔
      ¬ ∀ p, 0 < net.takes j p → m.tokens p ≤ net.capacityAt p := by
    simp only [Classical.not_forall, Int.not_le, exists_prop]
  rw [revert_eq_wrapped hb hj hm hrange, hguard]
  refine ⟨?_, predecessorCount_eq hb hrange, fun hwithin => ?_⟩
  · split
    case isTrue hwithin => exact iff_of_false (fun hnone => by cases hnone) fun hexceeds => hexceeds hwithin
    case isFalse hexceeds => exact iff_of_true rfl hexceeds
  · rw [if_pos (Classical.not_not.mp hwithin)]
    refine ⟨_, rfl, owns_markingOf _, places_markingOf _, fun p => ?_⟩
    obtain ⟨h0, h2⟩ := restoredAt_bounds (j := j) hb hrange p
    rw [tokens_markingOf, predecessorCount_eq hb hrange]
    refine ⟨wrapped_of_le, fun hover => if_neg (Int.not_le.mpr hover), ?_, takes_pos_of_overflow hb hrange⟩
    rw [← Int.not_le, wrapped_nonneg_iff h0 h2, Int.not_le]

/-- Reverted, the mill has its two measures of grain back, the stone as it was and no flour. With two stones, which is
beyond capacity, nothing is returned. With as much grain as a word can count, two measures more wrap. -/
theorem revert_closed_form_mill :
    mill.revert (millAt 5 2 1 7).toDatum (.str "turn") = .ok none ∧
      (∃ q, mill.revert (millAt 5 1 2 7).toDatum (.str "turn") = .ok (some q) ∧
        q.tokens 0 = 7 ∧ q.tokens 1 = 1 ∧ q.tokens 2 = 0 ∧ q.tokens 3 = 7) ∧
      ∃ q, mill.revert (millAt 9223372036854775807 1 2 7).toDatum (.str "turn") = .ok (some q) ∧
        q.tokens 0 = -9223372036854775807 := by
  have hindex : mill.transitionIndex (.str "turn") = .ok ⟨0, by decide⟩ := rfl
  obtain ⟨hnone, _⟩ := revert_closed_form mill_built hindex (millAt_owns 5 2 1 7) (by decide)
  obtain ⟨_, _, hsome⟩ := revert_closed_form mill_built hindex (millAt_owns 5 1 2 7) (by decide)
  obtain ⟨_, _, hmany⟩ :=
    revert_closed_form mill_built hindex (millAt_owns 9223372036854775807 1 2 7) (by decide)
  refine ⟨hnone.mpr ⟨⟨1, by decide⟩, by decide⟩, ?_, ?_⟩
  · obtain ⟨q, hq, _, _, hcounts⟩ := hsome (by decide)
    have hexact := fun p => (hcounts p).1
    exact ⟨q, hq, hexact ⟨0, by decide⟩ (by decide), hexact ⟨1, by decide⟩ (by decide),
      hexact ⟨2, by decide⟩ (by decide), hexact ⟨3, by decide⟩ (by decide)⟩
  · obtain ⟨q, hq, _, _, hcounts⟩ := hmany (by decide)
    exact ⟨q, hq, (hcounts ⟨0, by decide⟩).2.1 (by decide)⟩

/-! ## Firing again -/

/-- Fired again, what was restored adds up to what the place held or what it is given, whichever is more. -/
theorem sumAt_restored (hq : q.tokens p = net.restoredAt j m p) :
    net.sumAt j q p = max (m.tokens p) (net.gives j p) := by
  unfold sumAt
  rw [hq]
  unfold restoredAt
  omega

/-- A count that has wrapped is negative, and something was taken there. -/
theorem fire_of_wrapped (hb : net.Built) (hj : net.transitionIndex t = .ok j) (hm : net.Owns m)
    (hfit : net.FitsWords m) (hnegative : ¬ net.Nonnegative m) : net.fire t m.toDatum = .ok none := by
  obtain ⟨p, hp⟩ := Classical.not_forall.mp hnegative
  have htakes := takes_nonneg (j := j) hb p
  exact fire_of_missing (p := p) hj hm hfit (by omega)

/-- Without wrapped counts, firing the predecessor finds all tokens there, and no sum is too large for a word. -/
theorem fire_of_restored (hb : net.Built) (hj : net.transitionIndex t = .ok j) (hrange : net.InRange m)
    (hq : net.Owns q) (hqrange : net.InRange q)
    (htokens : ∀ p : Fin net.places.length, q.tokens p = net.restoredAt j m p) :
    net.fire t q.toDatum
      = .ok (if ∀ p, 0 < net.gives j p → max (m.tokens p) (net.gives j p) ≤ net.capacityAt p then
          some (net.markingOf fun p => max (m.tokens p) (net.gives j p))
        else none) := by
  have htakes : ∀ p : Fin net.places.length, net.takes j p ≤ q.tokens p := by
    intro p
    rw [htokens p, restoredAt]
    omega
  have hsum : ∀ p, wrapped (net.sumAt j q p) = max (m.tokens p) (net.gives j p) := by
    intro p
    have hcount := (hrange p).2
    have hgives : net.gives j p ≤ mostTokens := Weights.toInt_le_most _
    rw [sumAt_restored (htokens p), wrapped_of_le (by omega)]
  rw [fire_eq_wrapped hb hj hq hqrange]
  simp only [htakes, implies_true, true_and, hsum]

/-- **Firing a predecessor.** Let reverting `m` under a transition return `q`. If a count of `q` has wrapped, `q` does
not fire. Otherwise firing returns at every place the larger of what `m` holds and what the transition gives, if this
is within capacity wherever tokens are given, and nothing if it is not. So where firing returns a marking, this is `m`
again exactly if `m` holds all that the transition gives. -/
theorem fire_revert (hb : net.Built) (hj : net.transitionIndex t = .ok j) (hm : net.Owns m)
    (hrange : net.InRange m) (hreverts : net.revert m.toDatum t = .ok (some q)) :
    ∃ effect, net.exactEffect t = .ok effect ∧
      (¬ net.Nonnegative q → net.fire t q.toDatum = .ok none) ∧
      (net.Nonnegative q → net.fire t q.toDatum
        = .ok (if ∀ p : Fin net.places.length, 0 < net.gives j p →
              max (m.tokens p) (effect.tokens p) ≤ net.capacityAt p then
            some (net.markingOf fun p => max (m.tokens p) (effect.tokens p))
          else none)) ∧
      ∀ m', net.fire t q.toDatum = .ok (some m') → ((m' == m) = true ↔ net.AtLeast m effect) := by
  have heffect : net.exactEffect t = .ok (net.markingOfWords (net.weights.get j).post) := by
    rw [exactEffect, hj]
    rfl
  have hgives : ∀ p : Fin net.places.length,
      (net.markingOfWords (net.weights.get j).post).tokens p = net.gives j p := tokens_markingOfWords _
  obtain ⟨hq, hfit, _⟩ := Reverts.owns hm hrange.fitsWords hreverts
  have hfire : net.Nonnegative q → net.fire t q.toDatum
      = .ok (if ∀ p, 0 < net.gives j p → max (m.tokens p) (net.gives j p) ≤ net.capacityAt p then
          some (net.markingOf fun p => max (m.tokens p) (net.gives j p)) else none) := by
    intro hnonneg
    exact fire_of_restored hb hj hrange hq (hfit.inRange hnonneg)
      (RevertsExactly.tokens_eq hb hj ⟨hm, hrange⟩ ⟨hreverts, hnonneg⟩)
  refine ⟨_, heffect, fire_of_wrapped hb hj hq hfit, fun hnonneg => ?_, fun m' hfires => ?_⟩
  · simp only [hgives]
    exact hfire hnonneg
  · by_cases hnonneg : net.Nonnegative q
    · rw [hfire hnonneg] at hfires
      split at hfires
      case isFalse => cases hfires
      case isTrue =>
        obtain rfl := Option.some.inj (Except.ok.inj hfires)
        rw [(owns_markingOf _).beq_iff hm]
        refine forall_congr' fun p => ?_
        rw [tokens_markingOf, hgives]
        omega
    · rw [fire_of_wrapped hb hj hq hfit hnonneg] at hfires
      cases hfires

/-- Turned again, the mill has three measures of flour, where there were two before; where there were four, it has
four. With more grain than a word can count it does not turn. -/
theorem fire_revert_mill :
    (∃ m', mill.fire (.str "turn") (millAt 7 1 0 7).toDatum = .ok (some m') ∧ m'.tokens 2 = 3 ∧
        (m' == millAt 5 1 2 7) = false) ∧
      (∃ m', mill.fire (.str "turn") (millAt 7 1 1 7).toDatum = .ok (some m') ∧
        (m' == millAt 5 1 4 7) = true) ∧
      mill.fire (.str "turn") (millAt (-9223372036854775807) 1 0 7).toDatum = .ok none := by
  have hindex : mill.transitionIndex (.str "turn") = .ok ⟨0, by decide⟩ := rfl
  have heffect : mill.exactEffect (.str "turn") = .ok (millAt 0 1 3 0) := rfl
  have htwo : mill.Reverts (.str "turn") (millAt 5 1 2 7) (millAt 7 1 0 7) := rfl
  have hfour : mill.Reverts (.str "turn") (millAt 5 1 4 7) (millAt 7 1 1 7) := rfl
  have hmany : mill.Reverts (.str "turn") (millAt 9223372036854775807 1 2 7)
      (millAt (-9223372036854775807) 1 0 7) := rfl
  refine ⟨?_, ?_, ?_⟩
  · obtain ⟨effect, heffect', _, hfire, hsame⟩ :=
      fire_revert mill_built hindex (millAt_owns 5 1 2 7) (by decide) htwo
    obtain rfl := Except.ok.inj (heffect.symm.trans heffect')
    rw [if_pos (by decide)] at hfire
    refine ⟨_, hfire (by decide), by decide, ?_⟩
    rw [Bool.eq_false_iff, Ne, hsame _ (hfire (by decide))]
    decide
  · obtain ⟨effect, heffect', _, hfire, hsame⟩ :=
      fire_revert mill_built hindex (millAt_owns 5 1 4 7) (by decide) hfour
    obtain rfl := Except.ok.inj (heffect.symm.trans heffect')
    rw [if_pos (by decide)] at hfire
    exact ⟨_, hfire (by decide), (hsame _ (hfire (by decide))).mpr (by decide)⟩
  · obtain ⟨_, _, hwrapped, _⟩ :=
      fire_revert mill_built hindex (millAt_owns 9223372036854775807 1 2 7) (by decide) hmany
    exact hwrapped (by decide)

end Net

end Petri
