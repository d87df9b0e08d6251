import Mathlib.Algebra.BigOperators.Ring.Finset
import Mathlib.Data.Int.Interval
import Mathlib.Data.Pi.Interval
import Petri.Proofs.BackwardSearch

/-!
# The bound of backward search

Reverting puts back what a transition has taken, so counts grow from step to step, and nothing cuts them off at
the capacity. They are bounded all the same: where a transition takes tokens, the marking is reverted only if it
is within capacity there, so that what is put back comes on top of the capacity at most once. At the other
places nothing is put back. The invariant is `Net.Below`, the bound `Net.backwardBound`:

> `unapply_tokens`: one step back ends below the larger of what it starts from and what it may put back;
> `below_of_revertSet`, `below_of_revertTimes`: so does reverting whole sets, any number of times;
> `SearchedFrom.lt_of_waiting`: every round with a new frontier adds to the seen markings a vector of counts
> within the bound, and of these there are only so many.

Together they are `backward_bounded`. The bound rests on sums that fit a word: without that the counts wrap and
come back.
-/

namespace Petri

/-- The greatest of numbers that are not negative; zero if there are none. -/
def greatest (xs : List Int) : Int :=
  xs.foldr max 0

theorem greatest_nonneg (xs : List Int) : 0 ≤ greatest xs := by
  induction xs with
  | nil => exact Int.le_refl 0
  | cons x xs ih => exact Int.le_trans ih (Int.le_max_right _ _)

theorem le_greatest {x : Int} {xs : List Int} (h : x ∈ xs) : x ≤ greatest xs := by
  induction xs with
  | nil => cases h
  | cons y ys ih =>
    rcases List.mem_cons.mp h with rfl | h
    · exact Int.le_max_left _ _
    · exact Int.le_trans (ih h) (Int.le_max_right _ _)

namespace Net

/-- What reverting, begun with the markings `start`, leaves at a place at most: the greatest count there in the
beginning or, if that is more, the capacity and the greatest weight with which a transition takes from the
place. -/
def backwardBound (net : Net) (start : List Marking) (p : Fin net.places.length) : Int :=
  max (greatest (start.map (·.tokens p)))
    (net.capacityAt p + greatest ((List.finRange net.transitions.length).map (net.takes · p)))

/-- No capacity is negative, and no sum of a capacity and a weight that is taken is too large for a word. -/
structure Roomy (net : Net) : Prop where
  capacity_nonneg : ∀ p, 0 ≤ net.capacityAt p
  fits : ∀ p t, net.capacityAt p + net.takes t p ≤ mostTokens

/-- `m` is a marking of the net with counts from zero to `bound`. -/
structure Below (net : Net) (bound : Fin net.places.length → Int) (m : Marking) : Prop where
  countable : net.Countable m
  le : ∀ p : Fin net.places.length, m.tokens p ≤ bound p

variable {net : Net} {start ms : List Marking} {bound : Fin net.places.length → Int} {m q : Marking}
  {r : Nat} {s s' : Search}

/-! ## One step -/

/-- **A step back ends below what it starts from or what it may put back.** The place is within capacity if the
transition takes from it, so that the sum is too small to wrap. -/
theorem unapply_tokens (hb : net.Built) (hroom : net.Roomy) (hm : net.Countable m)
    (j : Fin net.transitions.length)
    (hguard : (net.weights.get j).Revertible net.capacity (net.wordsOf m)) (p : Fin net.places.length) :
    0 ≤ (net.markingOfWords ((net.weights.get j).unapply (net.wordsOf m))).tokens p ∧
      (net.markingOfWords ((net.weights.get j).unapply (net.wordsOf m))).tokens p
        ≤ max (m.tokens p) (net.capacityAt p + net.takes j p) := by
  have htakes := takes_nonneg (j := j) hb p
  have hgives := gives_nonneg (j := j) hb p
  have hcap := hroom.capacity_nonneg p
  have hfits := hroom.fits p j
  obtain ⟨h0, hmost⟩ := hm.2 p
  have hwithin : 0 < net.takes j p → m.tokens p ≤ net.capacityAt p := by
    intro htaken
    have hle := Int64.le_iff_toInt_le.mp (hguard p (Weights.zero_lt_iff.mpr htaken))
    rw [toInt_wordsOf hm.2.fitsWords] at hle
    exact hle
  have hsum : net.takes j p + max 0 (m.tokens p - net.gives j p) ≤ mostTokens := by omega
  have hvalue : (net.markingOfWords ((net.weights.get j).unapply (net.wordsOf m))).tokens p
      = net.takes j p + max 0 (m.tokens p - net.gives j p) := by
    rw [tokens_markingOfWords, Weights.toInt_unapply (hb.sound j) (natural_wordsOf hm.2),
      toInt_wordsOf hm.2.fitsWords]
    exact wrapped_of_le hsum
  rw [hvalue]
  omega

theorem takes_le_backwardBound (j : Fin net.transitions.length) (p : Fin net.places.length) :
    net.capacityAt p + net.takes j p ≤ net.backwardBound start p := by
  have hle : net.takes j p ≤ greatest ((List.finRange _).map (net.takes · p)) :=
    le_greatest (List.mem_map_of_mem (List.mem_finRange j))
  unfold backwardBound
  omega

/-! ## Sets of markings -/

/-- Reverting a set of markings below the bound gives a set of markings below the bound. -/
theorem below_of_revertSet (hb : net.Built) (hroom : net.Roomy)
    (h : ∀ m ∈ ms, net.Below (net.backwardBound start) m) :
    ∃ found, (net.revertSet (.set (ms.map Marking.toDatum))).result = .ok found ∧
      ∀ q ∈ found, net.Below (net.backwardBound start) q := by
  refine ⟨_, revertSet_eq fun m hm => ⟨(h m hm).countable.1, (h m hm).countable.2.fitsWords⟩,
    fun q hq => ?_⟩
  obtain ⟨v, hv, rfl⟩ := List.mem_map.mp hq
  rw [List.mem_eraseDups, List.mem_flatMap] at hv
  obtain ⟨w, hw, hv⟩ := hv
  obtain ⟨m, hm, rfl⟩ := List.mem_map.mp hw
  obtain ⟨j, hguard, rfl⟩ := mem_predecessorWords_iff.mp hv
  have hm := h m hm
  have hstep := unapply_tokens hb hroom hm.countable j hguard
  refine ⟨⟨owns_markingOfWords _,
    (fitsWords_markingOfWords _).inRange fun p => (hstep p).1⟩, fun p => ?_⟩
  exact Int.le_trans (hstep p).2 (Int.max_le.mpr ⟨hm.le p, takes_le_backwardBound j p⟩)

/-- Reverts a set of markings a number of times, always the whole result. -/
def revertTimes (net : Net) (start : List Marking) : Nat → Except Fault (List Marking)
  | 0 => .ok start
  | k + 1 => do
    let ms ← net.revertTimes start k
    (net.revertSet (.set (ms.map Marking.toDatum))).result

theorem below_start (h : ∀ m ∈ start, net.Countable m) :
    ∀ m ∈ start, net.Below (net.backwardBound start) m := by
  intro m hm
  refine ⟨h m hm, fun p => ?_⟩
  have hle : m.tokens p ≤ greatest (start.map (·.tokens p)) :=
    le_greatest (List.mem_map.mpr ⟨m, hm, rfl⟩)
  exact Int.le_trans hle (Int.le_max_left _ _)

theorem below_of_revertTimes (hb : net.Built) (hroom : net.Roomy)
    (h : ∀ m ∈ start, net.Countable m) (k : Nat) :
    ∃ ms, net.revertTimes start k = .ok ms ∧ ∀ m ∈ ms, net.Below (net.backwardBound start) m := by
  induction k with
  | zero => exact ⟨start, rfl, below_start h⟩
  | succ k ih =>
    obtain ⟨ms, hms, hbelow⟩ := ih
    obtain ⟨found, hfound, hbelow'⟩ := below_of_revertSet hb hroom hbelow
    exact ⟨found, by rw [revertTimes, hms, ok_bind, hfound], hbelow'⟩

/-! ## Rounds -/

/-- `net.SearchedFrom start r s` holds if the search that begins with the markings `start` can be at `s` after
`r` rounds. -/
inductive SearchedFrom (net : Net) (start : List Marking) : Nat → Search → Prop
  | start : net.SearchedFrom start 0 ⟨start, start⟩
  | round {r : Nat} {s s' : Search} :
      net.SearchedFrom start r s → net.SearchRound s s' → net.SearchedFrom start (r + 1) s'

/-- All seen markings are below the bound, and the frontier has been seen. -/
structure BoundedSearch (net : Net) (bound : Fin net.places.length → Int) (s : Search) : Prop where
  below : ∀ m ∈ s.seen, net.Below bound m
  waiting : ∀ m ∈ s.frontier, m ∈ s.seen

theorem BoundedSearch.exists_round (hb : net.Built) (hroom : net.Roomy)
    (hs : net.BoundedSearch (net.backwardBound start) s) : ∃ s', net.SearchRound s s' := by
  obtain ⟨found, hfound, _⟩ := below_of_revertSet hb hroom fun m hm => hs.below m (hs.waiting m hm)
  let fresh := found.filter fun m => !s.seen.any (· == m)
  exact ⟨⟨s.seen ++ fresh, fresh⟩, found, hfound, .rfl, .rfl⟩

theorem SearchRound.bounded (hb : net.Built) (hroom : net.Roomy)
    (hs : net.BoundedSearch (net.backwardBound start) s) (h : net.SearchRound s s') :
    net.BoundedSearch (net.backwardBound start) s' := by
  obtain ⟨found', hfound', hbelow⟩ :=
    below_of_revertSet hb hroom fun m hm => hs.below m (hs.waiting m hm)
  obtain ⟨found, hfound, hfrontier, hseen⟩ := h
  obtain rfl : found' = found := Except.ok.inj (hfound'.symm.trans hfound)
  refine ⟨fun m hm => ?_, fun m hm => hseen.mem_iff.mpr (List.mem_append_right _ hm)⟩
  rcases List.mem_append.mp (hseen.mem_iff.mp hm) with hm | hm
  · exact hs.below m hm
  · exact hbelow m (List.mem_filter.mp (hfrontier.mem_iff.mp hm)).1

theorem SearchedFrom.bounded (hb : net.Built) (hroom : net.Roomy)
    (hstart : ∀ m ∈ start, net.Countable m) (h : net.SearchedFrom start r s) :
    net.BoundedSearch (net.backwardBound start) s := by
  induction h with
  | start => exact ⟨below_start hstart, fun m hm => hm⟩
  | round _ hround ih => exact hround.bounded hb hroom ih

/-! ## Counting what has been seen -/

/-- The counts of a marking by position. -/
def countsOf (net : Net) (m : Marking) : Fin net.places.length → Int :=
  fun p => m.tokens p

/-- The vectors of counts of some markings. -/
def vectorsOf (net : Net) (ms : List Marking) : Finset (Fin net.places.length → Int) :=
  (ms.map net.countsOf).toFinset

/-- Markings of a net are told apart by their counts. -/
theorem beq_of_countsOf (hm : net.Owns m) (hq : net.Owns q) (h : net.countsOf m = net.countsOf q) :
    (m == q) = true :=
  (hm.beq_iff hq).mpr (congrFun h)

/-- There are no more vectors within the bound than its places allow. -/
theorem BoundedSearch.card_le (hnonneg : ∀ p, 0 ≤ bound p) (hs : net.BoundedSearch bound s) :
    ((net.vectorsOf s.seen).card : Int) ≤ ∏ p, (bound p + 1) := by
  have hsub : net.vectorsOf s.seen ⊆ Finset.Icc 0 bound := by
    intro v hv
    rw [vectorsOf, List.mem_toFinset] at hv
    obtain ⟨m, hm, rfl⟩ := List.mem_map.mp hv
    have hm := hs.below m hm
    exact Finset.mem_Icc.mpr ⟨fun p => (hm.countable.2 p).1, hm.le⟩
  calc ((net.vectorsOf s.seen).card : Int)
    _ ≤ ((Finset.Icc 0 bound).card : Int) := Int.ofNat_le.mpr (Finset.card_le_card hsub)
    _ = ∏ p, ((Finset.Icc 0 (bound p)).card : Int) := by
      rw [Pi.card_Icc, Nat.cast_prod]
      rfl
    _ = ∏ p, (bound p + 1) := by
      refine Finset.prod_congr rfl fun p _ => ?_
      have hp := hnonneg p
      rw [Int.card_Icc]
      omega

/-- A round that finds something new adds a vector. -/
theorem SearchRound.card_lt (hb : net.Built) (hroom : net.Roomy)
    (hs : net.BoundedSearch (net.backwardBound start) s) (h : net.SearchRound s s')
    (hwaiting : s'.frontier ≠ []) :
    (net.vectorsOf s.seen).card < (net.vectorsOf s'.seen).card := by
  have hs' := h.bounded hb hroom hs
  obtain ⟨found, _, hfrontier, hseen⟩ := h
  obtain ⟨q, hq⟩ := List.exists_mem_of_ne_nil _ hwaiting
  refine Finset.card_lt_card (Finset.ssubset_iff_of_subset ?_ |>.mpr ⟨net.countsOf q, ?_, ?_⟩)
  · intro v hv
    rw [vectorsOf, List.mem_toFinset] at hv ⊢
    obtain ⟨m, hm, rfl⟩ := List.mem_map.mp hv
    exact List.mem_map_of_mem (hseen.mem_iff.mpr (List.mem_append_left _ hm))
  · rw [vectorsOf, List.mem_toFinset]
    exact List.mem_map_of_mem (hs'.waiting q hq)
  · -- a seen marking with the counts of `q` would be the same, and `q` would not be new
    intro hv
    rw [vectorsOf, List.mem_toFinset] at hv
    obtain ⟨m, hm, hcounts⟩ := List.mem_map.mp hv
    have hsame := beq_of_countsOf (hs.below m hm).countable.1
      (hs'.below q (hs'.waiting q hq)).countable.1 hcounts
    have hnew := (List.mem_filter.mp (hfrontier.mem_iff.mp hq)).2
    rw [Bool.not_eq_true', List.any_eq_false] at hnew
    exact hnew m hm hsame

/-- An empty frontier stays empty. -/
theorem SearchRound.frontier_eq_nil (h : net.SearchRound s s') (hnil : s.frontier = []) :
    s'.frontier = [] := by
  obtain ⟨found, hfound, hfrontier, _⟩ := h
  rw [hnil] at hfound
  obtain rfl : [] = found := Except.ok.inj hfound
  exact hfrontier.eq_nil

/-- As long as markings wait, more vectors have been seen than rounds were made. -/
theorem SearchedFrom.lt_of_waiting (hb : net.Built) (hroom : net.Roomy)
    (hstart : ∀ m ∈ start, net.Countable m) (h : net.SearchedFrom start r s)
    (hwaiting : s.frontier ≠ []) : r < (net.vectorsOf s.seen).card := by
  induction h with
  | start =>
    obtain ⟨m, hm⟩ := List.exists_mem_of_ne_nil _ hwaiting
    have hmem : net.countsOf m ∈ net.vectorsOf start := by
      rw [vectorsOf, List.mem_toFinset]
      exact List.mem_map_of_mem hm
    exact Finset.card_pos.mpr ⟨_, hmem⟩
  | round hs hround ih =>
    have hbefore := ih fun hnil => hwaiting (hround.frontier_eq_nil hnil)
    exact Nat.lt_of_le_of_lt hbefore (hround.card_lt hb hroom (hs.bounded hb hroom hstart) hwaiting)

/-- **Backward search is bounded and ends.** Let no capacity be negative and no sum of a capacity and a weight
that is taken be too large for a word. Reverting a set of markings any number of times succeeds, and all counts
stay between zero and the bound. The search that begins with the set can always go on by a round, and its
frontier is empty after as many rounds as there are vectors of counts within the bound, if not before. -/
theorem backward_bounded (hb : net.Built) (hcap : ∀ p, 0 ≤ net.capacityAt p)
    (hfits : ∀ p t, net.capacityAt p + net.takes t p ≤ mostTokens)
    (hstart : ∀ m ∈ start, net.Owns m ∧ net.InRange m) :
    (∀ k, ∃ ms, net.revertTimes start k = .ok ms ∧
        ∀ m ∈ ms, ∀ p : Fin net.places.length,
          0 ≤ m.tokens p ∧ m.tokens p ≤ net.backwardBound start p) ∧
      (∀ r, ∃ s, net.SearchedFrom start r s) ∧
      ∀ r s, net.SearchedFrom start r s → ∏ p, (net.backwardBound start p + 1) ≤ (r : Int) →
        s.frontier = [] := by
  have hroom : net.Roomy := ⟨hcap, hfits⟩
  have hnonneg : ∀ p, 0 ≤ net.backwardBound start p := fun p =>
    Int.le_trans (greatest_nonneg _) (Int.le_max_left _ _)
  refine ⟨fun k => ?_, fun r => ?_, fun r s hs hrounds => ?_⟩
  · obtain ⟨ms, hms, hbelow⟩ := below_of_revertTimes hb hroom hstart k
    exact ⟨ms, hms, fun m hm p => ⟨((hbelow m hm).countable.2 p).1, (hbelow m hm).le p⟩⟩
  · induction r with
    | zero => exact ⟨_, .start⟩
    | succ r ih =>
      obtain ⟨s, hs⟩ := ih
      obtain ⟨s', hround⟩ := (hs.bounded hb hroom hstart).exists_round hb hroom
      exact ⟨s', .round hs hround⟩
  · by_contra hwaiting
    have hlt := hs.lt_of_waiting hb hroom hstart hwaiting
    have hle := (hs.bounded hb hroom hstart).card_le hnonneg
    omega

/-- Back from the lamp being on there are two tokens for being on after a step, which is beyond capacity, and
never more. The search ends within nine rounds. -/
theorem backward_bounded_lamp :
    lamp.revertTimes [lampAt 1 0] 1 = .ok [lampAt 0 1, lampAt 2 0] ∧
      (∀ k, ∃ ms, lamp.revertTimes [lampAt 1 0] k = .ok ms ∧
        ∀ m ∈ ms, ∀ p : Fin lamp.places.length, m.tokens p ≤ 2) ∧
      ∃ s, lamp.SearchedFrom [lampAt 1 0] 9 s ∧ s.frontier = [] := by
  have hstart : ∀ m ∈ [lampAt 1 0], lamp.Owns m ∧ lamp.InRange m := by
    intro m hm
    rw [List.mem_singleton.mp hm]
    exact ⟨lampAt_owns 1 0, by decide⟩
  obtain ⟨hbound, hrounds, hends⟩ := backward_bounded lamp_built (by decide) (by decide) hstart
  refine ⟨by with_unfolding_all rfl, fun k => ?_, ?_⟩
  · obtain ⟨ms, hms, hle⟩ := hbound k
    have htwo : ∀ p : Fin lamp.places.length, lamp.backwardBound [lampAt 1 0] p ≤ 2 := by decide
    exact ⟨ms, hms, fun m hm p => Int.le_trans (hle m hm p).2 (htwo p)⟩
  · obtain ⟨s, hs⟩ := hrounds 9
    exact ⟨s, hs, hends 9 s hs (by decide)⟩

end Net

end Petri
