import Petri.Proofs.Predecessors
import Petri.Proofs.Reversal

/-!
# Backward search

From which markings can a target be reached? The loop that answers this stands with the caller: it keeps the
markings seen so far and a frontier, reverts the whole frontier in every round and goes on with what is new
(`Net.SearchRound`). Sets have no order of their own, so a round may list its members in any order.

The invariant (`Net.SearchInvariant`) is that of a worklist: every predecessor of a seen marking that waits no
longer in the frontier has been seen. A round does for the frontier what the invariant asks, so that all
predecessors of what was seen before are seen after it (`SearchRound.predecessor_seen`). As every step of a
run is undone by reverting, the run is followed backward, one round for each step:

> `search_complete`: after `r` rounds all accepted markings from which an exact run of at most `r` steps leads
> to the target have been seen, and when the frontier is empty, those of runs of any length.
-/

namespace Petri

/-- The markings that a search has seen and those from which it goes on. -/
structure Search where
  seen : List Marking
  frontier : List Marking

namespace Net

/-- One round: the frontier is reverted under all transitions, the new frontier is what has not been seen
before, and it is seen from now on. -/
def SearchRound (net : Net) (s s' : Search) : Prop :=
  ∃ found, (net.revertSet (.set (s.frontier.map Marking.toDatum))).result = .ok found ∧
    s'.frontier.Perm (found.filter fun m => !s.seen.any (· == m)) ∧
    s'.seen.Perm (s.seen ++ s'.frontier)

/-- `net.Searched g r s` holds if the search for `g` can be at `s` after `r` rounds. -/
inductive Searched (net : Net) (g : Marking) : Nat → Search → Prop
  | start : net.Searched g 0 ⟨[g], [g]⟩
  | round {r : Nat} {s s' : Search} :
      net.Searched g r s → net.SearchRound s s' → net.Searched g (r + 1) s'

variable {net : Net} {g m q : Marking} {t : Datum} {s s' : Search}

/-! ## The invariant -/

/-- All seen markings are markings of words, the target and the frontier have been seen, and so has every
predecessor of a marking that waits no longer. -/
structure SearchInvariant (net : Net) (g : Marking) (s : Search) : Prop where
  ofWords : ∀ m ∈ s.seen, ∃ w, m = net.markingOfWords w
  target : g ∈ s.seen
  waiting : ∀ m ∈ s.frontier, m ∈ s.seen
  closed : ∀ m ∈ s.seen, m ∉ s.frontier → ∀ t q, net.Reverts t m q → q ∈ s.seen

/-- What a round finds: markings of words, among them all predecessors of the frontier. -/
theorem SearchInvariant.found (hs : net.SearchInvariant g s) :
    ∃ found, (net.revertSet (.set (s.frontier.map Marking.toDatum))).result = .ok found ∧
      (∀ q ∈ found, ∃ w, q = net.markingOfWords w) ∧
      ∀ m ∈ s.frontier, ∀ t q, net.Reverts t m q → q ∈ found := by
  have hall : ∀ m ∈ s.frontier, net.Owns m ∧ net.FitsWords m := by
    intro m hm
    obtain ⟨w, rfl⟩ := hs.ofWords m (hs.waiting m hm)
    exact ⟨owns_markingOfWords w, fitsWords_markingOfWords w⟩
  refine ⟨_, revertSet_eq hall, fun q hq => ?_, fun m hm t q hrev => ?_⟩
  · obtain ⟨w, _, rfl⟩ := List.mem_map.mp hq
    exact ⟨w, rfl⟩
  · obtain ⟨v, hv, rfl⟩ :=
      List.mem_map.mp (mem_predecessors_of_reverts (hall m hm).1 (hall m hm).2 hrev)
    refine List.mem_map_of_mem ?_
    rw [List.mem_eraseDups, List.mem_flatMap]
    exact ⟨_, List.mem_map_of_mem hm, hv⟩

theorem SearchInvariant.exists_round (hs : net.SearchInvariant g s) : ∃ s', net.SearchRound s s' := by
  obtain ⟨found, hfound, _⟩ := hs.found
  let fresh := found.filter fun m => !s.seen.any (· == m)
  exact ⟨⟨s.seen ++ fresh, fresh⟩, found, hfound, .rfl, .rfl⟩

theorem SearchInvariant.found_seen (hs : net.SearchInvariant g s)
    {found : List Marking} (hwords : ∀ q ∈ found, ∃ w, q = net.markingOfWords w)
    (hfrontier : s'.frontier.Perm (found.filter fun m => !s.seen.any (· == m)))
    (hseen : s'.seen.Perm (s.seen ++ s'.frontier)) (hq : q ∈ found) : q ∈ s'.seen := by
  rw [hseen.mem_iff, List.mem_append]
  by_cases hold : s.seen.any (· == q) = true
  · -- the same marking has been seen, and for markings of words this is the marking itself
    left
    obtain ⟨m, hm, hsame⟩ := List.any_eq_true.mp hold
    obtain ⟨v, rfl⟩ := hs.ofWords m hm
    obtain ⟨w, rfl⟩ := hwords q hq
    rw [← markingOfWords_inj_of_beq hsame]
    exact hm
  · right
    rw [hfrontier.mem_iff, List.mem_filter]
    exact ⟨hq, by simpa using hold⟩

/-- **A round follows every step back.** Whatever has been seen before, its predecessors are seen after. -/
theorem SearchRound.predecessor_seen (hs : net.SearchInvariant g s) (h : net.SearchRound s s') (hm : m ∈ s.seen)
    (hrev : net.Reverts t m q) : q ∈ s'.seen := by
  obtain ⟨found, hfound, hfrontier, hseen⟩ := h
  by_cases hwait : m ∈ s.frontier
  · -- what waits is reverted in this round
    obtain ⟨found', hfound', hwords, hall⟩ := hs.found
    obtain rfl : found' = found := Except.ok.inj (hfound'.symm.trans hfound)
    exact hs.found_seen hwords hfrontier hseen (hall m hwait t q hrev)
  · -- what does not wait was reverted in an earlier one
    rw [hseen.mem_iff]
    exact List.mem_append_left _ (hs.closed m hm hwait t q hrev)

theorem SearchRound.invariant (hs : net.SearchInvariant g s) (h : net.SearchRound s s') : net.SearchInvariant g s' := by
  obtain ⟨found', hfound', hwords, _⟩ := hs.found
  have hpred := fun m hm t q => h.predecessor_seen (m := m) (t := t) (q := q) hs hm
  obtain ⟨found, hfound, hfrontier, hseen⟩ := h
  obtain rfl : found' = found := Except.ok.inj (hfound'.symm.trans hfound)
  refine ⟨fun m hm => ?_, ?_, fun m hm => ?_, fun m hm hwait t q hrev => ?_⟩
  · rcases List.mem_append.mp (hseen.mem_iff.mp hm) with hm | hm
    · exact hs.ofWords m hm
    · exact hwords m (List.mem_filter.mp (hfrontier.mem_iff.mp hm)).1
  · exact hseen.mem_iff.mpr (List.mem_append_left _ hs.target)
  · exact hseen.mem_iff.mpr (List.mem_append_right _ hm)
  · rcases List.mem_append.mp (hseen.mem_iff.mp hm) with hm | hm
    · exact hpred m hm t q hrev
    · exact absurd hm hwait

theorem Searched.invariant (hg : net.Valid g) {r : Nat} (h : net.Searched g r s) :
    net.SearchInvariant g s := by
  induction h with
  | start =>
    have hwords := markingOfWords_wordsOf hg.owns hg.inRange.fitsWords hg.places
    refine ⟨fun m hm => ?_, List.mem_singleton_self g, fun m hm => hm, fun m hm hwait => ?_⟩
    · rw [List.mem_singleton.mp hm]
      exact ⟨_, hwords.symm⟩
    · exact absurd hm hwait
  | round _ hround ih => exact hround.invariant ih

/-! ## Runs followed backward -/

theorem FiresExactly.reverts (hb : net.Built) (hm : net.Valid m) (h : net.FiresExactly t m q) :
    net.Reverts t q m := by
  obtain ⟨j, hj, _⟩ := (fires_iff hm.owns hm.inRange.fitsWords).mp h.1
  rw [Reverts, revert_of_fires hb hj hm.countable h, if_pos (takenWithin_of_valid hb hj hm h),
    markingOfWords_wordsOf hm.owns hm.inRange.fitsWords hm.places]

/-- After `r` rounds the beginnings of all runs of at most `r` steps have been seen. -/
theorem Searched.seen_of_run (hb : net.Built) (hg : net.Valid g) {r : Nat}
    (h : net.Searched g r s) : ∀ {ts : List Datum} {y : Marking}, net.Valid y →
      Run net.FiresExactly ts y g → ts.length ≤ r → y ∈ s.seen := by
  induction h with
  | start =>
    intro ts y _ hrun hlen
    obtain rfl := List.length_eq_zero_iff.mp (Nat.le_zero.mp hlen)
    rw [Run.nil_iff.mp hrun]
    exact List.mem_singleton_self _
  | round hs hround ih =>
    intro ts y hy hrun hlen
    have hinv := hs.invariant hg
    cases ts with
    | nil =>
      rw [← Run.nil_iff.mp hrun]
      exact (hround.invariant hinv).target
    | cons t ts =>
      -- the rest of the run has been followed back already, and one more round follows its first step
      obtain ⟨y', hfirst, hrest⟩ := Run.cons_iff.mp hrun
      have hlen' : ts.length ≤ _ := Nat.le_of_succ_le_succ hlen
      have hy' := ih (hfirst.valid hb hy) hrest hlen'
      exact hround.predecessor_seen hinv hy' (hfirst.reverts hb hy)

/-- When nothing waits, the beginnings of all runs have been seen. -/
theorem SearchInvariant.seen_of_run (hb : net.Built) (hs : net.SearchInvariant g s)
    (hempty : s.frontier = []) : ∀ {ts : List Datum} {y : Marking}, net.Valid y →
      Run net.FiresExactly ts y g → y ∈ s.seen := by
  intro ts
  induction ts with
  | nil =>
    intro y _ hrun
    rw [← Run.nil_iff.mp hrun]
    exact hs.target
  | cons t ts ih =>
    intro y hy hrun
    -- the rest of the run begins at a marking that has been seen and waits no longer
    obtain ⟨y', hfirst, hrest⟩ := Run.cons_iff.mp hrun
    have hy' := ih (hfirst.valid hb hy) hrest
    exact hs.closed y' hy' (by simp [hempty]) t y (hfirst.reverts hb hy)

/-- **Backward search is complete.** From an accepted target any number of rounds can be made. After `r` of
them every accepted marking has been seen from which some exact run of at most `r` steps leads to the target;
and when the frontier is empty, every one from which any exact run does. -/
theorem search_complete (hb : net.Built) {x : Datum} (hg : net.marking x = .ok g) (r : Nat) :
    (∃ s, net.Searched g r s) ∧ ∀ s, net.Searched g r s →
      (∀ d y ts, net.marking d = .ok y → Run net.FiresExactly ts y g → ts.length ≤ r →
        y ∈ s.seen) ∧
      (s.frontier = [] → ∀ d y ts, net.marking d = .ok y → Run net.FiresExactly ts y g →
        y ∈ s.seen) := by
  have hvalid := valid_of_marking hg
  constructor
  · induction r with
    | zero => exact ⟨_, .start⟩
    | succ r ih =>
      obtain ⟨s, hs⟩ := ih
      obtain ⟨s', hround⟩ := (hs.invariant hvalid).exists_round
      exact ⟨s', .round hs hround⟩
  · intro s hs
    refine ⟨fun d y ts hd hrun hlen => ?_, fun hempty d y ts hd hrun => ?_⟩
    · exact hs.seen_of_run hb hvalid (valid_of_marking hd) hrun hlen
    · exact (hs.invariant hvalid).seen_of_run hb hempty (valid_of_marking hd) hrun

/-- One round back from the lamp being on, the lamp being off has been seen. -/
theorem search_complete_lamp :
    ∃ s, lamp.Searched (lampAt 1 0) 1 s ∧ lampAt 0 1 ∈ s.seen := by
  have htarget : lamp.marking (lampAt 1 0).toDatum = .ok (lampAt 1 0) := rfl
  have hoff : lamp.marking (lampAt 0 1).toDatum = .ok (lampAt 0 1) := rfl
  have hon : lamp.FiresExactly (.str "switchOn") (lampAt 0 1) (lampAt 1 0) := ⟨rfl, by decide⟩
  obtain ⟨⟨s, hs⟩, hseen⟩ := search_complete lamp_built htarget 1
  exact ⟨s, hs, (hseen s hs).1 _ _ [.str "switchOn"] hoff (Run.singleton_iff.mpr hon) (by decide)⟩

end Net

end Petri
