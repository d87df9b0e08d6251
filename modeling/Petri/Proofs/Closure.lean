import Petri.Net.Canonical
import Petri.Proofs.Boundedness
import Petri.Proofs.Successors

/-!
# Markings that are passed on

What one operation returns can be given to the next one. Nothing is checked on the way but the places, so counts
may go beyond capacity, and a sum that is too large for a word comes back negative. The engines take all of this:

> `Obtained`: what the operations of a net come to, each from markings that were obtained before;
> `Obtained.owns`: every such marking has the places of the net and a word for each of them;
> `engines_closed`: **no operation refuses what another one has returned.**
-/

namespace Petri

namespace Net

variable {net : Net} {x t : Datum} {m m' : Marking}

/-! ## Names of transitions -/

/-- The value names a declared transition, in whatever spelling. -/
def Names (net : Net) (t : Datum) : Prop :=
  t.hashable = true ∧ net.transitions.any (· == t) = true

instance : Decidable (net.Names t) :=
  inferInstanceAs (Decidable (_ ∧ _))

theorem names_iff : net.Names t ↔ ∃ j, net.transitionIndex t = .ok j := by
  simp only [transitionIndex_eq_ok]
  rw [Names, ← List.isSome_findFinIdx?, Option.isSome_iff_exists]
  constructor
  · intro h
    obtain ⟨hhash, j, hj⟩ := h
    exact ⟨j, hhash, hj⟩
  · intro h
    obtain ⟨j, hhash, hj⟩ := h
    exact ⟨hhash, j, hj⟩

/-! ## Compositions of operations -/

/-- The marking is accepted by the net, is one of those that the net has of its own, or is what an operation
returns for markings that were obtained before. -/
inductive Obtained (net : Net) : Marking → Prop
  | accepted {x : Datum} {m : Marking} : net.marking x = .ok m → Obtained net m
  | zero : Obtained net net.zero
  | minimalEnabling {t : Datum} {m : Marking} : net.minimalEnabling t = .ok m → Obtained net m
  | exactEffect {t : Datum} {m : Marking} : net.exactEffect t = .ok m → Obtained net m
  | fire {t : Datum} {m m' : Marking} : Obtained net m → net.fire t m.toDatum = .ok (some m') → Obtained net m'
  | revert {t : Datum} {m m' : Marking} :
      Obtained net m → net.revert m.toDatum t = .ok (some m') → Obtained net m'
  | successors {m m' : Marking} {found : List Marking} :
      Obtained net m → (net.successors m.toDatum).result = .ok found → m' ∈ found → Obtained net m'
  | revertAll {m m' : Marking} {found : List Marking} :
      Obtained net m → net.revertAll m.toDatum = .ok found → m' ∈ found → Obtained net m'
  | revertSet {x : Datum} {ms found : List Marking} {m' : Marking} :
      x.items = .ok (ms.map Marking.toDatum) → (∀ m ∈ ms, Obtained net m) →
      (net.revertSet x).result = .ok found → m' ∈ found → Obtained net m'

/-- Every operation that takes a marking has a result for `m`. -/
structure Answers (net : Net) (m : Marking) : Prop where
  fire : ∀ t, net.Names t → ∃ result, net.fire t m.toDatum = .ok result
  revert : ∀ t, net.Names t → ∃ result, net.revert m.toDatum t = .ok result
  isEnabled : ∀ t, net.Names t → ∃ result, net.isEnabled t m.toDatum = .ok result
  enabledTransitions : ∃ ts, net.enabledTransitions m.toDatum = .ok ts
  successors : ∃ found, (net.successors m.toDatum).result = .ok found
  revertAll : ∃ found, net.revertAll m.toDatum = .ok found

/-! ## What is obtained -/

theorem made_of_words (w : Vector Int64 net.places.length) :
    net.Owns (net.markingOfWords w) ∧ net.FitsWords (net.markingOfWords w) ∧
      (net.markingOfWords w).places = net.places :=
  ⟨owns_markingOfWords w, fitsWords_markingOfWords w, places_markingOfWords w⟩

/-- All operations return markings of words over the places of the net. -/
theorem Obtained.owns (h : net.Obtained m) :
    net.Owns m ∧ net.FitsWords m ∧ m.places = net.places := by
  induction h with
  | accepted hx =>
    have hm := valid_of_marking hx
    exact ⟨hm.owns, hm.inRange.fitsWords, hm.places⟩
  | zero => exact made_of_words _
  | minimalEnabling ht =>
    obtain ⟨_, _, ht⟩ := bind_eq_ok.mp ht
    obtain rfl := pure_eq_ok.mp ht
    exact made_of_words _
  | exactEffect ht =>
    obtain ⟨_, _, ht⟩ := bind_eq_ok.mp ht
    obtain rfl := pure_eq_ok.mp ht
    exact made_of_words _
  | fire _ hfires ih => exact Fires.owns ih.1 ih.2.1 hfires
  | revert _ hreverts ih => exact Reverts.owns ih.1 ih.2.1 hreverts
  | successors _ hfound hmem ih =>
    obtain rfl := Except.ok.inj ((successors_eq ih.1 ih.2.1).symm.trans hfound)
    obtain ⟨w, _, rfl⟩ := List.mem_map.mp hmem
    exact made_of_words w
  | revertAll _ hfound hmem ih =>
    obtain rfl := Except.ok.inj ((revertAll_eq ih.1 ih.2.1).symm.trans hfound)
    obtain ⟨w, _, rfl⟩ := List.mem_map.mp hmem
    exact made_of_words w
  | revertSet hx _ hfound hmem ih =>
    have hresult := revertSet_of_items hx fun m hm => ⟨(ih m hm).1, (ih m hm).2.1⟩
    obtain rfl := Except.ok.inj (hresult.symm.trans hfound)
    obtain ⟨w, _, rfl⟩ := List.mem_map.mp hmem
    exact made_of_words w

/-- Every marking of words has an answer to everything, negative or beyond capacity. -/
theorem answers (hm : net.Owns m) (hfit : net.FitsWords m) : net.Answers m where
  fire t ht := by
    obtain ⟨j, hj⟩ := names_iff.mp ht
    exact ⟨_, by rw [fire_eq hm hfit, hj, ok_bind]⟩
  revert t ht := by
    obtain ⟨j, hj⟩ := names_iff.mp ht
    exact ⟨_, by rw [revert_eq hm hfit, hj, ok_bind]⟩
  isEnabled t ht := by
    obtain ⟨j, hj⟩ := names_iff.mp ht
    exact ⟨_, by rw [isEnabled_eq hm hfit, hj, ok_bind]⟩
  enabledTransitions := ⟨_, enabledTransitions_eq hm hfit⟩
  successors := ⟨_, successors_eq hm hfit⟩
  revertAll := ⟨_, revertAll_eq hm hfit⟩

/-- **The engines never refuse their own markings.** Whatever the operations of a net come to, starting from
markings that it accepts or has of its own, has the places of the net and one signed 64-bit count for each of
them, and every operation has a result for it, also for several at once. -/
theorem engines_closed :
    (∀ m, net.Obtained m → m.places = net.places ∧ m.counts.length = net.places.length ∧
        (∀ c ∈ m.counts, ∃ k : Int, c = .int k ∧ Datum.fitsWord k = true) ∧ net.Answers m) ∧
      (∀ (x : Datum) (ms : List Marking), x.items = .ok (ms.map Marking.toDatum) → (∀ m ∈ ms, net.Obtained m) →
        ∃ found, (net.revertSet x).result = .ok found) ∧
      ∀ t, net.Names t → (∃ m, net.minimalEnabling t = .ok m) ∧ ∃ m, net.exactEffect t = .ok m := by
  refine ⟨fun m h => ?_, fun x ms hx hms => ?_, fun t ht => ?_⟩
  · obtain ⟨hm, hfit, hplaces⟩ := h.owns
    refine ⟨hplaces, hm.length_counts, fun c hc => ?_, answers hm hfit⟩
    rw [hm.counts_eq] at hc
    obtain ⟨p, rfl⟩ := List.mem_ofFn.mp hc
    exact ⟨_, rfl, hfit p⟩
  · exact ⟨_, revertSet_of_items hx fun m hm => ⟨(hms m hm).owns.1, (hms m hm).owns.2.1⟩⟩
  · obtain ⟨j, hj⟩ := names_iff.mp ht
    rw [minimalEnabling, exactEffect, hj]
    exact ⟨⟨_, rfl⟩, _, rfl⟩

/-- Filling the reservoir returns a count that has wrapped. It is passed on to every operation. -/
theorem engines_closed_reservoir :
    reservoir.Obtained (tankAt (-9223372036854775808)) ∧
      reservoir.Answers (tankAt (-9223372036854775808)) ∧
      ∃ found, (reservoir.revertSet
        (.set [(tankAt 1).toDatum, (tankAt (-9223372036854775808)).toDatum])).result = .ok found := by
  obtain ⟨hshape, htogether, _⟩ := @engines_closed reservoir
  have hone : reservoir.Obtained (tankAt 1) :=
    .accepted (show reservoir.marking (.dict [(.str "tank", .int 1)]) = .ok (tankAt 1) from rfl)
  have hwrapped : reservoir.Obtained (tankAt (-9223372036854775808)) :=
    hone.fire (show reservoir.fire (.str "fill") (tankAt 1).toDatum = .ok (some (tankAt _)) from rfl)
  refine ⟨hwrapped, (hshape _ hwrapped).2.2.2, htogether _ [tankAt 1, tankAt _] rfl fun m hm => ?_⟩
  rcases List.mem_cons.mp hm with rfl | hm
  · exact hone
  · rw [List.mem_singleton.mp hm]
    exact hwrapped

end Net

end Petri
