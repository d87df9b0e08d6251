import Petri.Net.Build
import Petri.Proofs.Outcomes
import Petri.Proofs.Weights

/-!
# What building a net ensures

`Net.Built` holds of the nets that the stages of `Net.build` let through, whatever the description. This file
takes the stages apart and keeps what later steps rely on:

> `Built.sound`: no weight is negative, for a label that is no word has been refused;
> `Built.distinct`: no two places are the same, and every place can be looked up.
-/

namespace Petri

/-! ## Identifiers -/

namespace Datum

theorem str_beq (s s' : String) : (str s == str s') = (s == s') := rfl

theorem str_self (s : String) : (str s == str s) = true := by
  rw [str_beq]
  exact beq_self_eq_true s

theorem requireHashable_eq_ok {x : Datum} : x.requireHashable = .ok () ↔ x.hashable = true := by
  unfold requireHashable
  split <;> simp_all

theorem requireSearchable_of_hashable {x : Datum} (h : x.hashable = true) :
    x.requireSearchable = .ok () := by
  unfold requireSearchable
  split
  next => rfl
  next => exact requireHashable_eq_ok.mpr h

end Datum

/-! ## Domains -/

namespace Domain

/-- The first identifier passes if it can be one and is not the same as an earlier one. -/
theorem checkDistinct_cons (kind : String) (seen : List Datum) (x : Datum) (xs : List Datum) :
    checkDistinct kind seen (x :: xs) = .ok () ↔
      (x.hashable = true ∧ ∀ y ∈ seen, (y == x) = false) ∧
        checkDistinct kind (x :: seen) xs = .ok () := by
  have hany : (∀ y ∈ seen, (y == x) = false) ↔ ¬ seen.any (· == x) = true := by simp
  rw [checkDistinct, hany]
  constructor
  · intro h
    obtain ⟨_, _, h⟩ := bind_eq_ok.mp h
    split at h
    next =>
      obtain ⟨_, hraise, _⟩ := bind_eq_ok.mp h
      exact absurd hraise (Fault.raise_ne_ok _ _)
    next hseen =>
      obtain ⟨_, hhash, h⟩ := bind_eq_ok.mp h
      exact ⟨⟨Datum.requireHashable_eq_ok.mp (liftM_eq_ok.mp hhash), hseen⟩, h⟩
  · intro h
    rcases h with ⟨⟨hhash, hseen⟩, h⟩
    rw [Datum.requireSearchable_of_hashable hhash, Datum.requireHashable_eq_ok.mpr hhash,
      if_neg hseen]
    exact h

theorem checkDistinct_eq_ok (kind : String) : ∀ (xs seen : List Datum),
    checkDistinct kind seen xs = .ok () ↔
      (∀ x ∈ xs, x.hashable = true ∧ ∀ y ∈ seen, (y == x) = false) ∧
        xs.Pairwise (fun y x => (y == x) = false) := by
  intro xs
  induction xs with
  | nil => intro seen; simp [checkDistinct]
  | cons x xs ih =>
    intro seen
    rw [checkDistinct_cons, ih, List.pairwise_cons, List.forall_mem_cons]
    constructor
    · intro h
      rcases h with ⟨hx, hxs, hp⟩
      exact ⟨⟨hx, fun z hz => ⟨(hxs z hz).1, fun y hy => (hxs z hz).2 y (List.mem_cons_of_mem _ hy)⟩⟩,
        fun z hz => (hxs z hz).2 x List.mem_cons_self, hp⟩
    · intro h
      rcases h with ⟨⟨hx, hxs⟩, hfirst, hp⟩
      refine ⟨hx, fun z hz => ⟨(hxs z hz).1, fun y hy => ?_⟩, hp⟩
      rcases List.mem_cons.mp hy with rfl | hy
      · exact hfirst z hz
      · exact (hxs z hz).2 y hy

/-- What `normalize` returns can serve as the index of a net. -/
theorem distinct_of_normalize {declared : Datum} {kind : String} {xs : List Datum}
    (h : normalize declared kind = .ok xs) :
    (∀ x ∈ xs, x.hashable = true) ∧ xs.Pairwise (fun y x => (y == x) = false) := by
  obtain ⟨ys, _, h⟩ := bind_eq_ok.mp h
  obtain ⟨_, hcheck, h⟩ := bind_eq_ok.mp h
  obtain rfl := pure_eq_ok.mp h
  obtain ⟨hall, hp⟩ := (checkDistinct_eq_ok kind ys []).mp hcheck
  exact ⟨fun x hx => (hall x hx).1, hp⟩

end Domain

namespace Net

/-! ## Stages -/

/-- The net is the outcome of building some description. -/
def Built (net : Net) : Prop :=
  ∃ (places transitions : Datum) (arcs : List Arc) (capacity defaultCapacity : Datum),
    (build places transitions arcs capacity defaultCapacity).result = .ok net

/-- A net is assembled exactly if every check passes, and then it has the weights of the arcs. -/
theorem assemble_eq_ok {places transitions : List Datum} {arcs : List Arc}
    {capacity defaultCapacity : Datum} {net : Net} :
    assemble places transitions arcs capacity defaultCapacity = .ok net ↔
      checkDisjoint places transitions = .ok () ∧ checkArcs [] arcs = .ok () ∧
      checkDeclared places transitions arcs = .ok () ∧ checkLabels arcs = .ok () ∧
      ∃ words, Capacity.resolve places capacity defaultCapacity = .ok words ∧
        net = ⟨places, transitions, words,
          Vector.ofFn fun t => weightsOf places arcs (transitions.get t)⟩ := by
  unfold assemble
  constructor
  · intro h
    obtain ⟨_, h1, h⟩ := bind_eq_ok.mp h
    obtain ⟨_, h2, h⟩ := bind_eq_ok.mp h
    obtain ⟨_, h3, h⟩ := bind_eq_ok.mp h
    obtain ⟨_, h4, h⟩ := bind_eq_ok.mp h
    obtain ⟨words, h5, h⟩ := bind_eq_ok.mp h
    exact ⟨h1, h2, h3, h4, words, h5, (pure_eq_ok.mp h).symm⟩
  · intro h
    rcases h with ⟨h1, h2, h3, h4, words, h5, rfl⟩
    rw [h1, h2, h3, h4, h5]
    rfl

/-- A net is built exactly if its places and transitions are what was declared and the stages after that let it
through. -/
theorem build_eq_ok {places transitions : Datum} {arcs : List Arc} {capacity defaultCapacity : Datum}
    {net : Net} : (build places transitions arcs capacity defaultCapacity).result = .ok net ↔
      Domain.normalize places "place" = .ok net.places ∧
      Domain.normalize transitions "transition" = .ok net.transitions ∧
      assemble net.places net.transitions arcs capacity defaultCapacity = .ok net := by
  constructor
  · intro h
    obtain ⟨ps, hp, h⟩ := bind_eq_ok.mp h
    obtain ⟨ts, ht, h⟩ := bind_eq_ok.mp h
    obtain ⟨_, _, _, _, words, _, rfl⟩ := assemble_eq_ok.mp h
    exact ⟨hp, ht, h⟩
  · intro h
    exact bind_eq_ok.mpr ⟨_, h.1, bind_eq_ok.mpr ⟨_, h.2.1, h.2.2⟩⟩

/-- What an assembled net consists of. -/
theorem parts_of_assemble {places transitions : List Datum} {arcs : List Arc}
    {capacity defaultCapacity : Datum} {net : Net}
    (h : assemble places transitions arcs capacity defaultCapacity = .ok net) :
    net.places = places ∧ net.transitions = transitions := by
  obtain ⟨_, _, _, _, _, _, rfl⟩ := assemble_eq_ok.mp h
  exact ⟨rfl, rfl⟩

section Assembled

variable {arcs : List Arc} {capacity defaultCapacity : Datum} {net : Net}

theorem capacity_of_assemble
    (h : assemble net.places net.transitions arcs capacity defaultCapacity = .ok net) :
    Capacity.resolve net.places capacity defaultCapacity = .ok net.capacity := by
  obtain ⟨_, _, _, _, words, hwords, hnet⟩ := assemble_eq_ok.mp h
  obtain ⟨_, _, netCapacity, _⟩ := net
  obtain rfl : netCapacity = words := by simpa using (Net.mk.inj hnet).2.2.1
  exact hwords

theorem weights_of_assemble
    (h : assemble net.places net.transitions arcs capacity defaultCapacity = .ok net)
    (t : Fin net.transitions.length) :
    net.weights.get t = weightsOf net.places arcs (net.transitions.get t) := by
  obtain ⟨places, transitions, _, weights⟩ := net
  obtain ⟨_, _, _, _, words, _, hnet⟩ := assemble_eq_ok.mp h
  have hweights : weights = Vector.ofFn fun t => weightsOf places arcs (transitions.get t) := by
    simpa using (Net.mk.inj hnet).2.2.2
  show weights.get t = _
  rw [hweights]
  exact Vector.getElem_ofFn t.isLt

end Assembled

/-- A built net was assembled over distinct identifiers. -/
theorem Built.assembled {net : Net} (h : net.Built) :
    ∃ arcs capacity defaultCapacity, assemble net.places net.transitions arcs capacity defaultCapacity
        = .ok net ∧
      ((∀ x ∈ net.places, x.hashable = true) ∧ net.places.Pairwise (fun y x => (y == x) = false)) ∧
      ((∀ x ∈ net.transitions, x.hashable = true) ∧
        net.transitions.Pairwise (fun y x => (y == x) = false)) := by
  obtain ⟨_, _, arcs, capacity, defaultCapacity, h⟩ := h
  obtain ⟨hp, ht, h⟩ := build_eq_ok.mp h
  exact ⟨arcs, capacity, defaultCapacity, h, Domain.distinct_of_normalize hp,
    Domain.distinct_of_normalize ht⟩

theorem Built.hashable {net : Net} (h : net.Built) : ∀ p ∈ net.places, p.hashable = true := by
  obtain ⟨_, _, _, _, hp, _⟩ := h.assembled
  exact hp.1

theorem Built.distinct {net : Net} (h : net.Built) :
    net.places.Pairwise (fun y x => (y == x) = false) := by
  obtain ⟨_, _, _, _, hp, _⟩ := h.assembled
  exact hp.2

/-! ## Positions -/

/-- The position of a place is where the first one that is the same stands. -/
theorem placeIndex_eq_ok {net : Net} {place : Datum} {p : Fin net.places.length} :
    net.placeIndex place = .ok p ↔
      place.hashable = true ∧ net.places.findFinIdx? (· == place) = some p := by
  rw [placeIndex, bind_eq_ok, ← Datum.requireHashable_eq_ok]
  constructor
  · intro h
    obtain ⟨_, hhash, h⟩ := h
    split at h
    next hfound => exact ⟨liftM_eq_ok.mp hhash, hfound.trans (congrArg some (pure_eq_ok.mp h))⟩
    next => exact absurd h (Fault.raise_ne_ok _ _)
  · intro h
    rw [h.2]
    exact ⟨(), liftM_eq_ok.mpr h.1, rfl⟩

theorem transitionIndex_eq_ok {net : Net} {transition : Datum} {j : Fin net.transitions.length} :
    net.transitionIndex transition = .ok j ↔
      transition.hashable = true ∧ net.transitions.findFinIdx? (· == transition) = some j := by
  rw [transitionIndex, bind_eq_ok, ← Datum.requireHashable_eq_ok]
  constructor
  · intro h
    obtain ⟨_, hhash, h⟩ := h
    split at h
    next hfound => exact ⟨liftM_eq_ok.mp hhash, hfound.trans (congrArg some (pure_eq_ok.mp h))⟩
    next => exact absurd h (Fault.raise_ne_ok _ _)
  · intro h
    rw [h.2]
    exact ⟨(), liftM_eq_ok.mpr h.1, rfl⟩

/-! ## Weights -/

/-- Labels that are words give no negative weight. -/
theorem natural_weightVector {places : List Datum} {arcs : List Arc}
    (h : ∀ a ∈ arcs, Datum.fitsWord a.label = true) :
    Weights.Natural (weightVector places arcs) := by
  intro p
  rw [weightVector, Weights.get_ofFn]
  split
  next a ha =>
    have hfit := (fitsWord_iff.mp (h a (List.mem_of_find?_eq_some ha))).2
    rw [mostTokens_eq] at hfit
    rw [Weights.zero_le_iff, Int64.toInt_ofNat_of_lt (by omega)]
    omega
  next => exact Int64.le_refl 0

/-- **No weight of a built net is negative.** -/
theorem Built.sound {net : Net} (h : net.Built) (t : Fin net.transitions.length) :
    (net.weights.get t).Sound := by
  obtain ⟨arcs, _, _, h, _⟩ := h.assembled
  obtain ⟨_, _, _, hlabels, _⟩ := assemble_eq_ok.mp h
  have hfit : ∀ a ∈ arcs, Datum.fitsWord a.label = true := by
    unfold checkLabels at hlabels
    split at hlabels
    next hall => exact List.all_eq_true.mp hall
    next => cases hlabels
  -- the arcs of one transition in one direction are some of the arcs, so their labels fit
  rw [weights_of_assemble h]
  exact ⟨natural_weightVector fun a ha =>
      hfit a (List.mem_filter.mp (List.mem_filter.mp ha).1).1,
    natural_weightVector fun a ha =>
      hfit a (List.mem_filter.mp (List.mem_filter.mp ha).1).1⟩

end Net

end Petri
