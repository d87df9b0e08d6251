import Petri.Proofs.Correspondence

/-!
# Raising capacities

Capacities are looked at in three places: when a mapping is checked, when firing compares its result, and when
reverting compares the marking that it begins with. In each of them a greater capacity lets more through and
leaves what comes out as it is. So a net with the same places, transitions and arcs and at least the same
capacities (`Net.Enlarges`) does whatever the smaller one does:

> `Enlarges.corresponds`: positions stand for themselves, so that the two nets correspond;
> `raised_capacities`: **greater capacities only add behaviour**, to the mappings that are accepted, to single
> steps, to what is found under all transitions, and to runs.
-/

namespace Petri

/-- The position is the same number. -/
def SamePosition {n n' : Nat} (i : Fin n) (i' : Fin n') : Prop := (i : Nat) = i'

instance {n n' : Nat} (i : Fin n) (i' : Fin n') : Decidable (SamePosition i i') :=
  inferInstanceAs (Decidable ((i : Nat) = i'))

theorem biTotal_samePosition {n n' : Nat} (h : n = n') : Relator.BiTotal (@SamePosition n n') := by
  subst h
  exact ⟨fun i => ⟨i, rfl⟩, fun i => ⟨i, rfl⟩⟩

/-- A name is found at the same position in lists of the same names. -/
theorem findIdx?_of_list_beq {xs ys : List Datum} (h : (xs == ys) = true) (key : Datum) :
    xs.findIdx? (· == key) = ys.findIdx? (· == key) := by
  induction xs generalizing ys with
  | nil =>
    cases ys with
    | nil => rfl
    | cons => cases h
  | cons x xs ih =>
    cases ys with
    | nil => cases h
    | cons y ys =>
      rw [List.cons_beq_cons, Bool.and_eq_true] at h
      rw [List.findIdx?_cons, List.findIdx?_cons, BEq.congr_left h.1, ih h.2]

namespace Net

variable {net net' : Net} {m q q' : Marking}

/-- The second net has the same places, transitions and arcs in the same order, and at every place at least the
same capacity. -/
structure Enlarges (net net' : Net) : Prop where
  places : (net.places == net'.places) = true
  transitions : (net.transitions == net'.transitions) = true
  weights : ∀ d, net.weightMatrix d = net'.weightMatrix d
  capacities : net.Roomier net' SamePosition

namespace Enlarges

theorem index (h : net.Enlarges net') (t : Datum) :
    SameOutcome SamePosition (net.transitionIndex t) (net'.transitionIndex t) := by
  rw [transitionIndex, transitionIndex]
  refine SameOutcome.bind (R := Eq) ?_ fun _ _ _ => ?_
  · cases t.requireHashable with
    | ok => exact .ok rfl
    | error fault => exact .error _
  · have hfind := findIdx?_of_list_beq h.transitions t
    rw [List.findIdx?_eq_map_findFinIdx?_val, List.findIdx?_eq_map_findFinIdx?_val] at hfind
    cases hleft : net.transitions.findFinIdx? (· == t) with
    | none =>
      rw [hleft, Option.map_none, eq_comm, Option.map_eq_none_iff] at hfind
      rw [hfind]
      exact .raise _
    | some j =>
      rw [hleft, Option.map_some, eq_comm, Option.map_eq_some_iff] at hfind
      obtain ⟨j', hright, hj⟩ := hfind
      rw [hright]
      exact .ok hj.symm

theorem corresponds (h : net.Enlarges net') : net.Corresponds net' SamePosition SamePosition := by
  have hword : ∀ d j j', SamePosition j j' → Weights.SameWords SamePosition
      ((net.weights.get j).inDirection d) ((net'.weights.get j').inDirection d) := by
    intro d j j' hj p p' hp
    -- both words stand at one place of the same matrix
    have hentry := @matrix_entry net (Weights.inDirection · d) j p
    have hentry' := @matrix_entry net' (Weights.inDirection · d) j' p'
    rw [← weightMatrix, h.weights d, hj, hp, weightMatrix, hentry'] at hentry
    exact Int64.toInt_inj.mp (Option.some.inj hentry).symm
  refine ⟨biTotal_samePosition (length_eq_of_beq h.places), biTotal_samePosition (length_eq_of_beq h.transitions),
    fun p p' hp => ?_, h.index, fun j j' hj => ⟨hword .pre j j' hj, hword .post j j' hj⟩⟩
  obtain ⟨p, hlt⟩ := p
  obtain ⟨p', hlt'⟩ := p'
  obtain rfl : p = p' := hp
  exact getElem_beq_of_list_beq h.places hlt hlt'

/-- A marking of the first net is a marking of the second one. -/
theorem matches_self (h : net.Enlarges net') (hm : net.Owns m) (hfit : net.FitsWords m) :
    net.Matches net' SamePosition m m := by
  refine ⟨hm, hfit, ⟨BEq.trans hm.places h.places, hm.whole⟩, fun p' => ?_, fun p p' hp => ?_⟩
  · obtain ⟨p, hp⟩ := (biTotal_samePosition (length_eq_of_beq h.places)).2 p'
    rw [← show (p : Nat) = p' from hp]
    exact hfit p
  · rw [show (p : Nat) = p' from hp]

/-- Markings that match are the same. -/
theorem beq_of_matches (h : net.Enlarges net') (hq : net.Matches net' SamePosition q q') :
    (q == q') = true := by
  have hcounts : q.counts = q'.counts := by
    rw [hq.owns.counts_eq, hq.owns'.counts_eq]
    refine List.ext_getElem (by simp [(length_eq_of_beq h.places)]) fun i hi hi' => ?_
    rw [List.getElem_ofFn, List.getElem_ofFn]
    exact congrArg Datum.int (hq.tokens ⟨i, by simpa using hi⟩ ⟨i, by simpa using hi'⟩ rfl)
  refine Marking.beq_iff.mpr ⟨by rw [hcounts]; exact BEq.rfl, ?_⟩
  exact BEq.trans (BEq.trans hq.owns.places h.places) (BEq.symm hq.owns'.places)

end Enlarges

/-! ## Behaviour -/

/-- Whatever `net` does with the marking `m`, `net'` does as well, and with the same results. -/
structure Repeats (net' net : Net) (m : Marking) : Prop where
  fires : ∀ t q, net.Fires t m q → ∃ q', net'.Fires t m q' ∧ (q == q') = true
  reverts : ∀ t q, net.Reverts t m q → ∃ q', net'.Reverts t m q' ∧ (q == q') = true
  isEnabled : ∀ t, net'.isEnabled t m.toDatum = net.isEnabled t m.toDatum
  successors : ∃ found found', (net.successors m.toDatum).result = .ok found ∧
    (net'.successors m.toDatum).result = .ok found' ∧ Included (· == ·) found found'
  revertAll : ∃ found found', net.revertAll m.toDatum = .ok found ∧
    net'.revertAll m.toDatum = .ok found' ∧ Included (· == ·) found found'
  run_fires : ∀ ts q, Run net.Fires ts m q → ∃ q', Run net'.Fires ts m q' ∧ (q == q') = true
  run_reverts : ∀ ts q, Run net.Reverts ts m q → ∃ q', Run net'.Reverts ts m q' ∧ (q == q') = true

namespace Enlarges

theorem included_beq (h : net.Enlarges net') {found found' : List Marking}
    (hall : Included (net.Matches net' SamePosition) found found') : Included (· == ·) found found' := by
  intro q hq
  obtain ⟨q', hq', hmatch⟩ := hall q hq
  exact ⟨q', hq', h.beq_of_matches hmatch⟩

theorem repeats (h : net.Enlarges net') (hm : net.Owns m) (hfit : net.FitsWords m) : net'.Repeats net m := by
  have hc := h.corresponds
  have hroom := h.capacities
  have hself := h.matches_self hm hfit
  refine ⟨fun t q hq => ?_, fun t q hq => ?_, fun t => (hc.isEnabled hself t).symm, ?_, ?_,
    fun ts q hq => ?_, fun ts q hq => ?_⟩
  · obtain ⟨q', hq', hmatch⟩ := hc.fires hroom hself hq
    exact ⟨q', hq', h.beq_of_matches hmatch⟩
  · obtain ⟨q', hq', hmatch⟩ := hc.reverts hroom hself hq
    exact ⟨q', hq', h.beq_of_matches hmatch⟩
  · obtain ⟨found, found', hfound, hfound', hall⟩ := hc.successors hroom hself
    exact ⟨found, found', hfound, hfound', h.included_beq hall⟩
  · obtain ⟨found, found', hfound, hfound', hall⟩ := hc.revertAll hroom hself
    exact ⟨found, found', hfound, hfound', h.included_beq hall⟩
  · obtain ⟨q', hq', hmatch⟩ := hc.run_fires hroom hself hq
    exact ⟨q', hq', h.beq_of_matches hmatch⟩
  · obtain ⟨q', hq', hmatch⟩ := hc.run_reverts hroom hself hq
    exact ⟨q', hq', h.beq_of_matches hmatch⟩

end Enlarges

/-- **Greater capacities only add behaviour.** What the smaller net accepts as a marking, the larger one accepts
with the same result. From every marking of the smaller net whose counts are words, the larger one takes the same
steps and runs, whether or not the marking is within capacity, and what it finds under all transitions contains
what the smaller one finds. -/
theorem raised_capacities (hb : net.Built) (hb' : net'.Built) (h : net.Enlarges net') :
    (∀ x es m, x.entries = .ok es → net.marking x = .ok m →
        ∃ m', net'.marking x = .ok m' ∧ (m == m') = true) ∧
      (∀ m, net.Owns m → net.FitsWords m → net'.Repeats net m) ∧
      ∀ x (ms : List Marking), x.items = .ok (ms.map Marking.toDatum) → (∀ m ∈ ms, net.Owns m ∧ net.FitsWords m) →
        ∃ found found', (net.revertSet x).result = .ok found ∧ (net'.revertSet x).result = .ok found' ∧
          Included (· == ·) found found' := by
  refine ⟨fun x es m hx hm => ?_, fun m hm hfit => h.repeats hm hfit, fun x ms hx hms => ?_⟩
  · obtain ⟨m', hm', hmatch⟩ := h.corresponds.marking h.capacities hb hb' hx hm
    exact ⟨m', hm', h.beq_of_matches hmatch⟩
  · have hself : ∀ m ∈ ms, net.Matches net' SamePosition m m :=
      fun m hm => h.matches_self (hms m hm).1 (hms m hm).2
    obtain ⟨found, found', hfound, hfound', hall⟩ := h.corresponds.revertSet h.capacities hx hx hms
      (fun m hm => ⟨(hself m hm).owns', (hself m hm).fits'⟩) fun m hm => ⟨m, hm, hself m hm⟩
    exact ⟨found, found', hfound, hfound', h.included_beq hall⟩

/-- A lamp with room for three tokens that say that it is on. -/
def brightLamp : Net := { lamp with capacity := #v[3, 1] }

theorem brightLamp_built : brightLamp.Built :=
  ⟨.list [.str "on", .str "off"], .list [.str "switchOn", .str "switchOff"], lamp.arcs,
    .dict [(.str "on", .int 3), (.str "off", .int 1)], .int 1, by with_unfolding_all rfl⟩

/-- The lamp is switched off and on again with more room as well, also from a marking that is beyond the capacity
of both. -/
theorem raised_capacities_lamp :
    lamp.Enlarges brightLamp ∧
      (∃ m, brightLamp.marking (.dict [(.str "off", .int 0), (.str "on", .int 1)]) = .ok m ∧
        (lampAt 1 0 == m) = true) ∧
      (∃ q, Run brightLamp.Fires [.str "switchOff", .str "switchOn"] (lampAt 1 0) q ∧
        (lampAt 1 0 == q) = true) ∧
      ∃ q, brightLamp.Reverts (.str "switchOff") (lampAt 0 4) q ∧ (lampAt 1 3 == q) = true := by
  have henlarges : lamp.Enlarges brightLamp := by
    have hroom : lamp.Roomier brightLamp SamePosition := by decide
    exact ⟨BEq.rfl, BEq.rfl, fun _ => rfl, hroom⟩
  obtain ⟨haccepted, hrepeats, _⟩ := raised_capacities lamp_built brightLamp_built henlarges
  have hoff : lamp.Fires (.str "switchOff") (lampAt 1 0) (lampAt 0 1) := rfl
  have hon : lamp.Fires (.str "switchOn") (lampAt 0 1) (lampAt 1 0) := rfl
  have hback : lamp.Reverts (.str "switchOff") (lampAt 0 4) (lampAt 1 3) := rfl
  refine ⟨henlarges, haccepted _ _ (lampAt 1 0) rfl rfl, ?_, ?_⟩
  · exact (hrepeats _ (lampAt_owns 1 0) (by decide)).run_fires _ _ (.cons hoff (.cons hon (.nil _)))
  · exact (hrepeats _ (lampAt_owns 0 4) (by decide)).reverts _ _ hback

end Net

end Petri
