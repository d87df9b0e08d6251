import Petri.Net.Canonical
import Petri.Proofs.Predecessors
import Petri.Proofs.Restoration

/-!
# Invariants of nets

However a net is made, from a description or from a graph, the same stages have let it through. This file collects
what they ensure (`Net.Invariants`) and where they fall short: capacities are to be whole numbers from zero, but
only capacities that are described by place are looked at, not the default.

> `invariants_of_returned`: **identifiers, matrices and positions are always as they should be**, and capacities
> are unless the default is negative and comes to be used;
> `debt_refused`: with a negative default a net is returned that accepts no marking at all.
-/

namespace Petri

namespace Net

variable {net : Net} {capacity default : Datum} {d : Direction}

/-- The net is what one of the ways to make nets returns with these capacities and this default. -/
inductive Returned (net : Net) (capacity default : Datum) : Prop
  | build {places transitions : Datum} {arcs : List Arc} :
      (Net.build places transitions arcs capacity default).result = .ok net → Returned net capacity default
  | buildFrom {places transitions : Datum} {arcs : List Datum} :
      (Net.buildFrom places transitions arcs capacity default).result = .ok net → Returned net capacity default
  | toNet {g : Graph} {names : Bipartite.Names} {places transitions : Datum} {arcs : List Arc} :
      Bipartite.describe g names = .ok (places, transitions, arcs, capacity) →
      (Bipartite.toNet g names default).result = .ok net → Returned net capacity default

/-- What a net is relied upon for, but for its capacities. Positions are found by what stands there. -/
structure Invariants (net : Net) : Prop where
  distinct_places : Distinct net.places
  distinct_transitions : Distinct net.transitions
  disjoint : ∀ p ∈ net.places, ∀ t ∈ net.transitions, (p == t) = false
  rows : ∀ d, (net.weightMatrix d).length = net.places.length
  columns : ∀ d, ∀ row ∈ net.weightMatrix d, row.length = net.transitions.length
  entries : ∀ d, ∀ row ∈ net.weightMatrix d, ∀ weight ∈ row, 0 ≤ weight ∧ weight ≤ mostTokens
  placeIndex_get : ∀ p, net.placeIndex (net.places.get p) = .ok p
  get_placeIndex : ∀ x p, net.placeIndex x = .ok p → (net.places.get p == x) = true
  transitionIndex_get : ∀ t, net.transitionIndex (net.transitions.get t) = .ok t
  get_transitionIndex : ∀ x t, net.transitionIndex x = .ok t → (net.transitions.get t == x) = true

/-- All ways to make a net end in building it. -/
theorem Returned.exists_build (h : net.Returned capacity default) :
    ∃ places transitions arcs, (Net.build places transitions arcs capacity default).result = .ok net := by
  cases h with
  | build h => exact ⟨_, _, _, h⟩
  | buildFrom h =>
    rw [Net.buildFrom] at h
    split at h
    next => exact ⟨_, _, _, h⟩
    next =>
      -- what is no arc is refused, at the latest after the stages before
      obtain ⟨_, _, h⟩ := bind_eq_ok.mp h
      obtain ⟨_, _, h⟩ := bind_eq_ok.mp h
      obtain ⟨_, _, h⟩ := bind_eq_ok.mp h
      obtain ⟨_, _, h⟩ := bind_eq_ok.mp h
      cases h
  | toNet hdescribed h =>
    rw [Bipartite.toNet, hdescribed] at h
    exact ⟨_, _, _, h⟩

/-! ## Matrices -/

theorem mem_weightMatrix {row : List Int} : row ∈ net.weightMatrix d ↔
    ∃ p, row = (List.finRange net.transitions.length).map fun t => net.weightAt d t p := by
  have hrow : ∀ p, (net.weights.toList.map fun w => ((w.inDirection d).get p).toInt)
      = (List.finRange net.transitions.length).map fun t => net.weightAt d t p := by
    intro p
    rw [toList_eq_map_finRange, List.map_map]
    rfl
  rw [weightMatrix, matrix, List.mem_ofFn]
  simp only [hrow, eq_comm]

theorem Built.invariants (hb : net.Built) : net.Invariants where
  distinct_places := hb.distinct
  distinct_transitions := hb.distinct_transitions
  disjoint := hb.disjoint
  rows d := by rw [weightMatrix, matrix, List.length_ofFn]
  columns d row hrow := by
    obtain ⟨_, rfl⟩ := mem_weightMatrix.mp hrow
    rw [List.length_map, List.length_finRange]
  entries d row hrow weight hweight := by
    obtain ⟨p, rfl⟩ := mem_weightMatrix.mp hrow
    obtain ⟨t, _, rfl⟩ := List.mem_map.mp hweight
    exact ⟨hb.weightAt_nonneg d t p, Weights.toInt_le_most _⟩
  placeIndex_get p := placeIndex_eq_ok.mpr ⟨hb.hashable _ (List.get_mem _ _), Distinct.findFinIdx?_get hb.distinct p⟩
  get_placeIndex x p h := (List.findFinIdx?_eq_some_iff.mp (placeIndex_eq_ok.mp h).2).1
  transitionIndex_get t := transitionIndex_get hb t
  get_transitionIndex x t h := (List.findFinIdx?_eq_some_iff.mp (transitionIndex_eq_ok.mp h).2).1

/-! ## The empty marking -/

/-- The empty marking is accepted exactly if there is room for nothing. -/
theorem marking_zero_iff (hb : net.Built) : net.marking net.zero.toDatum = .ok net.zero ↔
    ∀ p, 0 ≤ net.capacityAt p := by
  have htokens : ∀ p : Fin net.places.length, net.zero.tokens p = 0 := by
    intro p
    have hget : (Vector.replicate net.places.length (0 : Int64)).get p = 0 := Vector.getElem_replicate p.isLt
    rw [zero, tokens_markingOfWords, hget]
    rfl
  rw [← valid_iff_accepted hb]
  constructor
  · intro h p
    rw [← htokens p]
    exact (h.within p).2
  · intro h
    refine ⟨owns_markingOfWords _, places_markingOfWords _, fun p => ?_⟩
    rw [htokens p]
    exact ⟨Int.le_refl 0, h p⟩

/-- **Every net that is returned has its invariants, but for one kind of capacity.** Identifiers are told apart,
the matrices have the shape of the net and words from zero as entries, and positions and identifiers determine each
other. Capacities are numbers from zero exactly if they are described by place, if there are no places, or if the
default is no negative number, and exactly then the net accepts its empty marking. -/
theorem invariants_of_returned (h : net.Returned capacity default) :
    net.Invariants ∧
      ((∀ p, 0 ≤ net.capacityAt p) ↔
        capacity.truthy = true ∨ net.places = [] ∨ ∃ k, default.toInt = .ok k ∧ 0 ≤ k) ∧
      (net.marking net.zero.toDatum = .ok net.zero ↔ ∀ p, 0 ≤ net.capacityAt p) := by
  obtain ⟨places, transitions, arcs, hbuild⟩ := h.exists_build
  have hb : net.Built := ⟨_, _, _, _, _, hbuild⟩
  have hassembled := (build_eq_ok.mp hbuild).2.2
  exact ⟨hb.invariants, Capacity.resolve_nonneg_iff (capacity_of_assemble hassembled), marking_zero_iff hb⟩

/-- The lamp has its invariants and accepts being empty. A tub with a capacity of its own is not concerned by a
negative default. -/
theorem invariants_of_returned_lamp :
    (lamp.Returned .null (.int 1) ∧ lamp.Invariants ∧ lamp.marking lamp.zero.toDatum = .ok lamp.zero) ∧
      Bipartite.tubNet.Returned (.dict [(.str "tub", .int 5)]) (.int (-1)) ∧
      ∀ p, 0 ≤ Bipartite.tubNet.capacityAt p := by
  have hlamp : lamp.Returned .null (.int 1) :=
    .build (show (build (.list lamp.places) (.list lamp.transitions) lamp.arcs .null (.int 1)).result = .ok lamp
      by with_unfolding_all rfl)
  have htub : Bipartite.tubNet.Returned (.dict [(.str "tub", .int 5)]) (.int (-1)) :=
    .toNet (show Bipartite.describe (Bipartite.tub ⟨[(.int 0, {})]⟩) {} = .ok (.list [.str "tub"],
        .list [.str "tap"], [⟨.str "tub", .str "tap", 1, .post, by decide⟩], .dict [(.str "tub", .int 5)])
        by with_unfolding_all rfl)
      (by with_unfolding_all rfl)
  obtain ⟨hinvariants, hcapacities, hzero⟩ := invariants_of_returned hlamp
  refine ⟨⟨hlamp, hinvariants, hzero.mpr (hcapacities.mpr (.inr (.inr ⟨1, rfl, by decide⟩)))⟩, htub, ?_⟩
  exact (invariants_of_returned htub).2.1.mpr (.inl rfl)

/-- A place without a capacity. -/
def debtor : Graph where
  nodes := ⟨[(.str "debt", { attributes := ⟨[(.str "kind", .str "place")]⟩ })]⟩

/-- With a negative default, places become owing: the net is returned by either way, and it accepts neither its
empty marking nor any other. -/
theorem debt_refused :
    (build (.list [.str "debt"]) (.list []) [] .null (.int (-1))).result = .ok Bipartite.debt ∧
      (Bipartite.toNet debtor {} (.int (-1))).result = .ok Bipartite.debt ∧
      Bipartite.debt.capacityAt ⟨0, by decide⟩ = -1 ∧
      Bipartite.debt.marking Bipartite.debt.zero.toDatum = .error (.countOutOfRange 0 (.str "debt") (-1)) ∧
      ∀ x m, Bipartite.debt.marking x ≠ .ok m := by
  refine ⟨by with_unfolding_all rfl, by with_unfolding_all rfl, by decide, rfl, fun x m hx => ?_⟩
  obtain ⟨hleast, hmost⟩ := (valid_of_marking hx).within ⟨0, by decide⟩
  exact absurd (Int.le_trans hleast hmost) (by decide)

end Net

end Petri
