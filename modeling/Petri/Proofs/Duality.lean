import Petri.Net.Canonical
import Petri.Proofs.Reordering

/-!
# Reverting as firing backwards

With every arc turned round, a net becomes its dual: what a transition took it now gives. Firing in the dual and
reverting in the net are written separately. Firing asks for the tokens, takes and then gives; reverting never
asks for tokens, but tells four shapes of arcs apart.

> `assemble_dual`, `eq_of_assemble`: the arcs of the net, each turned round, make the dual, and no other net;
> `Weights.unapply_eq_apply_swap`: where a marking has all that the transition gives, both come to the same words,
> wrapped or not;
> `revert_fires_dual`: **reverting is firing in the dual**, as far as the dual fires at all.
-/

namespace Petri

/-! ## Arcs turned round -/

/-- The other direction. -/
def Direction.opposite : Direction → Direction
  | pre => post
  | post => pre

theorem Direction.opposite_inj {d d' : Direction} : d.opposite = d'.opposite ↔ d = d' := by
  cases d <;> cases d' <;> decide

namespace Arc

/-- The arc between the same ends in the other direction. -/
def turned (a : Arc) : Arc := { a with direction := a.direction.opposite }

theorem parallel_turned (a b : Arc) : a.turned.parallel b.turned = a.parallel b := by
  rw [Bool.eq_iff_iff, parallel_iff, parallel_iff]
  exact and_congr_left fun _ => Direction.opposite_inj

theorem joins_turned {d : Direction} {transition place : Datum} (a : Arc) :
    a.turned.joins d transition place = a.joins d.opposite transition place := by
  have hdirection : a.direction.opposite = d ↔ a.direction = d.opposite := by
    cases a.direction <;> cases d <;> decide
  rw [Bool.eq_iff_iff, joins_iff, joins_iff]
  exact and_congr_left fun _ => hdirection

end Arc

/-! ## Weights swapped -/

namespace Weights

variable {n : Nat} {w : Weights n} {capacity m : Vector Int64 n}

/-- What was taken is given, and what was given is taken. -/
def swap (w : Weights n) : Weights n := ⟨w.post, w.pre⟩

theorem inDirection_swap (d : Direction) : w.swap.inDirection d = w.inDirection d.opposite := by
  cases d <;> rfl

theorem predecessor_of_le {pre post v : Int64} (hpre : 0 ≤ pre) (hpost : 0 ≤ post) (hle : post ≤ v) :
    predecessor pre post v = v - post + pre := by
  have hzero : ∀ {x : Int64}, 0 ≤ x → ¬ 0 < x → x = 0 := fun h0 hpos =>
    Int64.le_antisymm (Int64.not_lt.mp hpos) h0
  have hboundary : v ≤ post → v - post = 0 := by
    intro hv
    rw [Int64.le_antisymm hv hle, Int64.sub_self]
  rw [predecessor]
  split
  · split
    · split
      next hv => rw [hboundary hv, Int64.zero_add]
      next => rw [Int64.sub_eq_add_neg, Int64.sub_eq_add_neg, Int64.add_assoc, Int64.add_comm pre,
        Int64.add_assoc]
    next hno => rw [hzero hpost hno, Int64.sub_zero]
  next hnone =>
    rw [hzero hpre hnone, Int64.add_zero]
    split
    · split
      next hv => rw [hboundary hv]
      next => rfl
    next hno => rw [hzero hpost hno, Int64.sub_zero]

/-- Reverting is moving the other way where everything that was given is there. The sums wrap alike. -/
theorem unapply_eq_apply_swap (hw : w.Sound) (hcovered : Covers m w.post) : w.unapply m = w.swap.apply m := by
  apply vector_ext
  intro p
  rw [get_unapply, get_apply]
  exact predecessor_of_le (hw.pre p) (hw.post p) (hcovered p)

/-- The dual fires what is covered, and its guard is about the places that the transition takes from. -/
theorem fire?_swap (hw : w.Sound) (hcovered : Covers m w.post) : w.swap.fire? capacity m
    = if w.swap.Fits capacity (w.unapply m) then some (w.unapply m) else none := by
  have henabled : w.swap.Enabled m := hcovered
  rw [fire?, ← unapply_eq_apply_swap hw hcovered]
  simp only [henabled, true_and]

theorem fire?_swap_eq_none (huncovered : ¬ Covers m w.post) : w.swap.fire? capacity m = none :=
  if_neg fun h => huncovered h.1

end Weights

namespace Net

variable {net net' : Net} {places transitions : List Datum} {arcs arcs' : List Arc}
  {declaredPlaces declaredTransitions capacity capacity' default default' t : Datum} {d : Direction} {m : Marking}
  {j : Fin net.transitions.length}

/-! ## The dual -/

/-- The net with every arc turned round. -/
def dual (net : Net) : Net := { net with weights := net.weights.map Weights.swap }

theorem weights_dual (net : Net) (j : Fin net.transitions.length) :
    net.dual.weights.get j = (net.weights.get j).swap :=
  Vector.getElem_map ..

theorem weightIn_turned (transition place : Datum) : weightIn (arcs.map Arc.turned) d transition place
    = weightIn arcs d.opposite transition place := by
  have hjoins : (fun a : Arc => a.joins d transition place) ∘ Arc.turned
      = fun a => a.joins d.opposite transition place :=
    funext Arc.joins_turned
  rw [weightIn, weightIn, List.find?_map, hjoins, Option.map_map]
  rfl

theorem noneParallel_turned (h : NoneParallel arcs) : NoneParallel (arcs.map Arc.turned) := by
  refine List.pairwise_map.mpr (h.imp fun {a b} hab => ?_)
  rw [Arc.parallel_turned]
  exact hab

/-- The stages let the turned arcs through as well, and nothing but the weights is another. -/
theorem assemble_dual (h : assemble net.places net.transitions arcs capacity default = .ok net) :
    assemble net.places net.transitions (arcs.map Arc.turned) capacity default = .ok net.dual := by
  obtain ⟨hdisjoint, harcs, hdeclared, hlabels, _⟩ := assemble_eq_ok.mp h
  have hhash := hashable_of_checkArcs harcs
  rw [checkArcs_eq_ok hhash] at harcs
  rw [checkDeclared_eq_ok] at hdeclared
  rw [checkLabels_eq_ok] at hlabels
  have hlabels' : ∀ a ∈ arcs.map Arc.turned, (a.label : Int) ≤ mostTokens := by
    intro b hb
    obtain ⟨a, ha, rfl⟩ := List.mem_map.mp hb
    exact hlabels a ha
  have hweights : net.weights.map Weights.swap
      = Vector.ofFn fun t => weightsOf net.places (arcs.map Arc.turned) (net.transitions.get t) := by
    refine Weights.vector_ext fun t => weights_ext fun d p => ?_
    have hleft : (net.weights.map Weights.swap).get t = (net.weights.get t).swap := net.weights_dual t
    have hright : (Vector.ofFn fun t => weightsOf net.places (arcs.map Arc.turned) (net.transitions.get t)).get t
        = weightsOf net.places (arcs.map Arc.turned) (net.transitions.get t) := Vector.getElem_ofFn t.isLt
    rw [hleft, hright, weights_of_assemble h, Weights.inDirection_swap, toInt_weightsOf _ hlabels,
      toInt_weightsOf _ hlabels', weightIn_turned]
  refine assemble_eq_ok.mpr ⟨hdisjoint, (checkArcs_eq_ok ?_).mpr (noneParallel_turned harcs),
    checkDeclared_eq_ok.mpr ?_, checkLabels_eq_ok.mpr hlabels', net.capacity, capacity_of_assemble h,
    Net.mk.injEq .. |>.mpr ⟨rfl, rfl, heq_of_eq rfl, heq_of_eq hweights⟩⟩
  · intro b hb
    obtain ⟨a, ha, rfl⟩ := List.mem_map.mp hb
    exact hhash a ha
  · intro b hb
    obtain ⟨a, ha, rfl⟩ := List.mem_map.mp hb
    exact hdeclared a ha

/-- Nets over the same identifiers that have the same arcs, in any order, and the same capacities are one. -/
theorem eq_of_assemble (h : assemble places transitions arcs capacity default = .ok net)
    (h' : assemble places transitions arcs' capacity' default' = .ok net') (harcs : arcs.Perm arcs')
    (hcapacities : net.capacities = net'.capacities) : net = net' := by
  obtain ⟨_, hchecked, _, hlabels, words, _, rfl⟩ := assemble_eq_ok.mp h
  obtain ⟨_, _, _, hlabels', words', _, rfl⟩ := assemble_eq_ok.mp h'
  have hnone := (checkArcs_eq_ok (hashable_of_checkArcs hchecked)).mp hchecked
  rw [checkLabels_eq_ok] at hlabels hlabels'
  have hnumbers : ∀ words : Vector Int64 places.length,
      (places.zip (words.toList.map Int64.toInt)).map (·.2) = words.toList.map Int64.toInt :=
    fun words => List.map_snd_zip (by simp)
  have hwords : words = words' := by
    have hlist : words.toList.map Int64.toInt = words'.toList.map Int64.toInt := by
      rw [← hnumbers words, ← hnumbers words']
      exact congrArg (List.map (·.2)) hcapacities
    exact Vector.toList_inj.mp (List.map_inj_right (fun _ _ => Int64.toInt_inj.mp) |>.mp hlist)
  have hweights : ∀ transition, weightsOf places arcs transition = weightsOf places arcs' transition := by
    intro transition
    refine weights_ext fun d p => ?_
    rw [toInt_weightsOf _ hlabels, toInt_weightsOf _ hlabels', weightIn_reordered hnone harcs]
  simp only [hwords, hweights]

/-! ## Firing in the dual -/

/-- The marking holds what the transition gives, in words and in whole numbers. -/
theorem covers_post_iff (hfit : net.FitsWords m) : Weights.Covers (net.wordsOf m) (net.weights.get j).post ↔
    net.AtLeast m (net.markingOfWords (net.weights.get j).post) := by
  rw [← covers_wordsOf_iff (fitsWords_markingOfWords _) hfit, wordsOf_markingOfWords]

/-- The guard of the dual, in whole numbers. -/
theorem fits_swap_iff (v : Vector Int64 net.places.length) :
    (net.weights.get j).swap.Fits net.capacity v ↔
      ∀ p, 0 < net.takes j p → (net.markingOfWords v).tokens p ≤ net.capacityAt p := by
  refine forall_congr' fun p => ?_
  rw [tokens_markingOfWords, takes, capacityAt, ← Weights.zero_lt_iff, ← Int64.le_iff_toInt_le]
  rfl

theorem fire_dual_eq (hm : net.Owns m) (hfit : net.FitsWords m) (hj : net.transitionIndex t = .ok j) :
    net.dual.fire t m.toDatum
      = .ok (((net.weights.get j).swap.fire? net.capacity (net.wordsOf m)).map net.markingOfWords) := by
  have howns : net.dual.Owns m := ⟨hm.places, hm.whole⟩
  have hfound := transitionIndex_eq_ok.mp hj
  have hindex : net.dual.transitionIndex t = .ok j := transitionIndex_eq_ok.mpr hfound
  rw [fire_eq howns hfit, hindex]
  show Except.ok (((net.dual.weights.get j).fire? net.capacity (net.wordsOf m)).map net.markingOfWords) = _
  rw [weights_dual]
  rfl

/-- **Reverting is firing backwards.** The arcs of a net turned round make one net, its dual. From a marking that
the net accepts, reverting under a declared transition always has a result. Where the marking holds all that the
transition gives, the dual fires to this very result, wrapped or not, unless it is beyond the capacity of a place
that the transition takes from; elsewhere the dual does not fire. -/
theorem revert_fires_dual (h : (build declaredPlaces declaredTransitions arcs capacity default).result = .ok net) :
    (build declaredPlaces declaredTransitions (arcs.map Arc.turned) capacity default).result = .ok net.dual ∧
      (∀ (dual : Net) (places transitions : Datum) (arcs' : List Arc) (capacity' default' : Datum),
        (build places transitions arcs' capacity' default').result = .ok dual →
        arcs'.Perm (arcs.map Arc.turned) → dual.places = net.places → dual.transitions = net.transitions →
        dual.capacities = net.capacities → dual = net.dual) ∧
      ∀ x m t j, net.marking x = .ok m → net.transitionIndex t = .ok j →
        ∃ effect q, net.exactEffect t = .ok effect ∧ net.revert m.toDatum t = .ok (some q) ∧
          (net.AtLeast m effect → net.dual.fire t m.toDatum =
            .ok (if ∀ p, 0 < net.takes j p → q.tokens p ≤ net.capacityAt p then some q else none)) ∧
          (¬ net.AtLeast m effect → net.dual.fire t m.toDatum = .ok none) := by
  obtain ⟨hplaces, htransitions, hassembled⟩ := build_eq_ok.mp h
  have hb : net.Built := ⟨_, _, _, _, _, h⟩
  refine ⟨build_eq_ok.mpr ⟨hplaces, htransitions, assemble_dual hassembled⟩, ?_, ?_⟩
  · intro dual places transitions arcs' capacity' default' hdual harcs hsameplaces hsametransitions hcapacities
    obtain ⟨_, _, hdual⟩ := build_eq_ok.mp hdual
    rw [hsameplaces, hsametransitions] at hdual
    exact eq_of_assemble hdual (assemble_dual hassembled) harcs hcapacities
  · intro x m t j hx hj
    have hm := valid_of_marking hx
    have hfit := hm.inRange.fitsWords
    have hrevert : net.revert m.toDatum t
        = .ok (some (net.markingOfWords ((net.weights.get j).unapply (net.wordsOf m)))) := by
      refine (reverts_iff hm.owns hfit).mpr ⟨j, hj, fun p _ => ?_, rfl⟩
      rw [Int64.le_iff_toInt_le, toInt_wordsOf hfit]
      exact (hm.within p).2
    refine ⟨net.markingOfWords (net.weights.get j).post, _, ?_, hrevert, fun hcovered => ?_, fun huncovered => ?_⟩
    · rw [exactEffect, hj]
      rfl
    · rw [← covers_post_iff hfit] at hcovered
      rw [fire_dual_eq hm.owns hfit hj, Weights.fire?_swap (hb.sound j) hcovered]
      simp only [← fits_swap_iff]
      split <;> rfl
    · rw [← covers_post_iff hfit] at huncovered
      rw [fire_dual_eq hm.owns hfit hj, Weights.fire?_swap_eq_none huncovered]
      rfl

/-- A well that holds as many buckets as a word can count. -/
def well : Net where
  places := [.str "well"]
  transitions := [.str "draw", .str "pour"]
  capacity := .replicate 1 9223372036854775807
  weights := #v[⟨.replicate 1 1, .replicate 1 0⟩, ⟨.replicate 1 0, .replicate 1 3⟩]

def wellAt (buckets : Int) : Marking := ⟨[(.str "well", .int buckets)]⟩

/-- From the full well, drawing is reverted to a count that has wrapped, and the dual fires to the same count. From
two buckets, pouring three is reverted to none, but the dual does not fire. -/
theorem revert_fires_dual_well :
    well.revert (wellAt 9223372036854775807).toDatum (.str "draw")
        = .ok (some (wellAt (-9223372036854775808))) ∧
      well.dual.fire (.str "draw") (wellAt 9223372036854775807).toDatum
        = .ok (some (wellAt (-9223372036854775808))) ∧
      well.revert (wellAt 2).toDatum (.str "pour") = .ok (some (wellAt 0)) ∧
      well.dual.fire (.str "pour") (wellAt 2).toDatum = .ok none := by
  have hbuild : (build (.list [.str "well"]) (.list [.str "draw", .str "pour"])
      [⟨.str "well", .str "draw", 1, .pre, by decide⟩, ⟨.str "well", .str "pour", 3, .post, by decide⟩] .null
      (.int 9223372036854775807)).result = .ok well := by with_unfolding_all rfl
  obtain ⟨_, _, hbackwards⟩ := revert_fires_dual hbuild
  have hdraw : well.revert (wellAt 9223372036854775807).toDatum (.str "draw")
      = .ok (some (wellAt (-9223372036854775808))) := rfl
  have hpour : well.revert (wellAt 2).toDatum (.str "pour") = .ok (some (wellAt 0)) := rfl
  refine ⟨hdraw, ?_, hpour, ?_⟩
  · obtain ⟨_, _, heffect, hrevert, hcovered, _⟩ :=
      hbackwards (.dict [(.str "well", .int 9223372036854775807)]) (wellAt 9223372036854775807) (.str "draw")
        ⟨0, by decide⟩ rfl rfl
    have hnothing : well.exactEffect (.str "draw") = .ok (wellAt 0) := rfl
    obtain rfl := Except.ok.inj (hnothing.symm.trans heffect)
    obtain rfl := Option.some.inj (Except.ok.inj (hdraw.symm.trans hrevert))
    rw [hcovered (by decide), if_pos (by decide)]
  · obtain ⟨_, _, heffect, _, _, huncovered⟩ :=
      hbackwards (.dict [(.str "well", .int 2)]) (wellAt 2) (.str "pour") ⟨1, by decide⟩ rfl rfl
    have hthree : well.exactEffect (.str "pour") = .ok (wellAt 3) := rfl
    obtain rfl := Except.ok.inj (hthree.symm.trans heffect)
    exact huncovered (by decide)

end Net

end Petri
