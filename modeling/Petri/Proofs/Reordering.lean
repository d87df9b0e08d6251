import Petri.Proofs.Correspondence

/-!
# Descriptions in another order

Places and transitions get their positions from the order in which they are declared. The positions are not to be
seen from outside: what is declared and listed in another order is accepted or refused as before, and the two nets
do the same under the same names.

> `Capacity.resolve_reordered`, `assemble_reordered`: each stage looks at all of its items, so that their order
> makes no difference to whether there is a fault;
> `Reordered.corresponds`: positions that hold the same name stand for each other;
> `order_independent`: **the order of a description does not matter.**
-/

namespace Petri

/-! ## Identifiers in another order -/

/-- The two values declare the same identifiers, in any order. Identifiers can be keys. -/
def Domain.SameNames (declared declared' : Datum) : Prop :=
  ∃ xs xs', sequence declared = .ok xs ∧ sequence declared' = .ok xs' ∧ xs.Perm xs' ∧
    ∀ x ∈ xs, x.hashable = true

/-- The same item stands at the positions. -/
def SameItem (xs ys : List Datum) (i : Fin xs.length) (j : Fin ys.length) : Prop :=
  xs.get i = ys.get j

theorem biTotal_sameItem {xs ys : List Datum} (h : xs.Perm ys) : Relator.BiTotal (SameItem xs ys) := by
  constructor
  · intro i
    obtain ⟨j, hj⟩ := List.get_of_mem (h.mem_iff.mp (List.get_mem xs i))
    exact ⟨j, hj.symm⟩
  · intro j
    exact List.get_of_mem (h.mem_iff.mpr (List.get_mem ys j))

/-- Among the same distinct items, a key is found at positions of the same item. -/
theorem find_reordered {xs ys : List Datum} (h : xs.Perm ys) (hdistinct : Distinct xs) (key : Datum) :
    Option.Rel (SameItem xs ys) (xs.findFinIdx? (· == key)) (ys.findFinIdx? (· == key)) := by
  cases hleft : xs.findFinIdx? (· == key) with
  | none =>
    have hnone : ys.findFinIdx? (· == key) = none := by
      rw [List.findFinIdx?_eq_none_iff] at hleft ⊢
      exact fun y hy => hleft y (h.mem_iff.mpr hy)
    rw [hnone]
    exact .none
  | some i =>
    obtain ⟨hi, _⟩ := List.findFinIdx?_eq_some_iff.mp hleft
    have hsome : (ys.findFinIdx? (· == key)).isSome = true := by
      rw [List.isSome_findFinIdx?, List.any_eq_true]
      exact ⟨_, h.mem_iff.mp (List.get_mem xs i), hi⟩
    obtain ⟨j, hright⟩ := Option.isSome_iff_exists.mp hsome
    obtain ⟨hj, _⟩ := List.findFinIdx?_eq_some_iff.mp hright
    rw [hright]
    exact .some (hdistinct.eq_of_beq (List.get_mem xs i) (h.mem_iff.mpr (List.get_mem ys j))
      (BEq.trans hi (BEq.symm hj)))

/-! ## Stages -/

namespace Capacity

variable {places places' : List Datum} {capacity default : Datum} {es : List (Datum × Datum)}

theorem mismatches_reordered (h : places.Perm places') : Mismatches places es ↔ Mismatches places' es := by
  have hany : ∀ e : Datum × Datum, places.any (· == e.1) = places'.any (· == e.1) := fun e => h.any_eq
  have hkeys : KeysMatch places es ↔ KeysMatch places' es := by
    constructor
    · intro hk
      exact ⟨fun p hp => hk.covered p (h.mem_iff.mpr hp), fun e he => (hany e).symm.trans (hk.declared e he)⟩
    · intro hk
      exact ⟨fun p hp => hk.covered p (h.mem_iff.mp hp), fun e he => (hany e).trans (hk.declared e he)⟩
  simp only [Mismatches, hkeys, h.mem_iff]

/-- If capacities can be found for the places in one order, the same ones are found in any other. -/
theorem resolve_reordered (h : places.Perm places') (hhash : ∀ p ∈ places, p.hashable = true)
    (hcapacity : Describes capacity es) {words : Vector Int64 places.length}
    (hwords : resolve places capacity default = .ok words) :
    ∃ words', resolve places' capacity default = .ok words' ∧
      ∀ p p', SameItem places places' p p' → words.get p = words'.get p' := by
  by_cases hsome : es = []
  · -- the default is the same at every place
    subst hsome
    have hfalsy : ¬ capacity.truthy = true := by
      rw [hcapacity.truthy_iff]
      simp
    rw [resolve, if_neg hfalsy] at hwords
    obtain ⟨word, hword, hwords⟩ := bind_eq_ok.mp hwords
    obtain rfl := pure_eq_ok.mp hwords
    refine ⟨Vector.replicate places'.length word, ?_, fun p p' _ => ?_⟩
    · rw [resolve, if_neg hfalsy, uniform, hword]
      rfl
    · have hget : (Vector.replicate places.length word).get p = word := Vector.getElem_replicate p.isLt
      rw [hget]
      exact (Vector.getElem_replicate p'.isLt).symm
  · have hhash' : ∀ p ∈ places', p.hashable = true := fun p hp => hhash p (h.mem_iff.mpr hp)
    have hgood : ¬ Mismatches places es := fun hbad =>
      (resolve_refused hcapacity hsome hhash hbad).ne_ok words hwords
    have hfits : ¬ Exceeds places es := by
      intro hlarge
      rw [resolve_too_large hcapacity hsome hhash hgood hlarge] at hwords
      cases hwords
    have hfits' : ¬ Exceeds places' es := by
      simp only [Exceeds, ← h.mem_iff]
      exact hfits
    obtain ⟨_, hfound, hnumbers⟩ := resolve_explicit hcapacity hsome hhash hgood hfits
    obtain rfl := Except.ok.inj (hfound.symm.trans hwords)
    obtain ⟨words', hwords', hnumbers'⟩ := resolve_explicit hcapacity hsome hhash'
      (fun hbad => hgood ((mismatches_reordered h).mpr hbad)) hfits'
    refine ⟨words', hwords', fun p p' hp => ?_⟩
    have hsame := hnumbers p
    rw [show places.get p = places'.get p' from hp, hnumbers' p'] at hsame
    exact Int64.toInt_inj.mp (Option.some.inj hsame).symm

end Capacity

namespace Net

variable {places transitions places' transitions' capacity default : Datum}
  {ps ts ps' ts' : List Datum} {arcs arcs' : List Arc} {es : List (Datum × Datum)} {net net' : Net}
  {m m' : Marking} {d : Direction}

/-- Building succeeds exactly if no identifier is declared twice and the stages after that pass. -/
theorem build_eq_ok_iff (hps : Domain.sequence places = .ok ps) (hts : Domain.sequence transitions = .ok ts)
    (hhash : ∀ p ∈ ps, p.hashable = true) (hhash' : ∀ t ∈ ts, t.hashable = true) :
    (build places transitions arcs capacity default).result = .ok net ↔
      Distinct ps ∧ Distinct ts ∧ assemble ps ts arcs capacity default = .ok net := by
  have hbuild : (build places transitions arcs capacity default).result
      = (Domain.checkDistinct "place" [] ps >>= fun _ => Domain.checkDistinct "transition" [] ts >>= fun _ =>
          assemble ps ts arcs capacity default) := by
    show (Domain.normalize places "place" >>= fun ps => Domain.normalize transitions "transition" >>= fun ts =>
      assemble ps ts arcs capacity default) = _
    rw [Domain.normalize_eq hps, Domain.normalize_eq hts]
    cases Domain.checkDistinct "place" [] ps <;> cases Domain.checkDistinct "transition" [] ts <;> rfl
  have hdistinct : ∀ (kind : String) {xs : List Datum}, (∀ x ∈ xs, x.hashable = true) →
      (Domain.checkDistinct kind [] xs = .ok () ↔ Distinct xs) := by
    intro kind xs hxs
    rw [Domain.checkDistinct_eq_ok]
    exact ⟨fun h => h.2, fun h => ⟨fun x hx => ⟨hxs x hx, by simp⟩, h⟩⟩
  rw [hbuild, ← hdistinct "place" hhash, ← hdistinct "transition" hhash']
  constructor
  · intro h
    obtain ⟨_, h1, h⟩ := bind_eq_ok.mp h
    obtain ⟨_, h2, h⟩ := bind_eq_ok.mp h
    exact ⟨h1, h2, h⟩
  · intro h
    rw [h.1, h.2.1]
    exact h.2.2

theorem declared_reordered (hps : ps.Perm ps') (hts : ts.Perm ts') (a : Arc) :
    a.Declared ps ts ↔ a.Declared ps' ts' := by
  rw [Arc.Declared, Arc.Declared, hps.any_eq, hts.any_eq]

/-- Whether the stages pass does not depend on the order of what they look at. -/
theorem assemble_reordered (hps : ps.Perm ps') (hts : ts.Perm ts') (harcs : arcs.Perm arcs')
    (hhash : ∀ p ∈ ps, p.hashable = true) (harcs_hash : ∀ a ∈ arcs, a.hashable = true)
    (hcapacity : Capacity.Describes capacity es) (h : assemble ps ts arcs capacity default = .ok net) :
    ∃ net', assemble ps' ts' arcs' capacity default = .ok net' := by
  obtain ⟨hdisjoint, hnone, hdeclared, hlabels, words, hwords, _⟩ := assemble_eq_ok.mp h
  obtain ⟨words', hwords', _⟩ := Capacity.resolve_reordered hps hhash hcapacity hwords
  rw [checkDisjoint_eq_ok] at hdisjoint
  rw [checkArcs_eq_ok harcs_hash] at hnone
  rw [checkDeclared_eq_ok] at hdeclared
  rw [checkLabels_eq_ok] at hlabels
  refine ⟨_, assemble_eq_ok.mpr ⟨checkDisjoint_eq_ok.mpr ?_, (checkArcs_eq_ok ?_).mpr (hnone.perm harcs.symm),
    checkDeclared_eq_ok.mpr ?_, checkLabels_eq_ok.mpr ?_, words', hwords', rfl⟩⟩
  · exact fun p hp t ht => hdisjoint p (hps.mem_iff.mpr hp) t (hts.mem_iff.mpr ht)
  · exact fun a ha => harcs_hash a (harcs.mem_iff.mpr ha)
  · exact fun a ha => (declared_reordered hps hts a).mp (hdeclared a (harcs.mem_iff.mpr ha))
  · exact fun a ha => hlabels a (harcs.mem_iff.mpr ha)

/-- The only arc that joins two ends is found in any order. -/
theorem weightIn_reordered (hnone : NoneParallel arcs) (harcs : arcs.Perm arcs') (t p : Datum) :
    weightIn arcs d t p = weightIn arcs' d t p := by
  have hnone' : NoneParallel arcs' := hnone.perm harcs.symm
  by_cases hpos : 0 < weightIn arcs d t p
  · obtain ⟨a, ha, hjoins, hlabel⟩ := exists_of_weightIn_pos hpos
    rw [← hlabel, weightIn_of_mem hnone' (harcs.mem_iff.mp ha) hjoins]
  · have hzero : ¬ 0 < weightIn arcs' d t p := by
      intro hpos'
      obtain ⟨a, ha, hjoins, hlabel⟩ := exists_of_weightIn_pos hpos'
      have hfound := weightIn_of_mem hnone (harcs.mem_iff.mpr ha) hjoins
      have := a.label_pos
      omega
    omega

/-! ## Nets that differ in their positions -/

/-- The nets have the same places, transitions, arcs and capacities, at any positions. -/
structure Reordered (net net' : Net) : Prop where
  built : net.Built
  built' : net'.Built
  places : net.places.Perm net'.places
  transitions : net.transitions.Perm net'.transitions
  weights : ∀ d j j' p p', SameItem net.transitions net'.transitions j j' →
    SameItem net.places net'.places p p' → net.weightAt d j p = net'.weightAt d j' p'
  capacities : ∀ p p', SameItem net.places net'.places p p' → net.capacityAt p = net'.capacityAt p'

/-- The positions of one name stand for each other. -/
abbrev SamePlace (net net' : Net) : Fin net.places.length → Fin net'.places.length → Prop :=
  SameItem net.places net'.places

namespace Reordered

theorem roomier (h : net.Reordered net') : net.Roomier net' (net.SamePlace net') :=
  fun p p' hp => Int.le_of_eq (h.capacities p p' hp)

theorem roomier' (h : net.Reordered net') : net'.Roomier net (flip (net.SamePlace net')) :=
  fun p p' hp => Int.le_of_eq (h.capacities p' p hp).symm

theorem corresponds (h : net.Reordered net') :
    net.Corresponds net' (net.SamePlace net') (SameItem net.transitions net'.transitions) := by
  have hindex : ∀ t, SameOutcome (SameItem net.transitions net'.transitions) (net.transitionIndex t)
      (net'.transitionIndex t) := by
    intro t
    rw [transitionIndex, transitionIndex]
    refine SameOutcome.bind (R := Eq) ?_ fun _ _ _ => ?_
    · cases t.requireHashable with
      | ok => exact .ok rfl
      | error fault => exact .error _
    · have hfind := find_reordered h.transitions h.built.distinct_transitions t
      generalize net.transitions.findFinIdx? (· == t) = left at hfind
      generalize net'.transitions.findFinIdx? (· == t) = right at hfind
      cases hfind with
      | some hj => exact .ok hj
      | none => exact .raise _
  have hword : ∀ d j j', SameItem net.transitions net'.transitions j j' →
      Weights.SameWords (net.SamePlace net') ((net.weights.get j).inDirection d)
        ((net'.weights.get j').inDirection d) :=
    fun d j j' hj p p' hp => Int64.toInt_inj.mp (h.weights d j j' p p' hj hp)
  exact ⟨biTotal_sameItem h.places, biTotal_sameItem h.transitions, fun _ _ hp => hp ▸ BEq.rfl, hindex,
    fun j j' hj => ⟨hword .pre j j' hj, hword .post j j' hj⟩⟩

end Reordered

theorem reordered_of_assemble (hps : ps.Perm ps') (hts : ts.Perm ts') (harcs : arcs.Perm arcs')
    (hhash : ∀ p ∈ ps, p.hashable = true) (harcs_hash : ∀ a ∈ arcs, a.hashable = true)
    (hcapacity : Capacity.Describes capacity es) (hb : net.Built) (hb' : net'.Built)
    (h : assemble ps ts arcs capacity default = .ok net)
    (h' : assemble ps' ts' arcs' capacity default = .ok net') : net.Reordered net' := by
  obtain ⟨rfl, rfl⟩ := parts_of_assemble h
  obtain ⟨rfl, rfl⟩ := parts_of_assemble h'
  obtain ⟨_, hnone, _⟩ := assemble_eq_ok.mp h
  rw [checkArcs_eq_ok harcs_hash] at hnone
  obtain ⟨_, hfound, hsame⟩ :=
    Capacity.resolve_reordered hps hhash hcapacity (capacity_of_assemble h)
  obtain rfl := Except.ok.inj (hfound.symm.trans (capacity_of_assemble h'))
  refine ⟨hb, hb', hps, hts, fun d j j' p p' hj hp => ?_,
    fun p p' hp => congrArg Int64.toInt (hsame p p' hp)⟩
  rw [weightAt_of_assemble h, weightAt_of_assemble h', weightIn_reordered hnone harcs,
    show net.transitions.get j = net'.transitions.get j' from hj,
    show net.places.get p = net'.places.get p' from hp]

/-! ## The same under the same names -/

/-- Markings of the two nets whose counts are words, with the same count under every name. Under what is no place
neither of them has a count. -/
structure SameCounts (net net' : Net) (m m' : Marking) : Prop where
  owns : net.Owns m
  fits : net.FitsWords m
  owns' : net'.Owns m'
  fits' : net'.FitsWords m'
  counts : ∀ place, m.lookup? place = m'.lookup? place

/-- Each of the markings found by one net is found by the other, with the same count under every name. -/
def SameFound (net net' : Net) (found found' : List Marking) : Prop :=
  Included (net.SameCounts net') found found' ∧ Included (flip (net.SameCounts net')) found' found

/-- From the markings `m` and `m'` the two nets do the same under the same names. -/
structure ActsAlike (net net' : Net) (m m' : Marking) : Prop where
  fire : ∀ t, SameOutcome (Option.Rel (net.SameCounts net')) (net.fire t m.toDatum) (net'.fire t m'.toDatum)
  revert : ∀ t,
    SameOutcome (Option.Rel (net.SameCounts net')) (net.revert m.toDatum t) (net'.revert m'.toDatum t)
  isEnabled : ∀ t, net.isEnabled t m.toDatum = net'.isEnabled t m'.toDatum
  enabledTransitions : ∃ found found', net.enabledTransitions m.toDatum = .ok found ∧
    net'.enabledTransitions m'.toDatum = .ok found' ∧ found.Perm found'
  successors : ∃ found found', (net.successors m.toDatum).result = .ok found ∧
    (net'.successors m'.toDatum).result = .ok found' ∧ net.SameFound net' found found'
  revertAll : ∃ found found', net.revertAll m.toDatum = .ok found ∧ net'.revertAll m'.toDatum = .ok found' ∧
    net.SameFound net' found found'

/-- The nets cannot be told apart but for the order in which they list things. -/
structure Interchangeable (net net' : Net) : Prop where
  accepted : ∀ x es, x.entries = .ok es → ((∃ m, net.marking x = .ok m) ↔ ∃ m', net'.marking x = .ok m')
  marking : ∀ x es m m', x.entries = .ok es → net.marking x = .ok m → net'.marking x = .ok m' →
    net.SameCounts net' m m'
  actsAlike : ∀ m m', net.SameCounts net' m m' → net.ActsAlike net' m m'
  revertSet : ∀ x x' (ms ms' : List Marking), x.items = .ok (ms.map Marking.toDatum) →
    x'.items = .ok (ms'.map Marking.toDatum) → net.SameFound net' ms ms' →
    ∃ found found', (net.revertSet x).result = .ok found ∧ (net'.revertSet x').result = .ok found' ∧
      net.SameFound net' found found'

namespace Reordered

theorem sameCounts_of_matches (h : net.Reordered net') (hm : net.Matches net' (net.SamePlace net') m m') :
    net.SameCounts net' m m' := by
  refine ⟨hm.owns, hm.fits, hm.owns', hm.fits', fun place => ?_⟩
  by_cases hplace : ∃ p, (net.places.get p == place) = true
  · obtain ⟨p, hp⟩ := hplace
    obtain ⟨p', hsame⟩ := h.corresponds.places.1 p
    have hp' : (net'.places.get p' == place) = true := by
      rw [← show net.places.get p = net'.places.get p' from hsame]
      exact hp
    rw [hm.owns.lookup?_eq h.built hp, hm.owns'.lookup?_eq h.built' hp', hm.tokens p p' hsame]
  · have hno : ∀ p, ¬ (net.places.get p == place) = true := not_exists.mp hplace
    have hno' : ∀ p', ¬ (net'.places.get p' == place) = true := by
      intro p'
      obtain ⟨p, hsame⟩ := h.corresponds.places.2 p'
      rw [← show net.places.get p = net'.places.get p' from hsame]
      exact hno p
    rw [hm.owns.lookup?_eq_none hno, hm.owns'.lookup?_eq_none hno']

theorem matches_of_sameCounts (h : net.Reordered net') (hm : net.SameCounts net' m m') :
    net.Matches net' (net.SamePlace net') m m' := by
  refine ⟨hm.owns, hm.fits, hm.owns', hm.fits', fun p p' hp => ?_⟩
  have hsame : (net'.places.get p' == net.places.get p) = true := BEq.symm (h.corresponds.named p p' hp)
  have hlookup := hm.counts (net.places.get p)
  rw [hm.owns.lookup?_eq h.built BEq.rfl, hm.owns'.lookup?_eq h.built' hsame] at hlookup
  exact Datum.int.inj (Option.some.inj hlookup)

theorem sameCounts_of_rel (h : net.Reordered net') {q q' : Option Marking}
    (hq : Option.Rel (net.Matches net' (net.SamePlace net')) q q') :
    Option.Rel (net.SameCounts net') q q' := by
  cases hq with
  | some hq => exact .some (h.sameCounts_of_matches hq)
  | none => exact .none

theorem sameFound (h : net.Reordered net') {found found' : List Marking}
    (hleft : Included (net.Matches net' (net.SamePlace net')) found found')
    (hright : Included (net'.Matches net (flip (net.SamePlace net'))) found' found) :
    net.SameFound net' found found' := by
  constructor
  · intro q hq
    obtain ⟨q', hq', hmatch⟩ := hleft q hq
    exact ⟨q', hq', h.sameCounts_of_matches hmatch⟩
  · intro q' hq'
    obtain ⟨q, hq, hmatch⟩ := hright q' hq'
    exact ⟨q, hq, h.sameCounts_of_matches hmatch.symm⟩

/-- A transition fires at one of its positions exactly if it fires at the other. -/
theorem firesAt_eq (h : net.Reordered net') (hm : net.Matches net' (net.SamePlace net') m m')
    {j : Fin net.transitions.length} {j' : Fin net'.transitions.length}
    (hj : SameItem net.transitions net'.transitions j j') :
    net.firesAt (net.wordsOf m) j = net'.firesAt (net'.wordsOf m') j' := by
  have hc := h.corresponds
  rw [Bool.eq_iff_iff, firesAt, firesAt, Option.isSome_iff_exists, Option.isSome_iff_exists]
  constructor
  · intro hfires
    obtain ⟨v, hv⟩ := hfires
    obtain ⟨v', hv', _⟩ :=
      Weights.fire?_of_roomier hc.places h.roomier.words (hc.weights j j' hj) hm.words hv
    exact ⟨v', hv'⟩
  · intro hfires
    obtain ⟨v', hv'⟩ := hfires
    obtain ⟨v, hv, _⟩ := Weights.fire?_of_roomier hc.symm.places h.roomier'.words
      (hc.symm.weights j' j hj) hm.symm.words hv'
    exact ⟨v, hv⟩

theorem enabledTransitions_perm (h : net.Reordered net') (hm : net.Matches net' (net.SamePlace net') m m') :
    (net.firingFrom (net.wordsOf m)).Perm (net'.firingFrom (net'.wordsOf m')) := by
  have hleft := h.built.distinct_transitions.nodup
  have hright := (h.transitions.nodup_iff).mp hleft
  refine (List.perm_ext_iff_of_nodup (hleft.sublist (firingFrom_sublist _))
    (hright.sublist (firingFrom_sublist _))).mpr fun t => ?_
  simp only [firingFrom, List.mem_map, List.mem_filter, List.mem_finRange, true_and]
  constructor
  · intro ht
    obtain ⟨j, hfires, rfl⟩ := ht
    obtain ⟨j', hj⟩ := h.corresponds.transitions.1 j
    rw [h.firesAt_eq hm hj] at hfires
    exact ⟨j', hfires, hj.symm⟩
  · intro ht
    obtain ⟨j', hfires, rfl⟩ := ht
    obtain ⟨j, hj⟩ := h.corresponds.transitions.2 j'
    rw [← h.firesAt_eq hm hj] at hfires
    exact ⟨j, hfires, hj⟩

theorem actsAlike (h : net.Reordered net') (hcounts : net.SameCounts net' m m') : net.ActsAlike net' m m' := by
  have hc := h.corresponds
  have hm := h.matches_of_sameCounts hcounts
  refine ⟨fun t => ?_, fun t => ?_, fun t => hc.isEnabled hm t, ?_, ?_, ?_⟩
  · exact (hc.fire h.roomier h.roomier' hm t).imp fun _ _ hq => h.sameCounts_of_rel hq
  · exact (hc.revert h.roomier h.roomier' hm t).imp fun _ _ hq => h.sameCounts_of_rel hq
  · exact ⟨_, _, enabledTransitions_eq hm.owns hm.fits, enabledTransitions_eq hm.owns' hm.fits',
      h.enabledTransitions_perm hm⟩
  · obtain ⟨found, found', hfound, hfound', hleft⟩ := hc.successors h.roomier hm
    obtain ⟨_, _, hsame', hsame, hright⟩ := hc.symm.successors h.roomier' hm.symm
    obtain rfl := Except.ok.inj (hfound.symm.trans hsame)
    obtain rfl := Except.ok.inj (hfound'.symm.trans hsame')
    exact ⟨_, _, hfound, hfound', h.sameFound hleft hright⟩
  · obtain ⟨found, found', hfound, hfound', hleft⟩ := hc.revertAll h.roomier hm
    obtain ⟨_, _, hsame', hsame, hright⟩ := hc.symm.revertAll h.roomier' hm.symm
    obtain rfl := Except.ok.inj (hfound.symm.trans hsame)
    obtain rfl := Except.ok.inj (hfound'.symm.trans hsame')
    exact ⟨_, _, hfound, hfound', h.sameFound hleft hright⟩

theorem revertSet_sameFound (h : net.Reordered net') {x x' : Datum} {ms ms' : List Marking}
    (hx : x.items = .ok (ms.map Marking.toDatum)) (hx' : x'.items = .ok (ms'.map Marking.toDatum))
    (hms : net.SameFound net' ms ms') :
    ∃ found found', (net.revertSet x).result = .ok found ∧ (net'.revertSet x').result = .ok found' ∧
      net.SameFound net' found found' := by
  have hc := h.corresponds
  have hleft : Included (net.Matches net' (net.SamePlace net')) ms ms' := by
    intro m hm
    obtain ⟨m', hm', hcounts⟩ := hms.1 m hm
    exact ⟨m', hm', h.matches_of_sameCounts hcounts⟩
  have hright : Included (net'.Matches net (flip (net.SamePlace net'))) ms' ms := by
    intro m' hm'
    obtain ⟨m, hm, hcounts⟩ := hms.2 m' hm'
    exact ⟨m, hm, (h.matches_of_sameCounts hcounts).symm⟩
  have hown : ∀ m ∈ ms, net.Owns m ∧ net.FitsWords m := by
    intro m hm
    obtain ⟨_, _, hmatch⟩ := hleft m hm
    exact ⟨hmatch.owns, hmatch.fits⟩
  have hown' : ∀ m ∈ ms', net'.Owns m ∧ net'.FitsWords m := by
    intro m' hm'
    obtain ⟨_, _, hmatch⟩ := hright m' hm'
    exact ⟨hmatch.owns, hmatch.fits⟩
  obtain ⟨found, found', hfound, hfound', hall⟩ := hc.revertSet h.roomier hx hx' hown hown' hleft
  obtain ⟨_, _, hsame', hsame, hall'⟩ := hc.symm.revertSet h.roomier' hx' hx hown' hown hright
  obtain rfl := Except.ok.inj (hfound.symm.trans hsame)
  obtain rfl := Except.ok.inj (hfound'.symm.trans hsame')
  exact ⟨_, _, hfound, hfound', h.sameFound hall hall'⟩

theorem interchangeable (h : net.Reordered net') : net.Interchangeable net' := by
  have hc := h.corresponds
  refine ⟨fun x es hx => ⟨fun hok => ?_, fun hok => ?_⟩, fun x es m m' hx hm hm' => ?_,
    fun _ _ hcounts => h.actsAlike hcounts, fun _ _ _ _ hx hx' hms => h.revertSet_sameFound hx hx' hms⟩
  · obtain ⟨m, hm⟩ := hok
    obtain ⟨m', hm', _⟩ := hc.marking h.roomier h.built h.built' hx hm
    exact ⟨m', hm'⟩
  · obtain ⟨m', hm'⟩ := hok
    obtain ⟨m, hm, _⟩ := hc.symm.marking h.roomier' h.built' h.built hx hm'
    exact ⟨m, hm⟩
  · obtain ⟨_, hfound, hmatch⟩ := hc.marking h.roomier h.built h.built' hx hm
    obtain rfl := Except.ok.inj (hfound.symm.trans hm')
    exact h.sameCounts_of_matches hmatch

end Reordered

/-- **The order of a description does not matter.** Let the same places and transitions be declared, and the same
arcs listed, in two orders, with one description of the capacities. Then both are accepted or neither is, and the
two nets cannot be told apart: they accept the same mappings, and from markings that hold the same under every
name all operations come to the same under the same names. -/
theorem order_independent (hplaces : Domain.SameNames places places')
    (htransitions : Domain.SameNames transitions transitions') (harcs : arcs.Perm arcs')
    (hhash : ∀ a ∈ arcs, a.hashable = true) (hcapacity : Capacity.Describes capacity es) :
    ((∃ net, (build places transitions arcs capacity default).result = .ok net) ↔
        ∃ net', (build places' transitions' arcs' capacity default).result = .ok net') ∧
      ∀ net net', (build places transitions arcs capacity default).result = .ok net →
        (build places' transitions' arcs' capacity default).result = .ok net' →
        net.Interchangeable net' := by
  obtain ⟨ps, ps', hps, hps', hpperm, hphash⟩ := hplaces
  obtain ⟨ts, ts', hts, hts', htperm, hthash⟩ := htransitions
  have hphash' : ∀ p ∈ ps', p.hashable = true := fun p hp => hphash p (hpperm.mem_iff.mpr hp)
  have hthash' : ∀ t ∈ ts', t.hashable = true := fun t ht => hthash t (htperm.mem_iff.mpr ht)
  have hhash' : ∀ a ∈ arcs', a.hashable = true := fun a ha => hhash a (harcs.mem_iff.mpr ha)
  simp only [build_eq_ok_iff hps hts hphash hthash, build_eq_ok_iff hps' hts' hphash' hthash']
  refine ⟨⟨fun hok => ?_, fun hok => ?_⟩, fun net net' hok hok' => ?_⟩
  · obtain ⟨_, hp, ht, hok⟩ := hok
    obtain ⟨net', hok'⟩ := assemble_reordered hpperm htperm harcs hphash hhash hcapacity hok
    exact ⟨net', hp.perm hpperm, ht.perm htperm, hok'⟩
  · obtain ⟨_, hp, ht, hok⟩ := hok
    obtain ⟨net, hok'⟩ :=
      assemble_reordered hpperm.symm htperm.symm harcs.symm hphash' hhash' hcapacity hok
    exact ⟨net, hp.perm hpperm.symm, ht.perm htperm.symm, hok'⟩
  · have hbuilt : net.Built := ⟨places, transitions, arcs, capacity, default,
      (build_eq_ok_iff hps hts hphash hthash).mpr hok⟩
    have hbuilt' : net'.Built := ⟨places', transitions', arcs', capacity, default,
      (build_eq_ok_iff hps' hts' hphash' hthash').mpr hok'⟩
    exact (reordered_of_assemble hpperm htperm harcs hphash hhash hcapacity
      hbuilt hbuilt' hok.2.2 hok'.2.2).interchangeable

/-- The lamp with everything declared the other way round. What switching on does to the places in their order,
switching off does to them in the other one, so the weights are those of the lamp. -/
def turnedLamp : Net where
  places := [.str "off", .str "on"]
  transitions := [.str "switchOff", .str "switchOn"]
  capacity := lamp.capacity
  weights := lamp.weights

/-- Declared the other way round, the lamp that is on acts as before. -/
theorem order_independent_lamp :
    lamp.places.Perm turnedLamp.places ∧ lamp.arcs.Perm lamp.arcs.reverse ∧
      (build (.list turnedLamp.places) (.list turnedLamp.transitions) lamp.arcs.reverse .null (.int 1)).result
        = .ok turnedLamp ∧
      lamp.ActsAlike turnedLamp (lampAt 1 0) ⟨[(.str "off", .int 0), (.str "on", .int 1)]⟩ := by
  have hplaces : Domain.SameNames (.list lamp.places) (.list turnedLamp.places) :=
    ⟨_, _, rfl, rfl, List.Perm.swap _ _ _, by decide⟩
  have htransitions : Domain.SameNames (.list lamp.transitions) (.list turnedLamp.transitions) :=
    ⟨_, _, rfl, rfl, List.Perm.swap _ _ _, by decide⟩
  have harcs : ∀ a ∈ lamp.arcs, a.hashable = true := fun a ha => (lamp_built.arcs_checked ha).1
  have hlamp : (build (.list lamp.places) (.list lamp.transitions) lamp.arcs .null (.int 1)).result
      = .ok lamp := by with_unfolding_all rfl
  have hturned : (build (.list turnedLamp.places) (.list turnedLamp.transitions) lamp.arcs.reverse .null
      (.int 1)).result = .ok turnedLamp := by with_unfolding_all rfl
  have hsame := (order_independent hplaces htransitions (List.reverse_perm _).symm harcs .absent).2 _ _ hlamp
    hturned
  -- the two markings are made of one mapping
  have hcounts := hsame.marking (.dict [(.str "on", .int 1), (.str "off", .int 0)]) _ (lampAt 1 0)
    ⟨[(.str "off", .int 0), (.str "on", .int 1)]⟩ rfl rfl rfl
  exact ⟨List.Perm.swap _ _ _, (List.reverse_perm _).symm, hturned, hsame.actsAlike _ _ hcounts⟩

end Net

end Petri
