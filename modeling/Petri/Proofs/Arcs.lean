import Petri.Proofs.Stages

/-!
# The arcs of a net

A net keeps its arcs as weights, one for every direction, transition and place. This file lists them as arcs
again (`Net.arcs`), in the order in which the tables of the net list them (`readBack_eq`), and says that a net
and its arcs determine each other:

> `weightIn_of_mem`, `weightAt_of_assemble`: the weight at a position is the label of the one arc that joins its
> ends, and zero if there is none;
> `Built.assemble_arcs`: assembled from its own arcs, in any order, a net is the same but for the capacities;
> `Built.arcs_perm`: the arcs that a net was assembled from are its arcs, in another order and spelling.
-/

namespace Petri

/-! ## Arcs that join the same ends -/

namespace Arc

variable {a b : Arc} {d : Direction} {place transition : Datum}

/-- Arcs are the same if they join the same ends in one direction with one label. -/
theorem beq_iff : (a == b) = true ↔ a.parallel b = true ∧ a.label = b.label := by
  have hname : ∀ d d' : Direction, d.name = d'.name ↔ d = d' := by
    intro d d'
    cases d <;> cases d' <;> decide
  show a.toDatum.same b.toDatum = true ↔ _
  rw [Datum.same_iff, parallel_iff, Datum.beq_eq_same, Datum.beq_eq_same, Datum.same_iff, Datum.same_iff]
  simp only [toDatum, Datum.meaning, Meaning.group.injEq, List.cons.injEq, Meaning.number.injEq,
    Meaning.text.injEq, and_true, true_and, Rat.natCast_inj, hname]
  constructor
  · intro h
    rcases h with ⟨hplace, htransition, hlabel, hd⟩
    exact ⟨⟨hd, htransition, hplace⟩, hlabel⟩
  · intro h
    rcases h with ⟨⟨hd, htransition, hplace⟩, hlabel⟩
    exact ⟨hplace, htransition, hlabel, hd⟩

instance : EquivBEq Arc where
  rfl {a} := BEq.rfl (a := a.toDatum)
  symm {a b} h := BEq.symm (a := a.toDatum) (b := b.toDatum) h
  trans {a b c} hab hbc := BEq.trans (a := a.toDatum) (b := b.toDatum) (c := c.toDatum) hab hbc

/-- The arc has this direction and these ends. -/
def joins (d : Direction) (transition place : Datum) (a : Arc) : Bool :=
  a.direction == d && a.transition == transition && a.place == place

theorem joins_iff : a.joins d transition place = true ↔
    a.direction = d ∧ (a.transition == transition) = true ∧ (a.place == place) = true := by
  rw [joins, Bool.and_eq_true, Bool.and_eq_true, beq_iff_eq, and_assoc]

theorem parallel_of_joins (ha : a.joins d transition place = true)
    (hb : b.joins d transition place = true) : a.parallel b = true := by
  obtain ⟨hda, hta, hpa⟩ := joins_iff.mp ha
  obtain ⟨hdb, htb, hpb⟩ := joins_iff.mp hb
  exact parallel_iff.mpr ⟨hda.trans hdb.symm, BEq.trans hta (BEq.symm htb), BEq.trans hpa (BEq.symm hpb)⟩

/-- An arc with the label of another one and between its ends is made without a fault. -/
theorem make_label (a : Arc) : make a.direction a.place a.transition (.int a.label) = .ok a := by
  obtain ⟨p, t, label, d, hpos⟩ := a
  cases label with
  | zero => exact absurd hpos (Nat.lt_irrefl 0)
  | succ n => rfl

end Arc

namespace Net

variable {given : List Arc} {a b : Arc} {d : Direction} {place transition : Datum}

/-- Among arcs of which none repeats another, parallel arcs are one. -/
theorem NoneParallel.eq (h : NoneParallel given) (ha : a ∈ given) (hb : b ∈ given)
    (hpar : a.parallel b = true) : a = b := by
  obtain ⟨i, hi, rfl⟩ := List.mem_iff_getElem.mp ha
  obtain ⟨j, hj, rfl⟩ := List.mem_iff_getElem.mp hb
  have hlater : ∀ (i j : Nat) (hi : i < given.length) (hj : j < given.length), i < j →
      given[i].parallel given[j] = false := List.pairwise_iff_getElem.mp h
  rcases Nat.lt_trichotomy i j with hlt | rfl | hlt
  · rw [hlater i j hi hj hlt] at hpar
    cases hpar
  · rfl
  · rw [Arc.parallel_comm, hlater j i hj hi hlt] at hpar
    cases hpar

theorem NoneParallel.perm {others : List Arc} (h : NoneParallel others) (hperm : given.Perm others) :
    NoneParallel given := by
  refine (hperm.pairwise_iff fun {a b} hab => ?_).mpr h
  rw [Arc.parallel_comm]
  exact hab

/-- The label of the first arc that joins the two in direction `d`, or zero. -/
def weightIn (given : List Arc) (d : Direction) (transition place : Datum) : Nat :=
  ((given.find? (·.joins d transition place)).map Arc.label).getD 0

theorem weightIn_of_mem (h : NoneParallel given) (ha : a ∈ given)
    (hjoins : a.joins d transition place = true) : weightIn given d transition place = a.label := by
  have hsome : (given.find? (·.joins d transition place)).isSome = true :=
    List.find?_isSome.mpr ⟨a, ha, hjoins⟩
  obtain ⟨b, hb⟩ := Option.isSome_iff_exists.mp hsome
  obtain rfl := h.eq (List.mem_of_find?_eq_some hb) ha
    (Arc.parallel_of_joins (List.find?_some hb) hjoins)
  rw [weightIn, hb]
  rfl

theorem exists_of_weightIn_pos (h : 0 < weightIn given d transition place) :
    ∃ a ∈ given, a.joins d transition place = true ∧ a.label = weightIn given d transition place := by
  rw [weightIn] at h ⊢
  cases hfind : given.find? (·.joins d transition place) with
  | none => simp [hfind] at h
  | some a => exact ⟨a, List.mem_of_find?_eq_some hfind, List.find?_some hfind, rfl⟩

/-- The weights of a transition are the labels of the arcs that join it. -/
theorem toInt_weightsOf (places : List Datum) (hfit : ∀ a ∈ given, (a.label : Int) ≤ mostTokens)
    (p : Fin places.length) :
    (((weightsOf places given transition).inDirection d).get p).toInt
      = weightIn given d transition (places.get p) := by
  have hvector : (weightsOf places given transition).inDirection d
      = weightVector places ((given.filter (·.transition == transition)).filter (·.direction == d)) := by
    cases d <;> rfl
  have hfind : ((given.filter (·.transition == transition)).filter (·.direction == d)).find?
      (·.place == places.get p) = given.find? (·.joins d transition (places.get p)) := by
    rw [List.find?_filter, List.find?_filter]
    congr 1
    funext a
    rw [Bool.eq_iff_iff, Arc.joins_iff]
    simp only [Bool.decide_and, Bool.decide_eq_true, Bool.and_eq_true, decide_eq_true_eq, beq_iff_eq]
    exact ⟨fun h => ⟨h.2.1, h.1, h.2.2⟩, fun h => ⟨h.2.1, h.1, h.2.2⟩⟩
  rw [hvector, weightVector, Weights.get_ofFn, hfind, weightIn]
  cases hmatch : given.find? (·.joins d transition (places.get p)) with
  | none => rfl
  | some a =>
    have hmost := hfit a (List.mem_of_find?_eq_some hmatch)
    rw [mostTokens_eq] at hmost
    exact Int64.toInt_ofNat_of_lt (by omega)

/-! ## Weights as arcs -/

variable {net : Net} {t t' : Fin net.transitions.length} {p p' : Fin net.places.length}

/-- The weight at a position. -/
def weightAt (net : Net) (d : Direction) (t : Fin net.transitions.length) (p : Fin net.places.length) :
    Int :=
  (((net.weights.get t).inDirection d).get p).toInt

/-- A matrix holds for a place and a transition what the column of the transition holds. -/
theorem matrix_entry (column : Weights net.places.length → Vector Int64 net.places.length)
    (j : Fin net.transitions.length) (p : Fin net.places.length) :
    ((net.matrix column)[(p : Nat)]?).bind (·[(j : Nat)]?)
      = some ((column (net.weights.get j)).get p).toInt := by
  have hrow : (net.matrix column)[(p : Nat)]?
      = some (net.weights.toList.map fun w => ((column w).get p).toInt) := by
    rw [matrix, List.getElem?_ofFn, dif_pos p.isLt]
  have hweights : net.weights.toList[(j : Nat)]? = some (net.weights.get j) := by
    rw [List.getElem?_eq_getElem (by simp)]
    rfl
  rw [hrow, Option.bind_some, List.getElem?_map, hweights]
  rfl

/-- The arc that a weight above zero stands for. -/
def arcAt (net : Net) (d : Direction) (t : Fin net.transitions.length) (p : Fin net.places.length) :
    Option Arc :=
  if h : 0 < net.weightAt d t p then
    some ⟨net.places.get p, net.transitions.get t, (net.weightAt d t p).toNat, d, by omega⟩
  else none

/-- The arcs of a transition in one direction, in the order of the places. -/
def column (net : Net) (d : Direction) (t : Fin net.transitions.length) : List Arc :=
  (List.finRange net.places.length).filterMap (net.arcAt d t)

/-- The arcs of one direction, transition by transition. -/
def arcsIn (net : Net) (d : Direction) : List Arc :=
  (List.finRange net.transitions.length).flatMap (net.column d)

/-- All arcs of a net. -/
def arcs (net : Net) : List Arc :=
  net.arcsIn .pre ++ net.arcsIn .post

theorem arcAt_eq_some : net.arcAt d t p = some a ↔
    a.place = net.places.get p ∧ a.transition = net.transitions.get t ∧
      (a.label : Int) = net.weightAt d t p ∧ a.direction = d := by
  rw [arcAt]
  constructor
  · intro h
    split at h
    next hpos =>
      obtain rfl := Option.some.inj h
      exact ⟨rfl, rfl, Int.toNat_of_nonneg (by omega), rfl⟩
    next => cases h
  · intro h
    obtain ⟨place, transition, label, direction, hlabel⟩ := a
    obtain ⟨rfl, rfl, hweight, rfl⟩ := h
    simp only at hweight ⊢
    have htoNat : label = (net.weightAt direction t p).toNat := by omega
    subst htoNat
    rw [dif_pos (by omega)]

theorem mem_column : a ∈ net.column d t ↔ ∃ p, net.arcAt d t p = some a := by
  rw [column, List.mem_filterMap]
  exact exists_congr fun p => and_iff_right (List.mem_finRange p)

theorem mem_arcsIn : a ∈ net.arcsIn d ↔ ∃ t p, net.arcAt d t p = some a := by
  rw [arcsIn, List.mem_flatMap]
  exact exists_congr fun t => (and_iff_right (List.mem_finRange t)).trans mem_column

theorem mem_arcs : a ∈ net.arcs ↔ ∃ d t p, net.arcAt d t p = some a := by
  rw [arcs, List.mem_append, mem_arcsIn, mem_arcsIn]
  constructor
  · intro h
    rcases h with h | h
    · exact ⟨.pre, h⟩
    · exact ⟨.post, h⟩
  · intro h
    rcases h with ⟨d, h⟩
    cases d with
    | pre => exact .inl h
    | post => exact .inr h

/-! ## Tables read back -/

/-- The arcs of direction `d` that a table of weights lists, transition by transition. -/
def readTable (d : Direction) (table : List (Datum × List (Datum × Int))) : Except Fault (List Arc) := do
  let columns ← table.mapM fun (t, column) =>
    column.mapM fun (p, weight) => Arc.make d p t (.int weight)
  return columns.flatten

/-- The arcs that the two tables of weights of a net list. -/
def readBack (net : Net) : Except Fault (List Arc) := do
  let pre ← readTable .pre (net.arcTable .pre)
  let post ← readTable .post (net.arcTable .post)
  return pre ++ post

theorem toList_eq_map_finRange {α : Type} {n : Nat} (v : Vector α n) :
    v.toList = (List.finRange n).map v.get := by
  apply List.ext_getElem
  · simp
  · intro i hi _
    rw [List.getElem_map, List.getElem_finRange]
    rfl

theorem eq_map_finRange {α : Type} (xs : List α) : xs = (List.finRange xs.length).map xs.get := by
  apply List.ext_getElem
  · simp
  · intro i hi _
    rw [List.getElem_map, List.getElem_finRange]
    rfl

theorem zip_toList_map {α β γ : Type} (xs : List α) (v : Vector β xs.length) (f : β → γ) :
    xs.zip (v.toList.map f) = (List.finRange xs.length).map fun i => (xs.get i, f (v.get i)) := by
  rw [toList_eq_map_finRange, List.map_map]
  conv => lhs; arg 1; rw [eq_map_finRange xs]
  rw [List.zip_map']
  rfl

/-- The column of a transition in the table of its direction. -/
theorem column_entries (d : Direction) (t : Fin net.transitions.length)
    (ps : List (Fin net.places.length)) :
    ((ps.map fun p => (net.places.get p, net.weightAt d t p)).filter fun e => 0 < e.2)
      = (ps.filterMap (net.arcAt d t)).map fun a => (a.place, (a.label : Int)) := by
  induction ps with
  | nil => rfl
  | cons p ps ih =>
    rw [List.map_cons]
    by_cases hpos : 0 < net.weightAt d t p
    · have harc : net.arcAt d t p = some ⟨net.places.get p, net.transitions.get t,
          (net.weightAt d t p).toNat, d, by omega⟩ := dif_pos hpos
      have hlabel : ((net.weightAt d t p).toNat : Int) = net.weightAt d t p := by omega
      rw [List.filter_cons_of_pos (by simpa using hpos), List.filterMap_cons_some harc, List.map_cons, ih,
        hlabel]
    · have harc : net.arcAt d t p = none := dif_neg hpos
      rw [List.filter_cons_of_neg (by simpa using hpos), List.filterMap_cons_none harc, ih]

theorem arcTable_eq (d : Direction) : net.arcTable d = (List.finRange net.transitions.length).map fun t =>
    (net.transitions.get t, (net.column d t).map fun a => (a.place, (a.label : Int))) := by
  rw [arcTable, zip_toList_map]
  refine List.map_congr_left fun t _ => congrArg (Prod.mk _) ?_
  rw [zip_toList_map]
  exact column_entries d t _

theorem readTable_eq (d : Direction) : readTable d (net.arcTable d) = .ok (net.arcsIn d) := by
  have hcolumns : (net.arcTable d).mapM (fun (t, column) =>
      column.mapM fun (p, weight) => Arc.make d p t (.int weight))
        = .ok ((List.finRange net.transitions.length).map (net.column d)) := by
    rw [arcTable_eq, mapM_eq_ok, List.map_map, List.map_map]
    refine List.map_congr_left fun t _ => (mapM_eq_ok _ _ _).mpr ?_
    rw [List.map_map]
    refine List.map_congr_left fun a ha => ?_
    obtain ⟨p, hp⟩ := mem_column.mp ha
    obtain ⟨_, ht, _, hd⟩ := arcAt_eq_some.mp hp
    show Arc.make d a.place (net.transitions.get t) (.int a.label) = .ok a
    rw [← ht, ← hd]
    exact a.make_label
  rw [readTable, hcolumns, ok_bind, arcsIn, List.flatMap_def]
  rfl

/-- The tables list the arcs of the net. -/
theorem readBack_eq : net.readBack = .ok net.arcs := by
  rw [readBack, readTable_eq, readTable_eq]
  rfl

/-! ## A net from its arcs -/

theorem Built.distinct_transitions (hb : net.Built) : Distinct net.transitions := by
  obtain ⟨_, _, _, _, _, ht⟩ := hb.assembled
  exact ht.2

theorem Built.position_eq (hnet : net.Built) {d' : Direction} (ha : net.arcAt d t p = some a)
    (hb : net.arcAt d' t' p' = some b) (hpar : a.parallel b = true) : d = d' ∧ t = t' ∧ p = p' := by
  obtain ⟨hpa, hta, _, hda⟩ := arcAt_eq_some.mp ha
  obtain ⟨hpb, htb, _, hdb⟩ := arcAt_eq_some.mp hb
  obtain ⟨hd, ht, hp⟩ := Arc.parallel_iff.mp hpar
  rw [hpa, hpb] at hp
  rw [hta, htb] at ht
  exact ⟨hda.symm.trans (hd.trans hdb), hnet.distinct_transitions.index_eq ht,
    Distinct.index_eq hnet.distinct hp⟩

theorem Built.parallel_eq_false (hnet : net.Built) {d' : Direction} (ha : net.arcAt d t p = some a)
    (hb : net.arcAt d' t' p' = some b) (hne : ¬ (d = d' ∧ t = t' ∧ p = p')) : a.parallel b = false := by
  cases hpar : a.parallel b with
  | false => rfl
  | true => exact absurd (hnet.position_eq ha hb hpar) hne

/-- No arc of a net repeats another one. -/
theorem Built.noneParallel_arcs (hnet : net.Built) : NoneParallel net.arcs := by
  have hone : ∀ d, NoneParallel (net.arcsIn d) := by
    intro d
    refine List.pairwise_flatMap.mpr ⟨fun t _ => List.pairwise_filterMap.mpr ?_, ?_⟩
    · refine (List.nodup_finRange _).imp fun hne a ha b hb => ?_
      exact hnet.parallel_eq_false ha hb fun h => hne h.2.2
    · refine (List.nodup_finRange _).imp fun hne a ha b hb => ?_
      obtain ⟨p, ha⟩ := mem_column.mp ha
      obtain ⟨p', hb⟩ := mem_column.mp hb
      exact hnet.parallel_eq_false ha hb fun h => hne h.2.1
  refine List.pairwise_append.mpr ⟨hone .pre, hone .post, fun a ha b hb => ?_⟩
  obtain ⟨t, p, ha⟩ := mem_arcsIn.mp ha
  obtain ⟨t', p', hb⟩ := mem_arcsIn.mp hb
  exact hnet.parallel_eq_false ha hb fun h => Direction.noConfusion h.1

/-- The weights of a net are the labels of the arcs that it is assembled from. -/
theorem weightAt_of_assemble {capacity default : Datum}
    (h : assemble net.places net.transitions given capacity default = .ok net) :
    net.weightAt d t p = weightIn given d (net.transitions.get t) (net.places.get p) := by
  obtain ⟨_, _, _, hlabels, _⟩ := assemble_eq_ok.mp h
  rw [weightAt, weights_of_assemble h]
  exact toInt_weightsOf net.places (checkLabels_eq_ok.mp hlabels) p

theorem Built.weightAt_nonneg (hb : net.Built) (d : Direction) (t : Fin net.transitions.length)
    (p : Fin net.places.length) : 0 ≤ net.weightAt d t p := by
  cases d with
  | pre => exact Weights.zero_le_iff.mp ((hb.sound t).pre p)
  | post => exact Weights.zero_le_iff.mp ((hb.sound t).post p)

/-- The arcs of a net, in any order, give its weights back. -/
theorem Built.weightIn_arcs (hb : net.Built) (hperm : given.Perm net.arcs) :
    (weightIn given d (net.transitions.get t) (net.places.get p) : Int) = net.weightAt d t p := by
  have hnone : NoneParallel given := hb.noneParallel_arcs.perm hperm
  by_cases hpos : 0 < net.weightAt d t p
  · have harc : net.arcAt d t p = some _ := dif_pos hpos
    rw [weightIn_of_mem hnone (hperm.mem_iff.mpr (mem_arcs.mpr ⟨d, t, p, harc⟩))
      (Arc.joins_iff.mpr ⟨rfl, BEq.rfl, BEq.rfl⟩)]
    exact Int.toNat_of_nonneg (by omega)
  · -- an arc of the net between these ends would stand at this position
    have hnonneg := hb.weightAt_nonneg d t p
    have hzero : ¬ 0 < weightIn given d (net.transitions.get t) (net.places.get p) := by
      intro hlabel
      obtain ⟨a, ha, hjoins, _⟩ := exists_of_weightIn_pos hlabel
      obtain ⟨d', t', p', harc⟩ := mem_arcs.mp (hperm.mem_iff.mp ha)
      obtain ⟨hp, ht, hweight, hd⟩ := arcAt_eq_some.mp harc
      obtain ⟨hd', ht', hp'⟩ := Arc.joins_iff.mp hjoins
      rw [ht] at ht'
      rw [hp] at hp'
      obtain rfl := hb.distinct_transitions.index_eq ht'
      obtain rfl := Distinct.index_eq hb.distinct hp'
      obtain rfl := hd.symm.trans hd'
      have := a.label_pos
      omega
    omega

/-- Weights are told apart by their numbers. -/
theorem weights_ext {n : Nat} {v w : Weights n}
    (h : ∀ d p, ((v.inDirection d).get p).toInt = ((w.inDirection d).get p).toInt) : v = w := by
  have hvector : ∀ d, v.inDirection d = w.inDirection d := fun d =>
    Weights.vector_ext fun p => Int64.toInt_inj.mp (h d p)
  obtain ⟨pre, post⟩ := v
  exact Weights.mk.injEq .. |>.mpr ⟨hvector .pre, hvector .post⟩

theorem Built.arcs_checked (hb : net.Built) {a : Arc} (ha : a ∈ net.arcs) :
    a.hashable = true ∧ a.Declared net.places net.transitions ∧ (a.label : Int) ≤ mostTokens := by
  obtain ⟨_, _, _, _, hplaces, htransitions⟩ := hb.assembled
  obtain ⟨d, t, p, harc⟩ := mem_arcs.mp ha
  obtain ⟨hp, ht, hweight, _⟩ := arcAt_eq_some.mp harc
  have hlabel := a.label_pos
  refine ⟨?_, ⟨?_, ?_⟩, ?_⟩
  · show (a.place.hashable && a.transition.hashable) = true
    rw [hp, ht, hplaces.1 _ (List.get_mem _ _), htransitions.1 _ (List.get_mem _ _)]
    rfl
  · rw [hp]
    exact List.any_eq_true.mpr ⟨_, List.get_mem _ _, BEq.rfl⟩
  · rw [ht]
    exact List.any_eq_true.mpr ⟨_, List.get_mem _ _, BEq.rfl⟩
  · rw [hweight]
    exact Weights.toInt_le_most _

/-- **A net is assembled again from its own arcs.** Their order does not matter, and only the capacities depend
on how they are described. -/
theorem Built.assemble_arcs (hb : net.Built) (hperm : given.Perm net.arcs) (capacity default : Datum) :
    assemble net.places net.transitions given capacity default
      = (Capacity.resolve net.places capacity default).map fun words => { net with capacity := words } := by
  obtain ⟨_, _, _, h, _⟩ := hb.assembled
  obtain ⟨hdisjoint, _⟩ := assemble_eq_ok.mp h
  have hgiven : ∀ a ∈ given, a ∈ net.arcs := fun a ha => hperm.mem_iff.mp ha
  have hnone : NoneParallel given := hb.noneParallel_arcs.perm hperm
  have harcs : checkArcs [] given = .ok () :=
    (checkArcs_eq_ok fun a ha => (hb.arcs_checked (hgiven a ha)).1).mpr hnone
  have hdeclared : checkDeclared net.places net.transitions given = .ok () :=
    checkDeclared_eq_ok.mpr fun a ha => (hb.arcs_checked (hgiven a ha)).2.1
  have hlabels : ∀ a ∈ given, (a.label : Int) ≤ mostTokens :=
    fun a ha => (hb.arcs_checked (hgiven a ha)).2.2
  have hweights : (Vector.ofFn fun t => weightsOf net.places given (net.transitions.get t))
      = net.weights := by
    refine Weights.vector_ext fun t => weights_ext fun d p => ?_
    have hget : (Vector.ofFn fun t => weightsOf net.places given (net.transitions.get t)).get t
        = weightsOf net.places given (net.transitions.get t) := Vector.getElem_ofFn t.isLt
    rw [hget, toInt_weightsOf net.places hlabels, hb.weightIn_arcs hperm]
    rfl
  rw [assemble, hdisjoint, harcs, hdeclared, checkLabels_eq_ok.mpr hlabels, hweights]
  cases Capacity.resolve net.places capacity default <;> rfl

/-! ## The arcs that were given -/

/-- Every given arc stands at the position of its ends. -/
theorem exists_arcAt {capacity default : Datum}
    (h : assemble net.places net.transitions given capacity default = .ok net) (hnone : NoneParallel given)
    (hb : b ∈ given) (hdeclared : b.Declared net.places net.transitions) :
    ∃ a ∈ net.arcs, (a == b) = true := by
  obtain ⟨place, hplace, hp⟩ := List.any_eq_true.mp hdeclared.1
  obtain ⟨p, rfl⟩ := List.mem_iff_get.mp hplace
  obtain ⟨transition, htransition, ht⟩ := List.any_eq_true.mp hdeclared.2
  obtain ⟨t, rfl⟩ := List.mem_iff_get.mp htransition
  have hweight : net.weightAt b.direction t p = b.label := by
    have hjoins := Arc.joins_iff.mpr ⟨rfl, BEq.symm ht, BEq.symm hp⟩
    rw [weightAt_of_assemble h, weightIn_of_mem hnone hb hjoins]
  have hlabel := b.label_pos
  have harc : net.arcAt b.direction t p = some _ := dif_pos (by omega)
  refine ⟨_, mem_arcs.mpr ⟨b.direction, t, p, harc⟩, Arc.beq_iff.mpr ⟨?_, ?_⟩⟩
  · exact Arc.parallel_iff.mpr ⟨rfl, ht, hp⟩
  · show (net.weightAt b.direction t p).toNat = b.label
    rw [hweight, Int.toNat_natCast]

/-- Every arc of the net is one that was given. -/
theorem exists_given {capacity default : Datum}
    (h : assemble net.places net.transitions given capacity default = .ok net) (ha : a ∈ net.arcs) :
    ∃ b ∈ given, (a == b) = true := by
  obtain ⟨d, t, p, harc⟩ := mem_arcs.mp ha
  obtain ⟨hp, ht, hweight, hd⟩ := arcAt_eq_some.mp harc
  have hlabel := a.label_pos
  rw [weightAt_of_assemble h] at hweight
  obtain ⟨b, hb, hjoins, hlabel⟩ := exists_of_weightIn_pos
    (show 0 < weightIn given d (net.transitions.get t) (net.places.get p) by omega)
  obtain ⟨hd', ht', hp'⟩ := Arc.joins_iff.mp hjoins
  refine ⟨b, hb, Arc.beq_iff.mpr ⟨Arc.parallel_iff.mpr ⟨hd.trans hd'.symm, ?_, ?_⟩, by omega⟩⟩
  · rw [ht]
    exact BEq.symm ht'
  · rw [hp]
    exact BEq.symm hp'

theorem beq_map {α : Type} [BEq α] {f : α → α} {xs : List α} (h : ∀ x ∈ xs, (x == f x) = true) :
    (xs == xs.map f) = true := by
  induction xs with
  | nil => rfl
  | cons x xs ih =>
    rw [List.map_cons, List.cons_beq_cons, Bool.and_eq_true]
    exact ⟨h x List.mem_cons_self, ih fun y hy => h y (List.mem_cons_of_mem _ hy)⟩

/-- **The arcs of a net are those that it was assembled from**, in another order and spelling. -/
theorem Built.arcs_perm (hnet : net.Built) {capacity default : Datum}
    (h : assemble net.places net.transitions given capacity default = .ok net)
    (hnone : NoneParallel given) (hdeclared : ∀ b ∈ given, b.Declared net.places net.transitions) :
    ∃ spelled : List Arc, spelled.Perm given ∧ (net.arcs == spelled) = true := by
  -- every arc of the net is spelled as the given one that it is the same as
  let spell (a : Arc) : Arc := (given.find? (a == ·)).getD a
  have hspell : ∀ a ∈ net.arcs, spell a ∈ given ∧ (a == spell a) = true := by
    intro a ha
    obtain ⟨b, hb, hsame⟩ := exists_given h ha
    obtain ⟨c, hc⟩ := Option.isSome_iff_exists.mp (List.find?_isSome (p := (a == ·)) |>.mpr ⟨b, hb, hsame⟩)
    have hspelled : spell a = c := by
      show (given.find? (a == ·)).getD a = c
      rw [hc]
      rfl
    rw [hspelled]
    exact ⟨List.mem_of_find?_eq_some hc, List.find?_some hc⟩
  have hnodup : given.Nodup := by
    refine (List.pairwise_iff_getElem.mpr fun i j hi hj hlt heq => ?_)
    have hfalse := List.pairwise_iff_getElem.mp hnone i j hi hj hlt
    rw [← heq, Arc.parallel_iff.mpr ⟨rfl, BEq.rfl, BEq.rfl⟩] at hfalse
    cases hfalse
  have hspelled : (net.arcs.map spell).Nodup := by
    refine List.pairwise_map.mpr (hnet.noneParallel_arcs.imp_of_mem fun {a c} ha hc hother heq => ?_)
    have hsame : (a == c) = true := by
      refine BEq.trans (hspell a ha).2 ?_
      rw [heq]
      exact BEq.symm (hspell c hc).2
    rw [(Arc.beq_iff.mp hsame).1] at hother
    cases hother
  refine ⟨net.arcs.map spell, (List.perm_ext_iff_of_nodup hspelled hnodup).mpr fun b => ?_,
    beq_map fun a ha => (hspell a ha).2⟩
  rw [List.mem_map]
  constructor
  · intro hb
    obtain ⟨a, ha, rfl⟩ := hb
    exact (hspell a ha).1
  · intro hb
    obtain ⟨a, ha, hsame⟩ := exists_arcAt h hnone hb (hdeclared b hb)
    exact ⟨a, ha, hnone.eq (hspell a ha).1 hb
      (Arc.beq_iff.mp (BEq.trans (BEq.symm (hspell a ha).2) hsame)).1⟩

end Net

end Petri
