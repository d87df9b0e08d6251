import Mathlib.Data.Finset.Card
import Mathlib.Data.List.OfFn
import Petri.Net.MarkingSet
import Petri.Proofs.Listings
import Petri.Proofs.Precondition
import Petri.Proofs.StateEquation
import Petri.Proofs.Successors

/-!
# What fires, and what it leads to

Four operations look at what fires from a marking: firing one transition, asking whether it is enabled, listing all
that fire, and collecting what they lead to. Each has its own loop over the same words. They agree:

> `ListsFiring`: the list holds exactly the transitions that fire, and of the enabled ones exactly those are missing
> that a capacity refuses;
> `CollectsResults`: the successors are the results of the listed transitions.

Several transitions may lead to one marking. A result is the marking with the effect of the transition added as words,
and although such sums wrap, words that are different stay so (`Weights.gained_injective`), and what was gained is the
column of the incidence matrix (`incidenceColumn_eq`). So there are as many successors as there are columns:

> `forward_operations_agree`: **the list, the set and the matrix count the same.**
-/

namespace Petri

namespace Weights

variable {n : Nat}

/-- What the words `v` hold more than the words `m`. -/
def gained (m v : Vector Int64 n) : List Int :=
  List.ofFn fun p : Fin n => (v.get p - m.get p).toInt

/-- Sums of words wrap, and still they can be taken back. -/
theorem gained_injective (m : Vector Int64 n) : Function.Injective (gained m) := by
  intro v v' h
  refine vector_ext fun p => ?_
  have hword := congrFun (List.ofFn_injective h) p
  exact (Int64.sub_left_inj _).mp (Int64.toInt_inj.mp hword)

/-- What is gained by taking and giving is the effect, whatever the words were. -/
theorem gained_apply (w : Weights n) (m : Vector Int64 n) :
    gained m (w.apply m) = List.ofFn fun p => (w.effect.get p).toInt := by
  unfold gained
  congr 1
  funext p
  rw [get_apply_eq_add, Int64.add_comm, Int64.add_sub_cancel]

end Weights

namespace Net

variable {net : Net} {t u : Datum} {j : Fin net.transitions.length} {m q : Marking}
  {v w : Vector Int64 net.places.length}

/-! ## The transitions that fire -/

/-- A declared transition is the one at its index. -/
theorem get_index (hb : net.Built) (ht : t ∈ net.transitions) (hj : net.transitionIndex t = .ok j) :
    net.transitions.get j = t := by
  have hsame := (List.findFinIdx?_eq_some_iff.mp (transitionIndex_eq_ok.mp hj).2).1
  exact hb.distinct_transitions.eq_of_beq (List.get_mem _ j) ht hsame

theorem mem_firingFrom_iff (hb : net.Built) (ht : t ∈ net.transitions) (hj : net.transitionIndex t = .ok j) :
    t ∈ net.firingFrom w ↔ net.firesAt w j = true := by
  have hsame := (List.findFinIdx?_eq_some_iff.mp (transitionIndex_eq_ok.mp hj).2).1
  have hget := get_index hb ht hj
  simp only [firingFrom, List.mem_map, List.mem_filter, List.mem_finRange, true_and]
  constructor
  · intro hlisted
    obtain ⟨k, hfires, hk⟩ := hlisted
    have hindex : k = j := by
      refine hb.distinct_transitions.index_eq ?_
      rw [hk, ← hget]
      rwa [← hget] at hsame
    rwa [← hindex]
  · intro hfires
    exact ⟨j, hfires, hget⟩

theorem fire_of_index (hm : net.Owns m) (hfit : net.FitsWords m) (hj : net.transitionIndex t = .ok j) :
    net.fire t m.toDatum
      = .ok (if net.firesAt (net.wordsOf m) j then
          some (net.markingOfWords ((net.weights.get j).apply (net.wordsOf m))) else none) := by
  rw [fire_eq hm hfit, hj, ok_bind]
  simp only [firesAt_iff]
  unfold Weights.fire?
  split <;> rfl

/-- An enabled transition holds all its tokens, so no count is negative where it takes some, and it can only be refused
by a capacity. -/
theorem enabled_not_firesAt_iff (hb : net.Built) (hfit : net.FitsWords m) (hj : net.transitionIndex t = .ok j)
    (hen : (net.weights.get j).Enabled (net.wordsOf m)) :
    ¬ net.firesAt (net.wordsOf m) j = true ↔ net.Congested t m := by
  have hrange : net.InRange m := by
    refine hfit.inRange fun p => ?_
    exact Int.le_trans (takes_nonneg hb p) ((enabled_wordsOf_iff hfit j).mp hen p)
  have hcongested : net.Congested t m ↔
      ∃ p, 0 < net.gives j p ∧ net.capacityAt p < wrapped (net.sumAt j m p) := by
    unfold Congested
    simp only [hj, Except.ok.injEq, exists_and_left, exists_eq_left']
  rw [hcongested, firesAt_iff, fits_apply_iff hb hrange hen]
  simp only [hen, true_and, Classical.not_forall, Int.not_le, exists_prop]

/-- The list of what fires from `m`. It holds the transitions for which firing returns a marking, each once and in the
order of declaration. Of the enabled ones it lacks exactly those that a capacity refuses. -/
structure ListsFiring (net : Net) (m : Marking) (listed : List Datum) : Prop where
  sublist : listed.Sublist net.transitions
  distinct : Distinct listed
  fires : ∀ t ∈ net.transitions, ∃ result, net.fire t m.toDatum = .ok result ∧ (t ∈ listed ↔ result ≠ none)
  enabled : ∀ t ∈ listed, net.isEnabled t m.toDatum = .ok true
  missing_iff : ∀ t ∈ net.transitions, net.isEnabled t m.toDatum = .ok true → (t ∉ listed ↔ net.Congested t m)

theorem listsFiring (hb : net.Built) (hm : net.Owns m) (hfit : net.FitsWords m) :
    net.ListsFiring m (net.firingFrom (net.wordsOf m)) := by
  have hsub := firingFrom_sublist (net.wordsOf m)
  refine ⟨hsub, hb.distinct_transitions.sublist hsub, fun t ht => ?_, fun t hlisted => ?_, fun t ht henabled => ?_⟩
  · obtain ⟨j, hj⟩ := exists_transitionIndex hb ht
    refine ⟨_, fire_of_index hm hfit hj, ?_⟩
    rw [mem_firingFrom_iff hb ht hj]
    split
    case isTrue hfires => exact iff_of_true hfires (Option.some_ne_none _)
    case isFalse hstays => exact iff_of_false hstays fun hne => hne rfl
  · have ht := hsub.subset hlisted
    obtain ⟨j, hj⟩ := exists_transitionIndex hb ht
    have hfires := (mem_firingFrom_iff hb ht hj).mp hlisted
    rw [isEnabled_eq hm hfit, hj, ok_bind, decide_eq_true (firesAt_iff.mp hfires).1]
  · obtain ⟨j, hj⟩ := exists_transitionIndex hb ht
    rw [isEnabled_eq hm hfit, hj, ok_bind, Except.ok.injEq, decide_eq_true_iff] at henabled
    rw [mem_firingFrom_iff hb ht hj]
    exact enabled_not_firesAt_iff hb hfit hj henabled

/-! ## The results -/

/-- The column of the incidence matrix for a transition. -/
def incidenceColumn (net : Net) (t : Datum) : List Int :=
  List.ofFn (net.incidence t)

theorem incidenceColumn_eq (hj : net.transitionIndex t = .ok j) (w : Vector Int64 net.places.length) :
    net.incidenceColumn t = Weights.gained w ((net.weights.get j).apply w) := by
  rw [Weights.gained_apply, incidenceColumn]
  congr 1
  funext p
  exact incidence_eq hj p

/-- The successors of `m`, each once, are the results of the listed transitions. Two of these are the same if their
transitions have the same column in the incidence matrix, and there are as many as columns. A set of them has no other
members. -/
structure CollectsResults (net : Net) (m : Marking) (listed : List Datum) (found : List Marking) : Prop where
  distinct : Distinct found
  mem_iff : ∀ q, q ∈ found ↔ ∃ t ∈ listed, net.Fires t m q
  merged_iff : ∀ t u a b, net.Fires t m a → net.Fires u m b →
    ((a == b) = true ↔ net.incidenceColumn t = net.incidenceColumn u)
  length_eq : found.length = (listed.map net.incidenceColumn).toFinset.card
  setOf_eq : ∃ members, Marking.setOf found = .set members ∧ members.Perm (found.map Marking.toDatum)

theorem mem_successorWords_iff_firesAt :
    v ∈ net.successorWords w ↔ ∃ j, net.firesAt w j = true ∧ (net.weights.get j).apply w = v := by
  rw [mem_successorWords_iff]
  refine exists_congr fun j => ?_
  rw [Weights.fire?_eq_some_iff, firesAt_iff, and_assoc, eq_comm (a := v)]

theorem mem_successors_iff (hb : net.Built) (hm : net.Owns m) (hfit : net.FitsWords m) :
    q ∈ (net.successorWords (net.wordsOf m)).map net.markingOfWords ↔
      ∃ t ∈ net.firingFrom (net.wordsOf m), net.Fires t m q := by
  constructor
  · intro hq
    obtain ⟨v, hv, rfl⟩ := List.mem_map.mp hq
    obtain ⟨j, hfires, rfl⟩ := mem_successorWords_iff_firesAt.mp hv
    have hj := transitionIndex_get hb j
    refine ⟨_, (mem_firingFrom_iff hb (List.get_mem _ j) hj).mpr hfires, ?_⟩
    rw [Fires, fire_of_index hm hfit hj, if_pos hfires]
  · intro hq
    obtain ⟨t, _, hfires⟩ := hq
    obtain ⟨j, _, hen, hfits, rfl⟩ := (fires_iff hm hfit).mp hfires
    exact List.mem_map_of_mem (mem_successorWords_iff_firesAt.mpr ⟨j, firesAt_iff.mpr ⟨hen, hfits⟩, rfl⟩)

/-- Results are the same if the columns are. -/
theorem beq_results_iff (hm : net.Owns m) (hfit : net.FitsWords m) {a b : Marking} (ha : net.Fires t m a)
    (hb : net.Fires u m b) : (a == b) = true ↔ net.incidenceColumn t = net.incidenceColumn u := by
  obtain ⟨j, hj, _, _, rfl⟩ := (fires_iff hm hfit).mp ha
  obtain ⟨k, hk, _, _, rfl⟩ := (fires_iff hm hfit).mp hb
  rw [incidenceColumn_eq hj (net.wordsOf m), incidenceColumn_eq hk (net.wordsOf m),
    (Weights.gained_injective _).eq_iff]
  constructor
  · exact markingOfWords_inj_of_beq
  · intro hwords
    rw [hwords]
    exact BEq.rfl

/-- What was gained is told apart by the words, and it is the column of a transition that fires. So both are counted by
the set of these columns. -/
theorem length_successorWords (hb : net.Built) (w : Vector Int64 net.places.length) :
    (net.successorWords w).length = ((net.firingFrom w).map net.incidenceColumn).toFinset.card := by
  have hnodup : (net.successorWords w).Nodup := nodup_eraseDups _
  have hcolumn : ∀ j : Fin net.transitions.length,
      net.incidenceColumn (net.transitions.get j) = Weights.gained w ((net.weights.get j).apply w) := by
    intro j
    exact incidenceColumn_eq (transitionIndex_get hb j) w
  have hsame : ((net.successorWords w).map (Weights.gained w)).toFinset
      = ((net.firingFrom w).map net.incidenceColumn).toFinset := by
    ext column
    simp only [List.mem_toFinset, firingFrom, List.map_map, List.mem_map, List.mem_filter, List.mem_finRange,
      true_and, Function.comp_apply, hcolumn, mem_successorWords_iff_firesAt]
    constructor
    · intro h
      obtain ⟨v, ⟨j, hfires, rfl⟩, rfl⟩ := h
      exact ⟨j, hfires, rfl⟩
    · intro h
      obtain ⟨j, hfires, rfl⟩ := h
      exact ⟨_, ⟨j, hfires, rfl⟩, rfl⟩
  rw [← hsame, List.toFinset_card_of_nodup (hnodup.map (Weights.gained_injective w)), List.length_map]

/-- Markings that are put into a set stay as they are if no two of them are the same. -/
theorem exists_setOf {found : List Marking} (h : Distinct found) :
    ∃ members, Marking.setOf found = .set members ∧ members.Perm (found.map Marking.toDatum) := by
  have hdistinct : Distinct (found.map Marking.toDatum) := List.pairwise_map.mpr h
  have hperm := Datum.perm_listing (found.map Marking.toDatum)
  rw [hdistinct.eraseDups_eq] at hperm
  exact ⟨_, rfl, hperm⟩

theorem collectsResults (hb : net.Built) (hm : net.Owns m) (hfit : net.FitsWords m) :
    net.CollectsResults m (net.firingFrom (net.wordsOf m))
      ((net.successorWords (net.wordsOf m)).map net.markingOfWords) := by
  have hdistinct : Distinct ((net.successorWords (net.wordsOf m)).map net.markingOfWords) :=
    distinct_map_markingOfWords (distinct_eraseDups _)
  refine ⟨hdistinct, fun q => mem_successors_iff hb hm hfit,
    fun t u a b ha hb' => beq_results_iff hm hfit ha hb', ?_, exists_setOf hdistinct⟩
  rw [List.length_map]
  exact length_successorWords hb _

/-- **The operations that fire agree.** From a marking whose counts are words, negative or beyond capacity as they may
be, the listed transitions are in order and without repetitions those for which firing returns a marking. They are
enabled, and an enabled transition is missing exactly if the sum at a place it gives to is, as a word, beyond the
capacity. The successors are what firing the listed transitions returns. Two of these results are the same exactly if
the columns of the incidence matrix are, and there are as many successors as there are different columns. -/
theorem forward_operations_agree (hb : net.Built) (hm : net.Owns m) (hfit : net.FitsWords m) :
    ∃ listed found, net.enabledTransitions m.toDatum = .ok listed ∧
      (net.successors m.toDatum).result = .ok found ∧
      net.ListsFiring m listed ∧ net.CollectsResults m listed found :=
  ⟨_, _, enabledTransitions_eq hm hfit, successors_eq hm hfit, listsFiring hb hm hfit,
    collectsResults hb hm hfit⟩

/-- A queue with room for three. One can join it, also by invitation of one who stands there, and leave it; a coach
brings three. -/
def queue : Net where
  places := [.str "queue"]
  transitions := [.str "join", .str "invite", .str "leave", .str "unload"]
  capacity := .replicate 1 3
  weights := #v[⟨.replicate 1 0, .replicate 1 1⟩, ⟨.replicate 1 1, .replicate 1 2⟩, ⟨.replicate 1 1, .replicate 1 0⟩,
    ⟨.replicate 1 0, .replicate 1 3⟩]

theorem queue_built : queue.Built :=
  ⟨.list [.str "queue"], .list [.str "join", .str "invite", .str "leave", .str "unload"],
    [⟨.str "queue", .str "join", 1, .post, by decide⟩, ⟨.str "queue", .str "invite", 1, .pre, by decide⟩,
      ⟨.str "queue", .str "invite", 2, .post, by decide⟩, ⟨.str "queue", .str "leave", 1, .pre, by decide⟩,
      ⟨.str "queue", .str "unload", 3, .post, by decide⟩],
    .null, .int 3, by with_unfolding_all rfl⟩

def queueOf (length : Int) : Marking := ⟨[(.str "queue", .int length)]⟩

/-- With one in the queue, three of the four transitions fire, and joining comes to the same with an invitation and
without one. The coach is refused, for the queue would be longer than there is room. -/
theorem forward_operations_agree_queue :
    ∃ found, queue.enabledTransitions (queueOf 1).toDatum = .ok [.str "join", .str "invite", .str "leave"] ∧
      (queue.successors (queueOf 1).toDatum).result = .ok found ∧ found.length = 2 ∧
      queue.Congested (.str "unload") (queueOf 1) := by
  have howns : queue.Owns (queueOf 1) := ⟨rfl, fun c hc => ⟨1, List.mem_singleton.mp hc⟩⟩
  have hlisted : queue.enabledTransitions (queueOf 1).toDatum = .ok [.str "join", .str "invite", .str "leave"] := rfl
  have henabled : queue.isEnabled (.str "unload") (queueOf 1).toDatum = .ok true := rfl
  obtain ⟨listed, found, hlisted', hfound, hlist, hresults⟩ :=
    forward_operations_agree queue_built howns (by decide)
  obtain rfl := Except.ok.inj (hlisted.symm.trans hlisted')
  refine ⟨found, hlisted, hfound, ?_, (hlist.missing_iff _ (by simp [queue]) henabled).mp (by simp)⟩
  rw [hresults.length_eq]
  decide

end Net

end Petri
