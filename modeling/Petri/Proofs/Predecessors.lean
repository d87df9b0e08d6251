import Petri.Proofs.Runs
import Petri.Proofs.Sameness

/-!
# Reverting under all transitions

Reverting under all transitions at once is one pass over the weights of the net; reverting under a single one
looks it up by its identifier. On a marking of the net whose counts are words the pass gives the markings of
`predecessorWords`, and each of them is the result of reverting under some transition
(`mem_predecessors_iff`). Before they come to that, both ways make a marking out of what they are given
and words out of its counts, so they fail with the same faults:

> `revertAll_reverts`: **the pass gives what the single transitions give**, a fault or a set of markings.

The pass differs where there is no transition. Then it does not look at the counts.
-/

namespace Petri

namespace Net

variable {net : Net} {x t : Datum} {m q : Marking}

/-! ## Markings and what stands for them -/

/-- The engines make of a value what they make of the marking that it is taken for. -/
theorem revertAll_of_coerce (hx : net.coerce x = .ok m) (h : net.Owns m) :
    net.revertAll x = net.revertAll m.toDatum := by
  rw [revertAll, revertAll, predecessorVectors, predecessorVectors, hx, h.coerce_eq]

theorem revert_of_coerce (hx : net.coerce x = .ok m) (h : net.Owns m) (t : Datum) :
    net.revert x t = net.revert m.toDatum t := by
  rw [revert, revert, step, step, hx, h.coerce_eq]

theorem revertAll_of_refused {fault : Fault} (hx : net.coerce x = .error fault) :
    net.revertAll x = .error fault := by
  rw [revertAll, predecessorVectors, hx]
  rfl

theorem revert_of_refused {fault : Fault} (hx : net.coerce x = .error fault) (t : Datum) :
    net.revert x t = .error fault := by
  rw [revert, step, hx]
  rfl

/-- A mapping that is no marking yet is taken for the marking that it describes. -/
theorem coerce_mapping (hx : Marking.ofDatum? x = none) : net.coerce x = net.marking x := by
  rw [coerce, hx]

/-! ## Words -/

/-- A count that is no word makes the conversion fail. -/
theorem words_too_large (h : net.Owns m) (hfit : ¬ net.FitsWords m) :
    net.words m = .error (.value .tooLarge) := by
  have hwords : m.toWords = .error .tooLarge := by
    obtain ⟨p, hp⟩ := Classical.not_forall.mp hfit
    have hcount : Datum.int (m.tokens p) ∈ m.counts := by
      rw [h.counts_eq]
      exact List.mem_ofFn.mpr ⟨p, rfl⟩
    have hno : ∀ w, Datum.toWord (.int (m.tokens p)) ≠ .ok w := by
      intro w hw
      change Datum.wordOfInt (m.tokens p) = .ok w at hw
      rw [Datum.wordOfInt, if_neg hp] at hw
      cases hw
    -- whichever count decides, it fails for the same reason
    obtain ⟨c, hc, e, he, herror⟩ := mapM_eq_error ⟨_, hcount, hno⟩
    obtain ⟨k, rfl⟩ := h.whole c hc
    change Datum.wordOfInt k = .error e at he
    rw [Datum.wordOfInt] at he
    split at he
    next => cases he
    next =>
      rw [Marking.toWords, herror, Except.error.inj he]
  rw [words, h.wordsOver_eq, Marking.wordVector, hwords]
  rfl

/-- The words of the predecessors of `w`, each once. -/
def predecessorWords (net : Net) (w : Vector Int64 net.places.length) :
    List (Vector Int64 net.places.length) :=
  (net.weights.toList.filterMap (·.revert? net.capacity w)).eraseDups

/-- The pass goes through the positions of the transitions. -/
theorem mem_predecessorWords_iff {v w : Vector Int64 net.places.length} :
    v ∈ net.predecessorWords w ↔
      ∃ j, (net.weights.get j).Revertible net.capacity w ∧ v = (net.weights.get j).unapply w := by
  rw [predecessorWords, List.mem_eraseDups, List.mem_filterMap]
  constructor
  · intro h
    obtain ⟨weights, hmem, hrev⟩ := h
    obtain ⟨i, hi, rfl⟩ := Vector.mem_iff_getElem.mp (Vector.mem_toList_iff.mp hmem)
    exact ⟨⟨i, hi⟩, (Weights.revert?_eq_some_iff _).mp hrev⟩
  · intro h
    obtain ⟨j, hj⟩ := h
    refine ⟨net.weights.get j, ?_, (Weights.revert?_eq_some_iff _).mpr hj⟩
    rw [Vector.mem_toList_iff]
    exact Vector.getElem_mem j.isLt

theorem predecessorVectors_eq (h : net.Owns m) (hfit : net.FitsWords m) :
    net.predecessorVectors m.toDatum = .ok (net.predecessorWords (net.wordsOf m)) := by
  rw [predecessorVectors, h.coerce_eq, ok_bind, h.words_eq hfit]
  by_cases hnone : net.transitions.isEmpty = true
  · -- without transitions there are no weights, so that the list is empty in both ways
    have hweights : net.weights.toList = [] := by
      rw [← List.length_eq_zero_iff, Vector.length_toList, List.isEmpty_iff.mp hnone]
      rfl
    rw [if_pos hnone, predecessorWords, hweights]
    rfl
  · rw [if_neg hnone]
    rfl

theorem revertAll_eq (h : net.Owns m) (hfit : net.FitsWords m) :
    net.revertAll m.toDatum
      = .ok ((net.predecessorWords (net.wordsOf m)).map net.markingOfWords) := by
  rw [revertAll, predecessorVectors_eq h hfit]
  rfl

/-- Reverting a collection puts together what is found for each of its items. -/
theorem revertSet_of_all {items : List Datum} {vss : List (List (Vector Int64 net.places.length))}
    (hx : x.items = .ok items) (h : items.mapM net.predecessorVectors = .ok vss) :
    net.revertSet x = ⟨.ok (vss.flatten.eraseDups.map net.markingOfWords),
      [revertSetRecord items.length (vss.flatten.eraseDups.map net.markingOfWords)]⟩ := by
  rw [revertSet, hx]
  show Logged.ofResult (net.predecessors items) _ = _
  rw [predecessors, h, ok_bind]
  rfl

theorem revertSet_of_items {ms : List Marking} (hx : x.items = .ok (ms.map Marking.toDatum))
    (h : ∀ m ∈ ms, net.Owns m ∧ net.FitsWords m) :
    (net.revertSet x).result
      = .ok (((ms.map net.wordsOf).flatMap net.predecessorWords).eraseDups.map net.markingOfWords) := by
  have hall : (ms.map Marking.toDatum).mapM net.predecessorVectors
      = .ok ((ms.map net.wordsOf).map net.predecessorWords) := by
    rw [mapM_eq_ok, List.map_map, List.map_map, List.map_map]
    exact List.map_congr_left fun m hm => predecessorVectors_eq (h m hm).1 (h m hm).2
  rw [revertSet_of_all hx hall, List.flatMap_def]

theorem revertSet_eq {ms : List Marking} (h : ∀ m ∈ ms, net.Owns m ∧ net.FitsWords m) :
    (net.revertSet (.set (ms.map Marking.toDatum))).result
      = .ok (((ms.map net.wordsOf).flatMap net.predecessorWords).eraseDups.map net.markingOfWords) :=
  revertSet_of_items rfl h

/-- The result of reverting under any transition is among what the pass finds. -/
theorem mem_predecessors_of_reverts (h : net.Owns m) (hfit : net.FitsWords m)
    (hrev : net.Reverts t m q) :
    q ∈ (net.predecessorWords (net.wordsOf m)).map net.markingOfWords := by
  obtain ⟨j, _, hguard, rfl⟩ := (reverts_iff h hfit).mp hrev
  exact List.mem_map_of_mem (mem_predecessorWords_iff.mpr ⟨j, hguard, rfl⟩)

/-- A transition is found where it stands. -/
theorem transitionIndex_get (hb : net.Built) (j : Fin net.transitions.length) :
    net.transitionIndex (net.transitions.get j) = .ok j := by
  obtain ⟨_, _, _, _, _, hhash, hdistinct⟩ := hb.assembled
  exact transitionIndex_eq_ok.mpr ⟨hhash _ (List.get_mem _ _), Distinct.findFinIdx?_get hdistinct j⟩

theorem exists_transitionIndex (hb : net.Built) (ht : t ∈ net.transitions) :
    ∃ j, net.transitionIndex t = .ok j := by
  obtain ⟨j, rfl⟩ := List.get_of_mem ht
  exact ⟨j, transitionIndex_get hb j⟩

/-- What the pass finds is what some transition gives. -/
theorem mem_predecessors_iff (hb : net.Built) (h : net.Owns m) (hfit : net.FitsWords m) :
    q ∈ (net.predecessorWords (net.wordsOf m)).map net.markingOfWords ↔
      ∃ t ∈ net.transitions, net.Reverts t m q := by
  constructor
  · intro hq
    obtain ⟨v, hv, rfl⟩ := List.mem_map.mp hq
    obtain ⟨j, hguard, rfl⟩ := mem_predecessorWords_iff.mp hv
    have hj := transitionIndex_get hb j
    exact ⟨_, List.get_mem _ j, (reverts_iff h hfit).mpr ⟨j, hj, hguard, rfl⟩⟩
  · intro hq
    obtain ⟨t, _, hrev⟩ := hq
    exact mem_predecessors_of_reverts h hfit hrev

/-- No two markings of different words are the same. -/
theorem distinct_map_markingOfWords {ws : List (Vector Int64 net.places.length)}
    (h : Distinct ws) : Distinct (ws.map net.markingOfWords) := by
  refine List.Pairwise.map _ (fun v w hne => ?_) h
  cases hsame : net.markingOfWords v == net.markingOfWords w with
  | false => rfl
  | true =>
    rw [markingOfWords_inj_of_beq hsame] at hne
    simp at hne

/-! ## The pass and the single transitions -/

/-- Reverting `x`, which stands for the marking `m`, comes to the same under all transitions at once and under
one after another. -/
structure RevertsTogether (net : Net) (x : Datum) (m : Marking) : Prop where
  /-- Without transitions nothing is found, whatever the counts are. -/
  nothing : net.transitions = [] → net.revertAll x = .ok []
  /-- A count that is no word is refused in both ways. -/
  refused : net.transitions ≠ [] → ¬ net.FitsWords m →
    net.revertAll x = .error (.value .tooLarge) ∧
      ∀ t ∈ net.transitions, net.revert x t = .error (.value .tooLarge)
  /-- Otherwise every transition has a result, and the markings among these results are those that the pass
  finds, each once. -/
  found : net.FitsWords m → ∃ found, net.revertAll x = .ok found ∧ Distinct found ∧
    (∀ t ∈ net.transitions, ∃ result, net.revert x t = .ok result) ∧
    ∀ q, q ∈ found ↔ ∃ t ∈ net.transitions, net.revert x t = .ok (some q)

theorem revertsTogether_of_coerce (hb : net.Built) (hx : net.coerce x = .ok m) (h : net.Owns m) :
    net.RevertsTogether x m := by
  refine ⟨fun hnone => ?_, fun hsome hfit => ⟨?_, fun t ht => ?_⟩, fun hfit => ?_⟩
  · rw [revertAll, predecessorVectors, hx, ok_bind, if_pos (List.isEmpty_iff.mpr hnone)]
    rfl
  · have hnonempty : ¬ net.transitions.isEmpty = true := by
      rw [List.isEmpty_iff]
      exact hsome
    rw [revertAll, predecessorVectors, hx, ok_bind, if_neg hnonempty, words_too_large h hfit]
    rfl
  · obtain ⟨j, hj⟩ := exists_transitionIndex hb ht
    rw [revert, step, hx, ok_bind, hj, ok_bind, words_too_large h hfit]
    rfl
  · refine ⟨_, (revertAll_of_coerce hx h).trans (revertAll_eq h hfit),
      distinct_map_markingOfWords (distinct_eraseDups _), fun t ht => ?_, fun q => ?_⟩
    · obtain ⟨j, hj⟩ := exists_transitionIndex hb ht
      exact ⟨_, by rw [revert_of_coerce hx h, revert_eq h hfit, hj, ok_bind]⟩
    · rw [mem_predecessors_iff hb h hfit]
      simp only [revert_of_coerce hx h, Reverts]

/-- **The pass over all transitions gives what the single transitions give**, for every marking over the places
of the net whose counts are whole numbers and for every mapping that the net accepts. What is no marking of the
net, whatever it is, is refused by both with the same fault. -/
theorem revertAll_reverts (hb : net.Built) :
    (∀ m, net.Owns m → net.RevertsTogether m.toDatum m) ∧
      (∀ x m, Marking.ofDatum? x = none → net.marking x = .ok m → net.RevertsTogether x m) ∧
      ∀ x fault, net.coerce x = .error fault →
        net.revertAll x = .error fault ∧ ∀ t, net.revert x t = .error fault := by
  refine ⟨fun m h => ?_, fun x m hx hm => ?_, fun x fault hx => ?_⟩
  · exact revertsTogether_of_coerce hb h.coerce_eq h
  · exact revertsTogether_of_coerce hb ((coerce_mapping hx).trans hm) (valid_of_marking hm).owns
  · exact ⟨revertAll_of_refused hx, revert_of_refused hx⟩

/-- From the lamp being on, the pass finds the lamp being off; a count that is no word and a mapping that leaves
out a place are refused. -/
theorem revertAll_reverts_lamp :
    (∃ found, lamp.revertAll (lampAt 1 0).toDatum = .ok found ∧ lampAt 0 1 ∈ found) ∧
      lamp.revertAll (lampAt 9223372036854775808 0).toDatum = .error (.value .tooLarge) ∧
      lamp.revertAll (.dict [(.str "on", .int 1)]) = .error (.markingKeys [.str "off"] []) := by
  obtain ⟨hmarking, _, hrefused⟩ := revertAll_reverts lamp_built
  have hunOn : lamp.revert (lampAt 1 0).toDatum (.str "switchOn") = .ok (some (lampAt 0 1)) := rfl
  have hsome : lamp.transitions ≠ [] := by simp [lamp]
  obtain ⟨found, hall, _, _, hmem⟩ := (hmarking _ (lampAt_owns 1 0)).found (by decide)
  refine ⟨⟨found, hall, (hmem _).mpr ⟨_, List.mem_cons_self, hunOn⟩⟩, ?_, ?_⟩
  · exact ((hmarking _ (lampAt_owns 9223372036854775808 0)).refused hsome (by decide)).1
  · exact (hrefused _ _ rfl).1

end Net

end Petri
