import Petri.Proofs.Arcs
import Petri.Proofs.Predecessors

/-!
# Firing under all transitions

Like reverting, firing under all transitions at once is one pass over the weights of the net. On a marking of
the net whose counts are words it gives the markings of `successorWords`, each once, and the transitions that
fire are listed by their positions:

> `successors_eq`, `mem_successorWords_iff`: the pass gives what firing gives at some position;
> `enabledTransitions_eq`: the transitions at the positions where something is given (`firingFrom`).
-/

namespace Petri

namespace Net

variable {net : Net} {m : Marking} {j : Fin net.transitions.length} {w : Vector Int64 net.places.length}

/-- The words after one firing from `w`, each once. -/
def successorWords (net : Net) (w : Vector Int64 net.places.length) :
    List (Vector Int64 net.places.length) :=
  (net.weights.toList.filterMap (·.fire? net.capacity w)).eraseDups

theorem mem_successorWords_iff {v w : Vector Int64 net.places.length} :
    v ∈ net.successorWords w ↔ ∃ j, (net.weights.get j).fire? net.capacity w = some v := by
  rw [successorWords, List.mem_eraseDups, List.mem_filterMap]
  constructor
  · intro h
    obtain ⟨weights, hmem, hfire⟩ := h
    obtain ⟨i, hi, rfl⟩ := Vector.mem_iff_getElem.mp (Vector.mem_toList_iff.mp hmem)
    exact ⟨⟨i, hi⟩, hfire⟩
  · intro h
    obtain ⟨j, hfire⟩ := h
    refine ⟨net.weights.get j, ?_, hfire⟩
    rw [Vector.mem_toList_iff]
    exact Vector.getElem_mem j.isLt

theorem successors_eq (h : net.Owns m) (hfit : net.FitsWords m) :
    (net.successors m.toDatum).result
      = .ok ((net.successorWords (net.wordsOf m)).map net.markingOfWords) := by
  show (net.coerce m.toDatum >>= fun m => net.words m >>= fun w =>
    net.successorVectors w >>= fun found => .ok (found.map net.markingOfWords)) = _
  rw [h.coerce_eq, ok_bind, h.words_eq hfit]
  rfl

/-- Transition `j` fires from the words `w`. -/
def firesAt (net : Net) (w : Vector Int64 net.places.length) (j : Fin net.transitions.length) : Bool :=
  ((net.weights.get j).fire? net.capacity w).isSome

theorem firesAt_iff :
    net.firesAt w j = true ↔
      (net.weights.get j).Enabled w ∧ (net.weights.get j).Fits net.capacity ((net.weights.get j).apply w) := by
  unfold firesAt Weights.fire?
  split
  case isTrue h => exact iff_of_true rfl h
  case isFalse h => exact iff_of_false Bool.false_ne_true h

/-- The transitions that fire from the words `w`. -/
def firingFrom (net : Net) (w : Vector Int64 net.places.length) : List Datum :=
  ((List.finRange net.transitions.length).filter (net.firesAt w)).map net.transitions.get

theorem firingFrom_sublist (w : Vector Int64 net.places.length) :
    (net.firingFrom w).Sublist net.transitions := by
  have hsub := (List.filter_sublist (p := net.firesAt w) (l := List.finRange net.transitions.length)).map
    net.transitions.get
  rwa [← eq_map_finRange] at hsub

theorem enabledTransitions_eq (h : net.Owns m) (hfit : net.FitsWords m) :
    net.enabledTransitions m.toDatum = .ok (net.firingFrom (net.wordsOf m)) := by
  rw [enabledTransitions, h.coerce_eq, ok_bind, h.words_eq hfit]
  rfl

end Net

end Petri
