import Mathlib.Logic.Equiv.Fin.Basic
import Petri.Proofs.Arcs

/-!
# Vectors side by side

A transition changes nothing where it has no arcs. This is told here for vectors of words that are made of two
parts, at whatever positions the entries of the parts stand (`joined`), and for a transition that has arcs in one
part only (`Weights.beside` with `Weights.idle`):

> `Weights.fire?_beside_idle`, `Weights.revert?_beside_idle`: **what happens in one part leaves the other as it
> is**, and whether it happens is up to the first part alone. Firing compares all places with what is taken, so the
> other part must not be negative; reverting compares only where something is taken.

Two lists have their positions in the list of both (`position`).
-/

namespace Petri

/-! ## Two parts of a vector -/

section Parts

variable {α : Type} {n k N : Nat} (e : Fin n ⊕ Fin k ≃ Fin N)

/-- The vector with the entries of `u` and `v` at the positions that `e` gives to them. -/
def joined (u : Vector α n) (v : Vector α k) : Vector α N :=
  Vector.ofFn fun p => Sum.elim u.get v.get (e.symm p)

/-- The positions with the two parts in the other order. -/
def swapped : Fin k ⊕ Fin n ≃ Fin N := (Equiv.sumComm (Fin k) (Fin n)).trans e

variable (u : Vector α n) (v : Vector α k)

theorem get_joined (s : Fin n ⊕ Fin k) : (joined e u v).get (e s) = Sum.elim u.get v.get s := by
  have hget : (joined e u v).get (e s) = Sum.elim u.get v.get (e.symm (e s)) := Vector.getElem_ofFn (e s).isLt
  rw [hget, Equiv.symm_apply_apply]

@[simp] theorem get_joined_inl (i : Fin n) : (joined e u v).get (e (.inl i)) = u.get i :=
  get_joined e u v (.inl i)

@[simp] theorem get_joined_inr (i : Fin k) : (joined e u v).get (e (.inr i)) = v.get i :=
  get_joined e u v (.inr i)

theorem forall_positions {P : Fin N → Prop} : (∀ p, P p) ↔ (∀ i, P (e (.inl i))) ∧ ∀ i, P (e (.inr i)) := by
  rw [← e.forall_congr_right, Sum.forall]

theorem exists_positions {P : Fin N → Prop} : (∃ p, P p) ↔ (∃ i, P (e (.inl i))) ∨ ∃ i, P (e (.inr i)) := by
  rw [← e.exists_congr_right, Sum.exists]

/-- A vector is joined from two parts if it has their entries. -/
theorem eq_joined_iff {w : Vector α N} :
    w = joined e u v ↔ (∀ i, w.get (e (.inl i)) = u.get i) ∧ ∀ i, w.get (e (.inr i)) = v.get i := by
  constructor
  · intro h
    rw [h]
    exact ⟨get_joined_inl e u v, get_joined_inr e u v⟩
  · intro h
    refine Weights.vector_ext ((forall_positions e).mpr ⟨fun i => ?_, fun i => ?_⟩)
    · rw [get_joined_inl, h.1]
    · rw [get_joined_inr, h.2]

theorem joined_swapped : joined (swapped e) v u = joined e u v :=
  (eq_joined_iff e u v).mpr ⟨get_joined_inr (swapped e) v u, get_joined_inl (swapped e) v u⟩

end Parts

namespace Weights

variable {n k N : Nat} (e : Fin n ⊕ Fin k ≃ Fin N) (w : Weights n) (w' : Weights k)
  {capacity u : Vector Int64 n} {capacity' v : Vector Int64 k}

/-- Nothing is taken and nothing is given. -/
def idle (n : Nat) : Weights n := ⟨Vector.replicate n 0, Vector.replicate n 0⟩

/-- Two transitions on the two parts of a vector, taken together. -/
def beside : Weights N := ⟨joined e w.pre w'.pre, joined e w.post w'.post⟩

theorem get_pre_idle (p : Fin n) : (idle n).pre.get p = 0 := Vector.getElem_replicate p.isLt

theorem get_post_idle (p : Fin n) : (idle n).post.get p = 0 := Vector.getElem_replicate p.isLt

theorem beside_swapped : beside (swapped e) w' w = beside e w w' := by
  rw [beside, beside, joined_swapped, joined_swapped]

/-! ## One part at rest -/

theorem enabled_beside_idle : (beside e w (idle k)).Enabled (joined e u v) ↔ w.Enabled u ∧ Natural v := by
  rw [Enabled, forall_positions e]
  simp only [beside, get_joined_inl, get_joined_inr, get_pre_idle]
  exact Iff.rfl

theorem apply_beside_idle : (beside e w (idle k)).apply (joined e u v) = joined e (w.apply u) v := by
  rw [eq_joined_iff]
  refine ⟨fun i => ?_, fun i => ?_⟩
  · simp only [get_apply, beside, get_joined_inl]
  · simp only [get_apply, beside, get_joined_inr, get_pre_idle, get_post_idle, Int64.sub_zero, Int64.add_zero]

theorem fits_beside_idle :
    (beside e w (idle k)).Fits (joined e capacity capacity') (joined e u v) ↔ w.Fits capacity u := by
  have hnone : ¬ (0 : Int64) < 0 := Int64.lt_irrefl
  rw [Fits, forall_positions e]
  simp only [beside, get_joined_inl, get_joined_inr, get_post_idle, hnone, false_implies, implies_true, and_true]
  exact Iff.rfl

theorem revertible_beside_idle :
    (beside e w (idle k)).Revertible (joined e capacity capacity') (joined e u v) ↔ w.Revertible capacity u := by
  have hnone : ¬ (0 : Int64) < 0 := Int64.lt_irrefl
  rw [Revertible, forall_positions e]
  simp only [beside, get_joined_inl, get_joined_inr, get_pre_idle, hnone, false_implies, implies_true, and_true]
  exact Iff.rfl

theorem unapply_beside_idle : (beside e w (idle k)).unapply (joined e u v) = joined e (w.unapply u) v := by
  rw [eq_joined_iff]
  refine ⟨fun i => ?_, fun i => ?_⟩
  · simp only [get_unapply, beside, get_joined_inl]
  · simp only [get_unapply, beside, get_joined_inr, get_pre_idle, get_post_idle]
    rfl

/-- **Firing in the first part leaves the second one as it is.** -/
theorem fire?_beside_idle (hv : Natural v) :
    (beside e w (idle k)).fire? (joined e capacity capacity') (joined e u v)
      = (w.fire? capacity u).map (joined e · v) := by
  rw [fire?, fire?, apply_beside_idle]
  simp only [enabled_beside_idle, fits_beside_idle, hv, and_true]
  split <;> rfl

/-- **Reverting in the first part leaves the second one as it is.** -/
theorem revert?_beside_idle : (beside e w (idle k)).revert? (joined e capacity capacity') (joined e u v)
    = (w.revert? capacity u).map (joined e · v) := by
  rw [revert?, revert?, unapply_beside_idle]
  simp only [revertible_beside_idle]
  split <;> rfl

theorem fire?_idle_beside (hu : Natural u) :
    (beside e (idle n) w').fire? (joined e capacity capacity') (joined e u v)
      = (w'.fire? capacity' v).map (joined e u) := by
  have h : (beside (swapped e) w' (idle n)).fire? (joined (swapped e) capacity' capacity)
      (joined (swapped e) v u) = _ := fire?_beside_idle (swapped e) w' hu
  simpa only [joined_swapped, beside_swapped] using h

theorem revert?_idle_beside : (beside e (idle n) w').revert? (joined e capacity capacity') (joined e u v)
    = (w'.revert? capacity' v).map (joined e u) := by
  have h : (beside (swapped e) w' (idle n)).revert? (joined (swapped e) capacity' capacity)
      (joined (swapped e) v u) = _ := revert?_beside_idle (swapped e) w'
  simpa only [joined_swapped, beside_swapped] using h

end Weights

/-! ## Positions in two lists -/

section Lists

variable {α β : Type} (xs ys : List α)

/-- The positions of two lists in the list of both. -/
def position : Fin xs.length ⊕ Fin ys.length ≃ Fin (xs ++ ys).length :=
  finSumFinEquiv.trans (finCongr List.length_append.symm)

theorem position_inl_val (i : Fin xs.length) : (position xs ys (.inl i) : Nat) = i := by
  simp [position]

theorem position_inr_val (i : Fin ys.length) : (position xs ys (.inr i) : Nat) = xs.length + i := by
  simp [position]

@[simp] theorem get_position_inl (i : Fin xs.length) : (xs ++ ys).get (position xs ys (.inl i)) = xs.get i := by
  simp [position_inl_val]

@[simp] theorem get_position_inr (i : Fin ys.length) : (xs ++ ys).get (position xs ys (.inr i)) = ys.get i := by
  simp [position_inr_val]

/-- The positions of the first list come before those of the second one. -/
theorem finRange_append : List.finRange (xs ++ ys).length
    = (List.finRange xs.length).map (fun i => position xs ys (.inl i))
      ++ (List.finRange ys.length).map fun i => position xs ys (.inr i) := by
  refine List.ext_getElem (by simp) fun i hi hi' => Fin.ext ?_
  rw [List.getElem_finRange, List.getElem_append]
  split
  next => rw [List.getElem_map, List.getElem_finRange, position_inl_val]; rfl
  next hlater =>
    rw [List.length_map, List.length_finRange] at hlater
    rw [List.getElem_map, List.getElem_finRange, position_inr_val]
    simp only [List.length_map, List.length_finRange, Fin.val_cast]
    omega

theorem toList_joined (u : Vector β xs.length) (v : Vector β ys.length) :
    (joined (position xs ys) u v).toList = u.toList ++ v.toList := by
  rw [Net.toList_eq_map_finRange, finRange_append, List.map_append, List.map_map, List.map_map,
    Net.toList_eq_map_finRange u, Net.toList_eq_map_finRange v]
  simp only [Function.comp_def, get_joined_inl, get_joined_inr]

end Lists

end Petri
