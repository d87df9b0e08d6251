/-!
# Lists whose items are told apart by sameness

Sameness of values is reflexive, symmetric and transitive, but it is not equality, so the laws of lists
that rest on equality do not apply. This file has those that are left. In a list without repetitions,
items that are the same are equal (`Distinct.eq_of_beq`). A list that loses its repetitions keeps some item
for each of its items (`any_eraseDups`), and the items that stay are pairwise different
(`distinct_eraseDups`). It may be built up item by item (`eraseDups_concat`), and it is as long as
before exactly if nothing is repeated (`length_eraseDups_eq_iff`).
-/

namespace Petri

variable {α : Type} [BEq α]

/-- No item is the same as an earlier one. -/
def Distinct (xs : List α) : Prop :=
  xs.Pairwise fun x y => (x == y) = false

instance (xs : List α) : Decidable (Distinct xs) :=
  inferInstanceAs (Decidable (xs.Pairwise fun x y => (x == y) = false))

/-- Items that are the same stand at one position. -/
theorem Distinct.index_eq [PartialEquivBEq α] {xs : List α} (h : Distinct xs) {i j : Fin xs.length}
    (hsame : (xs.get i == xs.get j) = true) : i = j := by
  have hlater : ∀ i j : Fin xs.length, i < j → (xs.get i == xs.get j) = false := fun i j hlt =>
    List.pairwise_iff_getElem.mp h i j i.isLt j.isLt hlt
  rcases Nat.lt_trichotomy i j with hlt | heq | hlt
  · rw [hlater i j hlt] at hsame
    cases hsame
  · exact Fin.ext heq
  · have hback : (xs.get j == xs.get i) = true := BEq.symm hsame
    rw [hlater j i hlt] at hback
    cases hback

/-- An item is found where it stands. -/
theorem Distinct.findFinIdx?_get [ReflBEq α] {xs : List α} (h : Distinct xs) (i : Fin xs.length) :
    xs.findFinIdx? (· == xs.get i) = some i := by
  refine List.findFinIdx?_eq_some_iff.mpr ⟨BEq.rfl, fun j hj => ?_⟩
  have hne := List.pairwise_iff_getElem.mp h j i j.isLt i.isLt hj
  simpa using hne

theorem Distinct.eq_of_beq [PartialEquivBEq α] {xs : List α} (h : Distinct xs) {x y : α} (hx : x ∈ xs)
    (hy : y ∈ xs) (hsame : (x == y) = true) : x = y := by
  obtain ⟨i, rfl⟩ := List.mem_iff_get.mp hx
  obtain ⟨j, rfl⟩ := List.mem_iff_get.mp hy
  rw [h.index_eq hsame]

theorem Distinct.perm [PartialEquivBEq α] {xs ys : List α} (h : Distinct xs) (hperm : xs.Perm ys) : Distinct ys :=
  (hperm.pairwise_iff fun {x y} hxy => by rw [BEq.comm]; exact hxy).mp h

theorem Distinct.nodup [ReflBEq α] {xs : List α} (h : Distinct xs) : xs.Nodup := by
  refine h.imp fun {x y} hne heq => ?_
  rw [← heq, BEq.rfl] at hne
  cases hne

/-- The first of the items that are the same is the one that stays, and the order is kept. -/
theorem eraseDups_sublist (xs : List α) : xs.eraseDups.Sublist xs := by
  match xs with
  | [] => exact List.Sublist.refl []
  | x :: xs =>
    rw [List.eraseDups_cons]
    exact ((eraseDups_sublist _).trans List.filter_sublist).cons_cons x
termination_by xs.length
decreasing_by exact Nat.lt_succ_of_le (List.length_filter_le _ _)

theorem mem_of_mem_eraseDups {x : α} (xs : List α) (h : x ∈ xs.eraseDups) : x ∈ xs :=
  (eraseDups_sublist xs).subset h

theorem distinct_eraseDups [PartialEquivBEq α] (xs : List α) : Distinct xs.eraseDups := by
  match xs with
  | [] => exact List.Pairwise.nil
  | x :: xs =>
    rw [List.eraseDups_cons]
    refine List.Pairwise.cons (fun y hy => ?_) (distinct_eraseDups _)
    have hne := (List.mem_filter.mp (mem_of_mem_eraseDups _ hy)).2
    rw [BEq.comm]
    simpa using hne
termination_by xs.length
decreasing_by exact Nat.lt_succ_of_le (List.length_filter_le _ _)

theorem nodup_eraseDups [LawfulBEq α] (xs : List α) : xs.eraseDups.Nodup := by
  refine (distinct_eraseDups xs).imp fun {x y} hne heq => ?_
  rw [heq, beq_self_eq_true] at hne
  cases hne

/-- To leave out what is the same as `x` does not change where a key that differs from `x` is found. -/
theorem any_filter_of_ne [PartialEquivBEq α] {x key : α} (hne : (x == key) = false) (xs : List α) :
    (xs.filter fun y => !y == x).any (· == key) = xs.any (· == key) := by
  rw [List.any_filter]
  congr 1
  funext y
  cases hy : y == x with
  | false => simp
  | true =>
    cases hkey : y == key with
    | false => rfl
    | true => rw [BEq.trans (BEq.symm hy) hkey] at hne; cases hne

/-- What is found in a list is found among its items without repetitions. -/
theorem any_eraseDups [PartialEquivBEq α] (key : α) (xs : List α) :
    xs.eraseDups.any (· == key) = xs.any (· == key) := by
  match xs with
  | [] => rfl
  | x :: xs =>
    rw [List.eraseDups_cons, List.any_cons, List.any_cons, any_eraseDups key]
    cases hx : x == key with
    | true => rfl
    | false =>
      -- an item that is left out is the same as `x`, which is not the same as the key
      rw [any_filter_of_ne hx]
termination_by xs.length
decreasing_by exact Nat.lt_succ_of_le (List.length_filter_le _ _)

/-- A further item is left out if it repeats an earlier one, and stays as the last one otherwise. -/
theorem eraseDups_concat [PartialEquivBEq α] (xs : List α) (x : α) :
    (xs ++ [x]).eraseDups = if xs.any (· == x) then xs.eraseDups else xs.eraseDups ++ [x] := by
  match xs with
  | [] => rfl
  | y :: ys =>
    rw [List.cons_append, List.eraseDups_cons, List.eraseDups_cons, List.filter_append, List.any_cons]
    cases hyx : y == x with
    | true =>
      have hout : [x].filter (fun z => !z == y) = [] := by simp [BEq.symm hyx]
      rw [hout, List.append_nil, Bool.true_or, if_pos rfl]
    | false =>
      have hin : [x].filter (fun z => !z == y) = [x] := by
        rw [BEq.comm] at hyx
        simp [hyx]
      rw [hin, eraseDups_concat _ x, any_filter_of_ne hyx, Bool.false_or]
      split
      next => rfl
      next => rw [List.cons_append]
termination_by xs.length
decreasing_by exact Nat.lt_succ_of_le (List.length_filter_le _ _)

theorem Distinct.eraseDups_eq [PartialEquivBEq α] {xs : List α} (h : Distinct xs) : xs.eraseDups = xs := by
  induction xs with
  | nil => rfl
  | cons x xs ih =>
    obtain ⟨hfirst, hrest⟩ := List.pairwise_cons.mp h
    have hall : xs.filter (fun y => !y == x) = xs := by
      refine List.filter_eq_self.mpr fun y hy => ?_
      rw [BEq.comm, hfirst y hy]
      rfl
    rw [List.eraseDups_cons, hall, ih hrest]

/-- Repetitions are the same ones after a change that keeps apart what was apart. -/
theorem eraseDups_map {β : Type} [BEq β] {f : β → α} (hf : ∀ a b, (f a == f b) = (a == b)) (xs : List β) :
    (xs.map f).eraseDups = xs.eraseDups.map f := by
  match xs with
  | [] => rfl
  | x :: xs =>
    rw [List.map_cons, List.eraseDups_cons, List.eraseDups_cons, List.map_cons, List.filter_map, eraseDups_map hf]
    simp only [Function.comp_def, hf]
termination_by xs.length
decreasing_by exact Nat.lt_succ_of_le (List.length_filter_le _ _)

/-- Nothing is left out exactly if there are no repetitions. -/
theorem length_eraseDups_eq_iff [PartialEquivBEq α] {xs : List α} :
    xs.eraseDups.length = xs.length ↔ Distinct xs := by
  constructor
  · intro h
    rw [← (eraseDups_sublist xs).eq_of_length h]
    exact distinct_eraseDups xs
  · intro h
    rw [h.eraseDups_eq]

/-- An item is kept, or one that is the same as it. -/
theorem mem_eraseDups_or {x : α} (xs : List α) (h : x ∈ xs) :
    x ∈ xs.eraseDups ∨ ∃ y ∈ xs.eraseDups, (x == y) = true := by
  match xs with
  | [] => cases h
  | y :: ys =>
    rw [List.eraseDups_cons]
    rcases List.mem_cons.mp h with rfl | h
    · exact .inl List.mem_cons_self
    · cases hsame : x == y with
      | true => exact .inr ⟨y, List.mem_cons_self, hsame⟩
      | false =>
        have hkept : x ∈ ys.filter fun z => !z == y := List.mem_filter.mpr ⟨h, by simp [hsame]⟩
        rcases mem_eraseDups_or _ hkept with hx | ⟨z, hz, hxz⟩
        · exact .inl (List.mem_cons_of_mem _ hx)
        · exact .inr ⟨z, List.mem_cons_of_mem _ hz, hxz⟩
termination_by xs.length
decreasing_by exact Nat.lt_succ_of_le (List.length_filter_le _ _)

/-- What is the same is found in the same lists. -/
theorem any_beq_congr [PartialEquivBEq α] {xs : List α} {x y : α} (h : (x == y) = true) :
    xs.any (· == x) = xs.any (· == y) := by
  congr 1
  funext z
  exact Bool.eq_iff_iff.mpr ⟨fun hz => BEq.trans hz h, fun hz => BEq.trans hz (BEq.symm h)⟩

end Petri
