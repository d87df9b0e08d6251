import Petri.Proofs.Merging
import Petri.Sorting.Schedule

/-!
# Sorting arranges the items

Runs are found and made longer, and neighbours are merged in an order that their lengths decide. None of it shows in
the outcome: every part of the loop arranges the items that it has seen (`Holds`), and at the end there is one list.

> `exists_nextRun_eq`: what is taken from the front of the list is a run of the items that were there;
> `Holds.push`, `Holds.mergeAbove`, `Holds.mergeAll`: runs are added and merged without a change to what they hold;
> `exists_sort_eq`: **sorting ends, with the items in order and ties as they were.**

The only condition is that the items compare as an order with ties says (`Compares`).
-/

namespace Petri.Sorting

variable {α : Type} {lt : α → α → Bool} {below : α → α → Option Bool} {S : α → Prop} {xs ys done run : List α}
  {x y : α} {n : Nat}

/-- The items in `S` compare as `lt` says. -/
def Compares (below : α → α → Option Bool) (lt : α → α → Bool) (S : α → Prop) : Prop :=
  ∀ a b, S a → S b → below a b = some (lt a b)

/-! ## Runs -/

/-- Each item is below the one before it. -/
def Falls (lt : α → α → Bool) (xs : List α) : Prop :=
  xs.Pairwise fun a b => lt b a = true

/-- In a list that falls nothing ties, so the list may be turned around. -/
theorem Falls.arranges_reverse (hlt : StrictWeak lt) (h : Falls lt xs) : Arranges lt xs xs.reverse := by
  refine ⟨⟨List.reverse_perm xs, fun a => ?_⟩, List.pairwise_reverse.mpr (h.imp fun hba => hlt.asymm hba)⟩
  rw [List.filter_reverse]
  induction xs with
  | nil => rfl
  | cons x xs ih =>
    obtain ⟨hx, hxs⟩ := List.pairwise_cons.mp h
    rw [List.filter_cons]
    split
    next htie =>
      rw [filter_ties_eq_nil hlt htie fun y hy => by simp [ties, hx y hy]]
      rfl
    next => exact ih hxs

/-- The items of a run in order: as they are, or turned around if the run falls. -/
def upward (falling : Bool) (xs : List α) : List α :=
  if falling then xs.reverse else xs

/-- The items that go on with a run. -/
theorem exists_runAfter_eq (hlt : StrictWeak lt) (hbelow : Compares below lt S) (falling : Bool) (hx : S x)
    (hxs : ∀ y ∈ xs, S y) : ∃ k, runAfter below falling x xs = some k ∧
      if falling then Falls lt (x :: xs.take k) else InOrder lt (x :: xs.take k) := by
  induction xs generalizing x with
  | nil =>
    refine ⟨0, rfl, ?_⟩
    cases falling
    · exact List.pairwise_singleton _ _
    · exact List.pairwise_singleton _ _
  | cons y ys ih =>
    have hy := hxs y List.mem_cons_self
    obtain ⟨k, hk, hrun⟩ := ih hy fun z hz => hxs z (List.mem_cons_of_mem _ hz)
    rw [runAfter, hbelow y x hy hx]
    by_cases hgoes : lt y x = falling
    · refine ⟨k + 1, by simp [hgoes, hk], ?_⟩
      rw [List.take_succ_cons]
      cases falling with
      | false =>
        refine List.pairwise_cons.mpr ⟨fun z hz => ?_, hrun⟩
        rcases List.mem_cons.mp hz with rfl | hz
        · exact hgoes
        · exact hlt.trans hgoes ((List.pairwise_cons.mp hrun).1 z hz)
      | true =>
        refine List.pairwise_cons.mpr ⟨fun z hz => ?_, hrun⟩
        rcases List.mem_cons.mp hz with rfl | hz
        · exact hgoes
        · exact hlt.lt_of_lt ((List.pairwise_cons.mp hrun).1 z hz) (hlt.asymm hgoes)
    · refine ⟨0, by simp [hgoes], ?_⟩
      cases falling
      · exact List.pairwise_singleton _ _
      · exact List.pairwise_singleton _ _

/-- The run at the front of a list, turned around if it falls. -/
theorem exists_runFrom_eq (hlt : StrictWeak lt) (hbelow : Compares below lt S) (hx : S x) (hxs : ∀ y ∈ xs, S y) :
    ∃ k falling, runFrom below x xs = some (k, falling) ∧
      Arranges lt (x :: xs.take k) (upward falling (x :: xs.take k)) := by
  cases xs with
  | nil => exact ⟨0, false, rfl, .refl _, List.pairwise_singleton _ _⟩
  | cons y ys =>
    have hyx := hbelow y x (hxs y List.mem_cons_self) hx
    obtain ⟨k, hk, hrun⟩ := exists_runAfter_eq hlt hbelow (lt y x) hx hxs
    refine ⟨k, lt y x, ?_, ?_⟩
    · rw [runAfter, hyx] at hk
      rw [runFrom, hyx]
      cases hafter : runAfter below (lt y x) y ys with
      | none => simp [hafter] at hk
      | some n =>
        obtain rfl : n + 1 = k := by simpa [hafter] using hk
        simp [hafter]
    · cases hfalls : lt y x with
      | false =>
        rw [hfalls] at hrun
        exact ⟨.refl _, hrun⟩
      | true =>
        rw [hfalls] at hrun
        exact Falls.arranges_reverse hlt hrun

theorem insertIdx_length (front back : List α) (x : α) :
    (front ++ back).insertIdx front.length x = front ++ x :: back := by
  induction front with
  | nil => exact List.insertIdx_zero
  | cons y front ih =>
    rw [List.cons_append, List.length_cons, List.insertIdx_succ_cons, ih]
    rfl

/-- An item is inserted behind those that it ties with. -/
theorem exists_insertInto_eq (hlt : StrictWeak lt) (hbelow : Compares below lt S) (hrun : InOrder lt run)
    (hS : ∀ y ∈ run, S y) (hx : S x) :
    ∃ run', insertInto below run x = some run' ∧ Arranges lt (run ++ [x]) run' := by
  obtain ⟨front, back, rfl, hfront, hback⟩ := exists_split hrun (hlt.not_lt_down x)
  obtain ⟨hfronts, hbacks, hcross⟩ := List.pairwise_append.mp hrun
  have habove : ∀ y ∈ back, lt x y = true := fun y hy => by simpa using hback y hy
  have hholds : ∀ y ∈ front ++ back, (below x y).map not = some (!lt x y) := fun y hy => by
    rw [hbelow x y hx (hS y hy)]
    rfl
  have hat := holdsAt_append (fun y hy => (hholds y (List.mem_append_left _ hy)).trans (congrArg some (hfront y hy)))
    fun y hy => (hholds y (List.mem_append_right _ hy)).trans (congrArg some (hback y hy))
  have hplace : halve .forward (holdsAt (fun y => (below x y).map not) (front ++ back)) 0 (front ++ back).length
      = some front.length :=
    halve_eq (Nat.zero_le _) (by rw [List.length_append]; omega) fun i _ _ => hat i
  refine ⟨front ++ x :: back, ?_, ⟨?_, fun a => ?_⟩, ?_⟩
  · rw [insertInto, hplace]
    exact congrArg some (insertIdx_length front back x)
  · rw [List.append_assoc]
    exact (List.perm_append_singleton x back).symm.append_left front
  · rw [List.append_assoc, List.filter_append, List.filter_append, List.filter_append, List.filter_cons]
    split
    next htie =>
      -- what ties with the item is in front of it
      have hnone : back.filter (ties lt a) = [] :=
        filter_ties_eq_nil hlt htie fun y hy => by simp [ties, habove y hy]
      rw [hnone, List.filter_cons_of_pos htie]
      rfl
    next htie => rw [List.filter_cons_of_neg htie, List.filter_nil, List.append_nil]
  · refine List.pairwise_append.mpr
      ⟨hfronts, List.pairwise_cons.mpr ⟨fun b hb => hlt.asymm (habove b hb), hbacks⟩, fun a ha b hb => ?_⟩
    rcases List.mem_cons.mp hb with rfl | hb
    · simpa using hfront a ha
    · exact hcross a ha b hb

theorem exists_insertAll_eq (hlt : StrictWeak lt) (hbelow : Compares below lt S) (hrun : InOrder lt run)
    (hS : ∀ y ∈ run, S y) (hxs : ∀ x ∈ xs, S x) :
    ∃ run', xs.foldlM (insertInto below) run = some run' ∧ Arranges lt (run ++ xs) run' := by
  induction xs generalizing run with
  | nil =>
    rw [List.append_nil]
    exact ⟨run, rfl, .refl run, hrun⟩
  | cons x xs ih =>
    have hx := hxs x List.mem_cons_self
    obtain ⟨run', hrun', harranges⟩ := exists_insertInto_eq hlt hbelow hrun hS hx
    have hS' : ∀ y ∈ run', S y := by
      intro y hy
      rcases List.mem_append.mp (harranges.perm.mem_iff.mp hy) with hy | hy
      · exact hS y hy
      · exact List.mem_singleton.mp hy ▸ hx
    obtain ⟨run'', hrun'', harranges'⟩ := ih harranges.inOrder hS' fun y hy => hxs y (List.mem_cons_of_mem _ hy)
    refine ⟨run'', by rw [List.foldlM_cons, hrun']; exact hrun'', ?_, harranges'.inOrder⟩
    rw [List.append_cons]
    exact (harranges.toKeeps.append (.refl xs)).trans harranges'.toKeeps

/-- **The next run** has the items that are taken from the front of the list, in order. -/
theorem exists_nextRun_eq (hlt : StrictWeak lt) (hbelow : Compares below lt S) (least : Nat) (hx : S x)
    (hxs : ∀ y ∈ xs, S y) :
    ∃ run k, nextRun below least x xs = some (run, k) ∧ Arranges lt (x :: xs.take k) run := by
  obtain ⟨k, falling, hfrom, harranges⟩ := exists_runFrom_eq hlt hbelow hx hxs
  let inserted := (xs.drop k).take (least - (x :: xs.take k).length)
  have hmem : ∀ y ∈ upward falling (x :: xs.take k), S y := by
    intro y hy
    rcases List.mem_cons.mp (harranges.perm.mem_iff.mp hy) with rfl | hy
    · exact hx
    · exact hxs y (List.mem_of_mem_take hy)
  have hinserted : ∀ y ∈ inserted, S y := fun y hy => hxs y (List.mem_of_mem_drop (List.mem_of_mem_take hy))
  obtain ⟨run, hrun, harranges'⟩ := exists_insertAll_eq hlt hbelow harranges.inOrder hmem hinserted
  refine ⟨run, k + inserted.length, ?_, ?_, harranges'.inOrder⟩
  · rw [nextRun, hfrom]
    show (inserted.foldlM (insertInto below) (upward falling (x :: xs.take k)) >>= _) = _
    rw [hrun]
    rfl
  · have htaken : x :: xs.take (k + inserted.length) = (x :: xs.take k) ++ inserted := by
      have hsame : (xs.drop k).take inserted.length = inserted :=
        List.take_eq_take_iff.mpr (by rw [List.length_take]; omega)
      rw [List.take_add, hsame, List.cons_append]
    rw [htaken]
    exact (harranges.toKeeps.append (.refl inserted)).trans harranges'.toKeeps

/-! ## Stacks of runs -/

/-- The items of the runs, of the last run at the end. -/
def contents : List (Pending α) → List α
  | [] => []
  | top :: rest => contents rest ++ top.items

/-- The runs hold the items of `xs`, and each is in order. -/
structure Holds (lt : α → α → Bool) (xs : List α) (runs : List (Pending α)) : Prop where
  keeps : Keeps lt xs (contents runs)
  inOrder : ∀ r ∈ runs, InOrder lt r.items

variable {top next third : Pending α} {rest runs : List (Pending α)}

theorem Holds.tail (h : Holds lt xs (top :: rest)) : Holds lt (contents rest) rest :=
  ⟨.refl _, fun r hr => h.inOrder r (List.mem_cons_of_mem _ hr)⟩

/-- What is done below the last run leaves it as it is. -/
theorem Holds.under (h : Holds lt xs (top :: rest)) (h' : Holds lt (contents rest) runs) :
    Holds lt xs (top :: runs) := by
  refine ⟨h.keeps.trans (h'.keeps.append (.refl top.items)), fun r hr => ?_⟩
  rcases List.mem_cons.mp hr with rfl | hr
  · exact h.inOrder r List.mem_cons_self
  · exact h'.inOrder r hr

theorem Holds.mem (h : Holds lt xs runs) (hxs : ∀ x ∈ xs, S x) : ∀ x ∈ contents runs, S x :=
  fun x hx => hxs x (h.keeps.perm.mem_iff.mp hx)

/-- The last two runs are merged into one. -/
theorem Holds.merge (hlt : StrictWeak lt) (hbelow : Compares below lt S) (h : Holds lt xs (top :: next :: rest))
    (hxs : ∀ x ∈ xs, S x) (patience : Nat) :
    ∃ items patience', mergeRuns below patience next.items top.items = some (items, patience') ∧
      ∀ power, Holds lt xs (⟨items, power⟩ :: rest) := by
  have hS := h.mem hxs
  obtain ⟨items, patience', hmerge, harranges⟩ := arranges_mergeRuns hlt
    (h.inOrder next (List.mem_cons_of_mem _ List.mem_cons_self)) (h.inOrder top List.mem_cons_self)
    (fun a ha b hb => hbelow b a (hS b (by simp [contents, hb])) (hS a (by simp [contents, ha]))) patience
  refine ⟨items, patience', hmerge, fun power => ⟨h.keeps.trans ?_, fun r hr => ?_⟩⟩
  · rw [contents, contents, List.append_assoc]
    exact (Keeps.refl _).append harranges.toKeeps
  · rcases List.mem_cons.mp hr with rfl | hr
    · exact harranges.inOrder
    · exact h.inOrder r (List.mem_cons_of_mem _ (List.mem_cons_of_mem _ hr))

theorem Holds.mergeAbove (hlt : StrictWeak lt) (hbelow : Compares below lt S) (h : Holds lt xs runs)
    (hxs : ∀ x ∈ xs, S x) (power patience : Nat) :
    ∃ stack, Sorting.mergeAbove below power patience runs = some stack ∧ Holds lt xs stack.runs := by
  fun_induction Sorting.mergeAbove below power patience runs with
  | case1 patience top next rest hpower ih =>
    obtain ⟨items, patience', hmerge, hholds⟩ := h.merge hlt hbelow hxs patience
    rw [hmerge]
    exact ih _ _ (hholds next.power)
  | case2 patience top next rest hpower => exact ⟨_, rfl, h⟩
  | case3 patience runs hshort => exact ⟨_, rfl, h⟩

theorem Holds.mergeAll (hlt : StrictWeak lt) (hbelow : Compares below lt S) (h : Holds lt xs runs)
    (hxs : ∀ x ∈ xs, S x) (patience : Nat) :
    ∃ ys, Sorting.mergeAll below patience runs = some ys ∧ Arranges lt xs ys := by
  fun_induction Sorting.mergeAll below patience runs with
  | case1 patience => exact ⟨[], rfl, h.keeps, .nil⟩
  | case2 patience run => exact ⟨run.items, rfl, h.keeps, h.inOrder run List.mem_cons_self⟩
  | case3 patience top next =>
    obtain ⟨items, patience', hmerge, hholds⟩ := h.merge hlt hbelow hxs patience
    rw [hmerge]
    exact ⟨items, rfl, (hholds 0).keeps, (hholds 0).inOrder ⟨items, 0⟩ List.mem_cons_self⟩
  | case4 patience top next third rest hshorter ih =>
    obtain ⟨items, patience', hmerge, hholds⟩ := h.tail.merge hlt hbelow
      (fun x hx => h.mem hxs x (List.mem_append_left _ hx)) patience
    rw [hmerge]
    exact ih _ _ (h.under (hholds third.power))
  | case5 patience top next third rest hlonger ih =>
    obtain ⟨items, patience', hmerge, hholds⟩ := h.merge hlt hbelow hxs patience
    rw [hmerge]
    exact ih _ _ (hholds next.power)

theorem Holds.push (hlt : StrictWeak lt) (hbelow : Compares below lt S) {stack : Stack α} (h : Holds lt done stack.runs)
    (hdone : ∀ x ∈ done, S x) (hrun : Arranges lt xs run) (n start : Nat) :
    ∃ stack', stack.push below n start run = some stack' ∧ Holds lt (done ++ xs) stack'.runs := by
  have hadd : ∀ {runs : List (Pending α)} (power : Nat), Holds lt done runs →
      Holds lt (done ++ xs) (⟨run, power⟩ :: runs) := by
    intro runs power h
    refine ⟨h.keeps.append hrun.toKeeps, fun r hr => ?_⟩
    rcases List.mem_cons.mp hr with rfl | hr
    · exact hrun.inOrder
    · exact h.inOrder r hr
  rw [Stack.push]
  cases hruns : stack.runs with
  | nil =>
    rw [hruns] at h
    exact ⟨_, rfl, hadd 0 h⟩
  | cons top rest =>
    rw [hruns] at h
    let left := top.items.length
    obtain ⟨stack', hstack', hholds⟩ := h.mergeAbove hlt hbelow hdone (boundaryPower n (start - left) left run.length)
      stack.patience
    dsimp only
    rw [hstack']
    exact ⟨_, rfl, hadd _ hholds⟩

/-- Collecting runs goes on with what was collected before. -/
theorem Holds.collect (hlt : StrictWeak lt) (hbelow : Compares below lt S) {stack : Stack α}
    (h : Holds lt done stack.runs) (hdone : ∀ x ∈ done, S x) (hxs : ∀ x ∈ xs, S x) (n : Nat) :
    ∃ stack', Sorting.collect below n stack xs = some stack' ∧ Holds lt (done ++ xs) stack'.runs := by
  fun_induction Sorting.collect below n stack xs generalizing done with
  | case1 stack =>
    rw [List.append_nil]
    exact ⟨stack, rfl, h⟩
  | case2 stack x xs ih =>
    obtain ⟨run, k, hnext, hrun⟩ := exists_nextRun_eq hlt hbelow (leastRun n) (hxs x List.mem_cons_self)
      fun y hy => hxs y (List.mem_cons_of_mem _ hy)
    obtain ⟨stack', hpush, hholds⟩ := h.push hlt hbelow hdone hrun n (n - (x :: xs).length)
    rw [hnext]
    simp only [Option.bind_eq_bind, Option.bind_some, hpush]
    have hfound : ∀ y ∈ done ++ x :: xs.take k, S y := by
      intro y hy
      rcases List.mem_append.mp hy with hy | hy
      · exact hdone y hy
      · exact hxs y (List.mem_of_mem_take (i := k + 1) hy)
    obtain ⟨stack'', hcollect, hholds'⟩ := ih k stack' hholds hfound fun y hy =>
      hxs y (List.mem_cons_of_mem _ (List.mem_of_mem_drop hy))
    refine ⟨stack'', hcollect, ?_⟩
    rw [List.append_assoc, List.cons_append, List.take_append_drop] at hholds'
    exact hholds'

/-- **Sorting puts the items in order and keeps those that tie as they were.** -/
theorem exists_sort_eq (hlt : StrictWeak lt) (hbelow : Compares below lt S) (hxs : ∀ x ∈ xs, S x) :
    ∃ ys, sort below xs = some ys ∧ Arranges lt xs ys := by
  have hempty : Holds lt [] ({} : Stack α).runs := ⟨.refl [], fun r hr => nomatch hr⟩
  obtain ⟨stack, hcollect, hholds⟩ := hempty.collect hlt hbelow (fun x hx => nomatch hx) hxs xs.length
  obtain ⟨ys, hmerge, harranges⟩ := hholds.mergeAll hlt hbelow hxs stack.patience
  exact ⟨ys, by rw [sort, hcollect]; exact hmerge, harranges⟩

end Petri.Sorting
