import Petri.Proofs.Outcomes
import Petri.Sorting.Merge

/-!
# Merging keeps what ties in order

The items are compared by `below`, and `lt` says what the comparisons answer. Items of which neither is below the other
tie. A list is arranged (`Arranges`) if it is in order and keeps items that tie in the order that they had; there is
one such list only (`Arranges.unique`). This file follows a merge of two runs to its end:

> `gallop_eq`: a search finds where a stretch ends, whatever it asks on the way;
> `Merge.Towards.step`: a step of a merge puts out what the plain merge `merged` puts out next, and something is put
> out as long as there is something to compare;
> `arranges_mergeRuns`: **a merge of two runs arranges their items.**
-/

namespace Petri.Sorting

variable {α : Type}

/-! ## Orders with ties -/

/-- An order in which items may tie: what is below another item is not above it, and where two items are in order and
the second and a third are, the first and the third are. -/
structure StrictWeak (lt : α → α → Bool) : Prop where
  asymm : ∀ {a b}, lt a b = true → lt b a = false
  trans : ∀ {a b c}, lt b a = false → lt c b = false → lt c a = false

variable {lt : α → α → Bool}

theorem StrictWeak.flip (h : StrictWeak lt) : StrictWeak fun a b => lt b a :=
  ⟨fun hlt => h.asymm hlt, fun hab hbc => h.trans hbc hab⟩

/-- What is below an item is below all that follow it. -/
theorem StrictWeak.lt_of_lt (h : StrictWeak lt) {a b c : α} (hab : lt a b = true) (hbc : lt c b = false) :
    lt a c = true := by
  rw [← Bool.not_eq_false]
  intro hca
  rw [h.trans hbc hca] at hab
  cases hab

/-- What an item follows is below all that the item is below. -/
theorem StrictWeak.lt_of_le (h : StrictWeak lt) {a b c : α} (hab : lt b a = false) (hbc : lt b c = true) :
    lt a c = true := by
  rw [← Bool.not_eq_false]
  intro hca
  rw [h.trans hca hab] at hbc
  cases hbc

/-- What is not above an item passes that on to earlier items. -/
theorem StrictWeak.not_lt_down (h : StrictWeak lt) (x : α) {a b : α} (hab : lt b a = false)
    (hb : (!lt x b) = true) : (!lt x a) = true := by
  rw [Bool.not_eq_true'] at hb ⊢
  refine Bool.eq_false_iff.mpr fun hxa => ?_
  rw [h.lt_of_lt hxa hab] at hb
  cases hb

/-- Whether neither item is below the other. -/
def ties (lt : α → α → Bool) (a b : α) : Bool :=
  !lt a b && !lt b a

theorem ties_self (h : StrictWeak lt) (a : α) : ties lt a a = true := by
  have hself : lt a a = false := Bool.eq_false_iff.mpr fun hlt => by
    rw [h.asymm hlt] at hlt
    cases hlt
  rw [ties, hself]
  rfl

theorem ties_flip (a : α) : ties (fun a b => lt b a) a = ties lt a := by
  funext b
  exact Bool.and_comm _ _

theorem ties_of_ties (h : StrictWeak lt) {a x y : α} (hx : ties lt a x = true) (hy : ties lt a y = true) :
    ties lt x y = true := by
  simp only [ties, Bool.and_eq_true, Bool.not_eq_true'] at hx hy ⊢
  exact ⟨h.trans hy.1 hx.2, h.trans hx.1 hy.2⟩

/-- Among items that do not tie with `x` there is none that ties with what `x` ties with. -/
theorem filter_ties_eq_nil (h : StrictWeak lt) {a x : α} {ys : List α} (htie : ties lt a x = true)
    (hapart : ∀ y ∈ ys, ties lt x y = false) : ys.filter (ties lt a) = [] := by
  refine List.filter_eq_nil_iff.mpr fun y hy hytie => ?_
  have hboth := ties_of_ties h htie hytie
  rw [hapart y hy] at hboth
  cases hboth

/-- No item is below one before it. -/
def InOrder (lt : α → α → Bool) (xs : List α) : Prop :=
  xs.Pairwise fun a b => lt b a = false

/-- The last item is not below any other. -/
theorem InOrder.le_last (hlt : StrictWeak lt) {xs : List α} (h : InOrder lt xs) {x a : α} (hx : x ∈ xs.getLast?)
    (ha : a ∈ xs) : lt x a = false := by
  obtain ⟨init, rfl⟩ := List.getLast?_eq_some_iff.mp hx
  rcases List.mem_append.mp ha with ha | ha
  · exact (List.pairwise_append.mp h).2.2 a ha x List.mem_cons_self
  · obtain rfl := List.mem_singleton.mp ha
    simpa [ties] using ties_self hlt a

/-- The lists have the same items, and those that tie in the same order. -/
structure Keeps (lt : α → α → Bool) (xs ys : List α) : Prop where
  perm : ys.Perm xs
  ties_eq : ∀ a, ys.filter (ties lt a) = xs.filter (ties lt a)

/-- `ys` is `xs` put in order, with items that tie in the given order. -/
structure Arranges (lt : α → α → Bool) (xs ys : List α) : Prop extends Keeps lt xs ys where
  inOrder : InOrder lt ys

variable {xs ys zs xs' ys' : List α}

theorem Keeps.refl (xs : List α) : Keeps lt xs xs :=
  ⟨.refl xs, fun _ => rfl⟩

theorem Keeps.trans (h : Keeps lt xs ys) (h' : Keeps lt ys zs) : Keeps lt xs zs :=
  ⟨h'.perm.trans h.perm, fun a => (h'.ties_eq a).trans (h.ties_eq a)⟩

theorem Keeps.append (h : Keeps lt xs ys) (h' : Keeps lt xs' ys') : Keeps lt (xs ++ xs') (ys ++ ys') := by
  refine ⟨h.perm.append h'.perm, fun a => ?_⟩
  rw [List.filter_append, List.filter_append, h.ties_eq, h'.ties_eq]

/-- Reading both lists backward turns the order around. -/
theorem Arranges.reverse (h : Arranges (fun a b => lt b a) xs.reverse ys) : Arranges lt xs ys.reverse := by
  refine ⟨⟨(List.reverse_perm ys).trans (h.perm.trans (List.reverse_perm xs)), fun a => ?_⟩, ?_⟩
  · have hties := h.ties_eq a
    rw [ties_flip, List.filter_reverse] at hties
    rw [List.filter_reverse, hties, List.reverse_reverse]
  · exact List.pairwise_reverse.mpr h.inOrder

/-- Items in order begin with the same item if those that tie come in the same order. -/
theorem head_eq_of_ties (hlt : StrictWeak lt) {x y : α} (hx : InOrder lt (x :: xs)) (hy : InOrder lt (y :: ys))
    (hperm : (y :: ys).Perm (x :: xs))
    (hties : ∀ a, (y :: ys).filter (ties lt a) = (x :: xs).filter (ties lt a)) : y = x := by
  -- the first item of one list is somewhere in the other, so it is not below the first item there
  have hle : ∀ {x y : α} {xs ys : List α}, InOrder lt (y :: ys) → (y :: ys).Perm (x :: xs) → lt x y = false := by
    intro x y xs ys hy hperm
    rcases List.mem_cons.mp (hperm.mem_iff.mpr List.mem_cons_self) with rfl | hmem
    · simpa [ties] using ties_self hlt x
    · exact (List.pairwise_cons.mp hy).1 x hmem
  have htie : ties lt x y = true := by
    rw [ties, hle hy hperm, hle hx hperm.symm]
    rfl
  have hheads := hties x
  rw [List.filter_cons_of_pos htie, List.filter_cons_of_pos (ties_self hlt x)] at hheads
  exact (List.cons.inj hheads).1

/-- **There is one way to arrange items.** -/
theorem Arranges.unique (hlt : StrictWeak lt) (h : Arranges lt xs ys) (h' : Arranges lt xs zs) : ys = zs := by
  have hperm := h.perm.trans h'.perm.symm
  have hties := fun a => (h.ties_eq a).trans (h'.ties_eq a).symm
  have hys := h.inOrder
  have hzs := h'.inOrder
  clear h h'
  induction ys generalizing zs with
  | nil => exact (List.nil_perm.mp hperm).symm
  | cons y ys ih =>
    cases zs with
    | nil => exact List.perm_nil.mp hperm
    | cons z zs =>
      obtain rfl : y = z := head_eq_of_ties hlt hzs hys hperm hties
      have hrest : ∀ a, ys.filter (ties lt a) = zs.filter (ties lt a) := by
        intro a
        have hboth := hties a
        rw [List.filter_cons, List.filter_cons] at hboth
        split at hboth
        next => exact (List.cons.inj hboth).2
        next => exact hboth
      rw [ih (List.Perm.cons_inv hperm) hrest (List.pairwise_cons.mp hys).2 (List.pairwise_cons.mp hzs).2]

/-! ## Searching -/

section Searching

variable {reading : Reading} {holds : Nat → Option Bool} {lo hi n size last : Nat}

/-- Halving finds the place at which a property ends. -/
theorem halve_eq (hlo : lo ≤ n) (hhi : n ≤ hi) (h : ∀ i, lo ≤ i → i < hi → holds i = some (decide (i < n))) :
    halve reading holds lo hi = some n := by
  fun_induction halve reading holds lo hi with
  | case1 lo hi _ hmid hlt hholds ih =>
    rw [h _ hmid hlt, Option.some.injEq, decide_eq_true_eq] at hholds
    exact ih (by omega) hhi fun i hi' => h i (by omega)
  | case2 lo hi _ hmid hlt hholds ih =>
    rw [h _ hmid hlt, Option.some.injEq, decide_eq_false_iff_not] at hholds
    exact ih hlo (by omega) fun i hi' hi => h i hi' (by omega)
  | case3 lo hi _ hmid hlt hholds =>
    rw [h _ hmid hlt] at hholds
    cases hholds
  | case4 lo hi hlt => rw [show n = lo by omega]

/-- Leaping leaves an interval in which the property ends. -/
theorem exists_leap_eq (hlast : last < n) (hn : n ≤ size) (h : ∀ i < size, holds i = some (decide (i < n))) :
    ∃ lo hi, leap holds size last = some (lo, hi) ∧ lo ≤ n ∧ n ≤ hi ∧ hi ≤ size := by
  fun_induction leap holds size last with
  | case1 last hlt hholds ih =>
    rw [h _ hlt, Option.some.injEq, decide_eq_true_eq] at hholds
    exact ih hholds
  | case2 last hlt hholds =>
    rw [h _ hlt, Option.some.injEq, decide_eq_false_iff_not] at hholds
    exact ⟨_, _, rfl, by omega, by omega, by omega⟩
  | case3 last hlt hholds =>
    rw [h _ hlt] at hholds
    cases hholds
  | case4 last => exact ⟨_, _, rfl, by omega, hn, Nat.le_refl _⟩

variable {holds : α → Option Bool} {front back : List α}

theorem holdsAt_append (hfront : ∀ x ∈ front, holds x = some true) (hback : ∀ x ∈ back, holds x = some false)
    (i : Nat) : holdsAt holds (front ++ back) i = some (decide (i < front.length)) := by
  unfold holdsAt
  by_cases hi : i < front.length
  · rw [List.getElem?_append_left hi, List.getElem?_eq_getElem hi, decide_eq_true hi]
    exact hfront _ (List.getElem_mem hi)
  · rw [List.getElem?_append_right (by omega), decide_eq_false hi]
    cases hx : back[i - front.length]? with
    | none => rfl
    | some x => exact hback x (List.mem_of_getElem? hx)

/-- **A search finds how long the stretch is** that begins the list. -/
theorem gallop_eq (reading : Reading) (hfront : ∀ x ∈ front, holds x = some true)
    (hback : ∀ x ∈ back, holds x = some false) : gallop reading holds (front ++ back) = some front.length := by
  have hat := holdsAt_append hfront hback
  have hsize : front.length ≤ (front ++ back).length := by
    rw [List.length_append]
    exact Nat.le_add_right _ _
  have hbelow : ∀ i < (front ++ back).length, holdsAt holds (front ++ back) i = some (decide (i < front.length)) :=
    fun i _ => hat i
  rw [gallop, hat 0]
  by_cases hempty : 0 < front.length
  · obtain ⟨lo, hi, hleap, hlo, hhi, _⟩ := exists_leap_eq hempty hsize hbelow
    rw [decide_eq_true hempty]
    show (leap _ _ _ >>= fun e => halve reading _ e.1 e.2) = _
    rw [hleap]
    exact halve_eq hlo hhi fun i _ _ => hat i
  · rw [decide_eq_false hempty]
    exact congrArg some (by omega)

end Searching

/-- A list in order is split where a property ends that passes to earlier items. -/
theorem exists_split {p : α → Bool} (hxs : InOrder lt xs) (hdown : ∀ {a b}, lt b a = false → p b = true → p a = true) :
    ∃ front back, xs = front ++ back ∧ (∀ x ∈ front, p x = true) ∧ ∀ x ∈ back, p x = false := by
  induction xs with
  | nil => exact ⟨[], [], rfl, by simp, by simp⟩
  | cons y ys ih =>
    obtain ⟨hy, hys⟩ := List.pairwise_cons.mp hxs
    by_cases hpy : p y = true
    · obtain ⟨front, back, rfl, hfront, hback⟩ := ih hys
      exact ⟨y :: front, back, rfl, List.forall_mem_cons.mpr ⟨hpy, hfront⟩, hback⟩
    · refine ⟨[], y :: ys, rfl, by simp, List.forall_mem_cons.mpr ⟨by simpa using hpy, fun x hx => ?_⟩⟩
      exact Bool.eq_false_iff.mpr fun hpx => hpy (hdown (hy x hx) hpx)

/-- In a list in order, a search for the end of a property that passes to earlier items splits the list there. -/
theorem exists_gallop_eq (reading : Reading) {holds : α → Option Bool} {p : α → Bool} (hxs : InOrder lt xs)
    (hdown : ∀ {a b}, lt b a = false → p b = true → p a = true) (hholds : ∀ x ∈ xs, holds x = some (p x)) :
    ∃ front back, xs = front ++ back ∧ (∀ x ∈ front, p x = true) ∧ (∀ x ∈ back, p x = false) ∧
      gallop reading holds xs = some front.length := by
  obtain ⟨front, back, rfl, hfront, hback⟩ := exists_split hxs hdown
  refine ⟨front, back, rfl, hfront, hback, gallop_eq reading (fun x hx => ?_) fun x hx => ?_⟩
  · rw [hholds x (List.mem_append_left _ hx), hfront x hx]
  · rw [hholds x (List.mem_append_right _ hx), hback x hx]

/-! ## The plain merge -/

/-- The items of two lists, always the first one left of either; of two that tie that of the first list. -/
def merged (lt : α → α → Bool) (kept moved : List α) : List α :=
  List.merge kept moved fun k m => !lt m k

theorem merged_nil_left (moved : List α) : merged lt [] moved = moved := by
  simp [merged]

theorem merged_nil_right (kept : List α) : merged lt kept [] = kept := by
  simp [merged]

variable {front kept moved : List α}

/-- A stretch of the first list that the second one does not get in front of is put out as it is. -/
theorem merged_append_left (h : ∀ k ∈ front, ∀ m ∈ moved.head?, lt m k = false) :
    merged lt (front ++ kept) moved = front ++ merged lt kept moved := by
  induction front with
  | nil => rfl
  | cons k front ih =>
    have hrest := ih fun k hk => h k (List.mem_cons_of_mem _ hk)
    cases moved with
    | nil => simp [merged_nil_right]
    | cons m moved =>
      have hle : (!lt m k) = true := by
        rw [h k List.mem_cons_self m rfl]
        rfl
      rw [List.cons_append, merged, List.cons_merge_cons, if_pos hle]
      exact congrArg (k :: ·) hrest

/-- A stretch of the second list in front of the first one is put out as it is. -/
theorem merged_append_right (h : ∀ m ∈ front, ∀ k ∈ kept.head?, lt m k = true) :
    merged lt kept (front ++ moved) = front ++ merged lt kept moved := by
  induction front with
  | nil => rfl
  | cons m front ih =>
    have hrest := ih fun m hm => h m (List.mem_cons_of_mem _ hm)
    cases kept with
    | nil => simp [merged_nil_left]
    | cons k kept =>
      have hgt : ¬ (!lt m k) = true := by
        rw [h m List.mem_cons_self k rfl]
        exact Bool.false_ne_true
      rw [List.cons_append, merged, List.cons_merge_cons, if_neg hgt]
      exact congrArg (m :: ·) hrest

/-- Items that tie are put out in the order of the lists, those of the first list before those of the second one. -/
theorem filter_ties_merged (hlt : StrictWeak lt) (a : α) (hkept : InOrder lt kept) (hmoved : InOrder lt moved) :
    (merged lt kept moved).filter (ties lt a) = (kept ++ moved).filter (ties lt a) := by
  induction kept generalizing moved with
  | nil => rw [merged_nil_left, List.nil_append]
  | cons k kept ih =>
    induction moved with
    | nil => rw [merged_nil_right, List.append_nil]
    | cons m moved ihm =>
      rw [merged, List.cons_merge_cons]
      split
      next =>
        rw [List.filter_cons, ← merged, ih (List.pairwise_cons.mp hkept).2 hmoved, List.cons_append,
          List.filter_cons]
      next hbelow =>
        rw [List.filter_cons, ← merged, ihm (List.pairwise_cons.mp hmoved).2, List.filter_append,
          List.filter_append, List.filter_cons (x := m)]
        split
        next htie =>
          -- what ties with the item that is put out first is not in the first list
          have hmk : lt m k = true := by simpa using hbelow
          have hnone : (k :: kept).filter (ties lt a) = [] := by
            refine filter_ties_eq_nil hlt htie fun x hx => ?_
            rcases List.mem_cons.mp hx with rfl | hx
            · simp [ties, hmk]
            · simp [ties, hlt.lt_of_lt hmk ((List.pairwise_cons.mp hkept).1 x hx)]
          rw [hnone]
          rfl
        next => rfl

theorem inOrder_merged (hlt : StrictWeak lt) (hkept : InOrder lt kept) (hmoved : InOrder lt moved) :
    InOrder lt (merged lt kept moved) := by
  have htrans : ∀ a b c, (!lt b a) = true → (!lt c b) = true → (!lt c a) = true := by
    intro a b c hab hbc
    rw [Bool.not_eq_true'] at hab hbc ⊢
    exact hlt.trans hab hbc
  have htotal : ∀ a b, ((!lt b a) || (!lt a b)) = true := by
    intro a b
    cases hba : lt b a with
    | false => rfl
    | true =>
      rw [hlt.asymm hba]
      rfl
  have hle : ∀ {xs}, InOrder lt xs ↔ xs.Pairwise fun k m => (!lt m k) = true := by simp [InOrder]
  exact hle.mpr (List.pairwise_merge htrans htotal kept moved (hle.mp hkept) (hle.mp hmoved))

/-- The plain merge of two lists in order arranges their items. -/
theorem arranges_merged (hlt : StrictWeak lt) (hkept : InOrder lt kept) (hmoved : InOrder lt moved) :
    Arranges lt (kept ++ moved) (merged lt kept moved) :=
  ⟨⟨List.merge_perm_append _, fun a => filter_ties_merged hlt a hkept hmoved⟩, inOrder_merged hlt hkept hmoved⟩

/-! ## A merge in progress -/

namespace Merge

/-- A merge on the way to `whole`: what has been put out and the plain merge of what is left make the whole. What is
left is in order, all that is left of the moved run comes before the last item of the kept one, and the two can be
compared. -/
structure Towards (lt : α → α → Bool) (precedes : α → α → Option Bool) (whole : List α) (s : Merge α) : Prop where
  whole_eq : s.out.reverse ++ merged lt s.kept s.moved = whole
  kept : InOrder lt s.kept
  moved : InOrder lt s.moved
  last : ∀ k ∈ s.kept.getLast?, ∀ m ∈ s.moved, lt m k = true
  compared : ∀ m ∈ s.moved, ∀ k ∈ s.kept, precedes m k = some (lt m k)

variable {precedes : α → α → Option Bool} {reading : Reading} {whole : List α} {s : Merge α} {n : Nat}

/-- How many items are left. -/
def left (s : Merge α) : Nat :=
  s.kept.length + s.moved.length

theorem Towards.congr {s' : Merge α} (h : Towards lt precedes whole s) (hout : s'.out = s.out)
    (hkept : s'.kept = s.kept) (hmoved : s'.moved = s.moved) : Towards lt precedes whole s' := by
  obtain ⟨out, kept, moved, _, _⟩ := s'
  subst hout hkept hmoved
  exact ⟨h.whole_eq, h.kept, h.moved, h.last, h.compared⟩

theorem Towards.putKept (h : Towards lt precedes whole s)
    (hfront : ∀ k ∈ s.kept.take n, ∀ m ∈ s.moved.head?, lt m k = false) :
    Towards lt precedes whole (s.putKept n) := by
  have hsub : ∀ k ∈ s.kept.drop n, k ∈ s.kept := fun k hk => List.mem_of_mem_drop hk
  refine ⟨?_, h.kept.sublist (List.drop_sublist _ _), h.moved, fun k hk => ?_,
    fun m hm k hk => h.compared m hm k (hsub k hk)⟩
  · rw [← h.whole_eq]
    conv => rhs; rw [← List.take_append_drop n s.kept, merged_append_left hfront]
    simp [Merge.putKept]
  · refine h.last k ?_
    have hlast : (s.kept.drop n).getLast? = some k := hk
    rw [List.getLast?_drop] at hlast
    split at hlast
    next => cases hlast
    next => exact hlast

theorem Towards.putMoved (h : Towards lt precedes whole s)
    (hfront : ∀ m ∈ s.moved.take n, ∀ k ∈ s.kept.head?, lt m k = true) :
    Towards lt precedes whole (s.putMoved n) := by
  have hsub : ∀ m ∈ s.moved.drop n, m ∈ s.moved := fun m hm => List.mem_of_mem_drop hm
  refine ⟨?_, h.kept, h.moved.sublist (List.drop_sublist _ _), fun k hk m hm => h.last k hk m (hsub m hm),
    fun m hm k hk => h.compared m (hsub m hm) k hk⟩
  rw [← h.whole_eq]
  conv => rhs; rw [← List.take_append_drop n s.moved, merged_append_right hfront]
  simp [Merge.putMoved]

/-- When a merge is over, its result is the whole. -/
theorem Towards.result_eq (h : Towards lt precedes whole s) (hover : s.isOver = true) : s.result = whole := by
  rw [← h.whole_eq, result, List.append_assoc]
  congr 1
  rw [isOver, Bool.or_eq_true, List.isEmpty_iff, decide_eq_true_eq] at hover
  rcases hover with hmoved | hkept
  · rw [hmoved, merged_nil_right, List.nil_append]
  · have hlast := h.last
    match hk : s.kept, hkept with
    | [], _ => rw [merged_nil_left, List.append_nil]
    | [k], _ =>
      rw [hk] at hlast
      have hput : merged lt [k] (s.moved ++ []) = s.moved ++ merged lt [k] [] :=
        merged_append_right fun m hm k hk => hlast k hk m hm
      rw [List.append_nil, merged_nil_right] at hput
      exact hput.symm

theorem left_putKept (s : Merge α) (n : Nat) : (s.putKept n).left = (s.kept.length - n) + s.moved.length := by
  simp [left, putKept]

theorem left_putMoved (s : Merge α) (n : Nat) : (s.putMoved n).left = s.kept.length + (s.moved.length - n) := by
  simp [left, putMoved]

/-- A merge that is not over has an item of the moved run left and two of the kept one. -/
theorem exists_of_not_over (h : ¬ s.isOver = true) :
    ∃ m moved k k' kept, s.moved = m :: moved ∧ s.kept = k :: k' :: kept := by
  rw [isOver, Bool.or_eq_true, not_or, List.isEmpty_iff, decide_eq_true_eq] at h
  obtain ⟨m, moved, hmoved⟩ := List.exists_cons_of_ne_nil h.1
  match hk : s.kept, h.2 with
  | [], hlen => exact absurd (Nat.zero_le 1) hlen
  | [k], hlen => exact absurd (Nat.le_refl 1) hlen
  | k :: k' :: kept, _ => exact ⟨m, moved, k, k', kept, hmoved, rfl⟩

/-- What a part of a step does to a merge that is not over: it has a result, on the way to the same whole, and it puts
something out or ends the merge. -/
def Advances (lt : α → α → Bool) (precedes : α → α → Option Bool) (whole : List α) (s s' : Merge α) : Prop :=
  Towards lt precedes whole s' ∧ (s'.isOver = true ∨ s'.left < s.left)

theorem stepSingle_advances (h : Towards lt precedes whole s) (hnot : ¬ s.isOver = true) (keptRow movedRow : Nat) :
    ∃ s', stepSingle precedes s keptRow movedRow = some s' ∧ Advances lt precedes whole s s' := by
  obtain ⟨m, moved, k, k', kept, hmoved, hkept⟩ := exists_of_not_over hnot
  have hcompared := h.compared m (hmoved ▸ List.mem_cons_self) k (hkept ▸ List.mem_cons_self)
  rw [stepSingle, hmoved, hkept]
  dsimp only
  rw [hcompared]
  cases hmk : lt m k with
  | true =>
    refine ⟨_, rfl, (h.putMoved (n := 1) ?_).congr rfl rfl rfl, .inr ?_⟩
    · rw [hmoved, hkept]
      simpa using hmk
    · show (s.putMoved 1).left < _
      rw [left_putMoved, left, hmoved, List.length_cons]
      omega
  | false =>
    refine ⟨_, rfl, (h.putKept (n := 1) ?_).congr rfl rfl rfl, .inr ?_⟩
    · rw [hmoved, hkept]
      simpa using hmk
    · show (s.putKept 1).left < _
      rw [left_putKept, left, hkept, List.length_cons]
      omega

theorem stretchKept_advances (hlt : StrictWeak lt) (h : Towards lt precedes whole s) (hnot : ¬ s.isOver = true) :
    ∃ s' k, stretchKept precedes reading s = some (s', k) ∧ Advances lt precedes whole s s' := by
  obtain ⟨m, moved, _, _, _, hmoved, _⟩ := exists_of_not_over hnot
  obtain ⟨front, back, hkept, hfront, hback, hgallop⟩ :=
    exists_gallop_eq reading h.kept (hlt.not_lt_down m) fun x hx =>
      show (precedes m x).map not = some (!lt m x) by
        rw [h.compared m (hmoved ▸ List.mem_cons_self) x hx]
        rfl
  have hput : Towards lt precedes whole (s.putKept front.length) := by
    refine h.putKept fun k hk m' hm' => ?_
    rw [hkept, List.take_left] at hk
    obtain rfl : m' = m := by simpa [hmoved] using hm'.symm
    simpa using hfront k hk
  have hrest : (s.putKept front.length).kept = back := by rw [Merge.putKept, hkept, List.drop_left]
  rw [stretchKept, hmoved]
  dsimp only
  rw [hgallop]
  by_cases hover : (s.putKept front.length).isOver = true
  · exact ⟨_, _, rfl, by rw [if_pos hover]; exact hput, .inl (by rw [if_pos hover]; exact hover)⟩
  · refine ⟨_, _, rfl, ?_⟩
    rw [if_neg hover]
    refine ⟨hput.putMoved fun m' hm' k hk => ?_, .inr ?_⟩
    · obtain rfl : m' = m := by simpa [Merge.putKept, hmoved] using hm'
      rw [hrest] at hk
      simpa using hback k (List.mem_of_mem_head? hk)
    · rw [left_putMoved, left]
      simp only [Merge.putKept, hmoved, List.length_cons, List.length_drop]
      omega

theorem stretchMoved_advances (hlt : StrictWeak lt) (h : Towards lt precedes whole s) (hnot : ¬ s.isOver = true) :
    ∃ s' k, stretchMoved precedes reading s = some (s', k) ∧ Advances lt precedes whole s s' := by
  obtain ⟨_, _, x, _, _, _, hkept⟩ := exists_of_not_over hnot
  obtain ⟨front, back, hmoved, hfront, hback, hgallop⟩ :=
    exists_gallop_eq reading h.moved (fun hab hb => hlt.lt_of_le hab hb) fun m hm =>
      h.compared m hm x (hkept ▸ List.mem_cons_self)
  have hput : Towards lt precedes whole (s.putMoved front.length) := by
    refine h.putMoved fun m hm k hk => ?_
    rw [hmoved, List.take_left] at hm
    obtain rfl : k = x := by simpa [hkept] using hk.symm
    exact hfront m hm
  have hrest : (s.putMoved front.length).moved = back := by rw [Merge.putMoved, hmoved, List.drop_left]
  rw [stretchMoved, hkept]
  dsimp only
  rw [hgallop]
  by_cases hover : (s.putMoved front.length).isOver = true
  · exact ⟨_, _, rfl, by rw [if_pos hover]; exact hput, .inl (by rw [if_pos hover]; exact hover)⟩
  · refine ⟨_, _, rfl, ?_⟩
    rw [if_neg hover]
    refine ⟨hput.putKept fun k hk m hm => ?_, .inr ?_⟩
    · obtain rfl : k = x := by simpa [Merge.putMoved, hkept] using hk
      rw [hrest] at hm
      exact hback m (List.mem_of_mem_head? hm)
    · rw [left_putKept, left]
      simp only [Merge.putMoved, hkept, List.length_cons, List.length_drop]
      omega

theorem Advances.trans {s' s'' : Merge α} (h : Advances lt precedes whole s s') (hnot : ¬ s'.isOver = true)
    (h' : Advances lt precedes whole s' s'') : Advances lt precedes whole s s'' := by
  have hless := h.2.resolve_left hnot
  refine ⟨h'.1, h'.2.imp id fun hless' => Nat.lt_trans hless' hless⟩

theorem stretchBoth_advances (hlt : StrictWeak lt) (h : Towards lt precedes whole s) (hnot : ¬ s.isOver = true) :
    ∃ s' k, stretchBoth precedes reading s = some (s', k) ∧ Advances lt precedes whole s s' := by
  have hboth : ∀ first second : Merge α → Option (Merge α × Nat),
      (∀ s, Towards lt precedes whole s → ¬ s.isOver = true →
        ∃ s' k, first s = some (s', k) ∧ Advances lt precedes whole s s') →
      (∀ s, Towards lt precedes whole s → ¬ s.isOver = true →
        ∃ s' k, second s = some (s', k) ∧ Advances lt precedes whole s s') →
      ∃ s' k, ((first s).bind fun r =>
          if r.1.isOver then some r else (second r.1).bind fun q => some (q.1, max r.2 q.2)) = some (s', k) ∧
        Advances lt precedes whole s s' := by
    intro first second hfirst hsecond
    obtain ⟨s', j, hs', hadv⟩ := hfirst s h hnot
    by_cases hover : s'.isOver = true
    · exact ⟨s', j, by simp [hs', hover], hadv⟩
    · obtain ⟨s'', k, hs'', hadv'⟩ := hsecond s' hadv.1 hover
      exact ⟨s'', max j k, by simp [hs', hover, hs''], hadv.trans hover hadv'⟩
  have hkept : ∀ s, Towards lt precedes whole s → ¬ s.isOver = true →
      ∃ s' k, stretchKept precedes reading s = some (s', k) ∧ Advances lt precedes whole s s' :=
    fun _ h hnot => stretchKept_advances hlt h hnot
  have hmoved : ∀ s, Towards lt precedes whole s → ¬ s.isOver = true →
      ∃ s' k, stretchMoved precedes reading s = some (s', k) ∧ Advances lt precedes whole s s' :=
    fun _ h hnot => stretchMoved_advances hlt h hnot
  cases reading with
  | forward => exact hboth _ _ hkept hmoved
  | backward => exact hboth _ _ hmoved hkept

/-- **A step of a merge** that is not over has a result on the way to the same whole, and something is put out. -/
theorem Towards.step (hlt : StrictWeak lt) (h : Towards lt precedes whole s) (hnot : ¬ s.isOver = true) :
    ∃ s', s.step precedes reading = some s' ∧ Advances lt precedes whole s s' := by
  rw [Merge.step, if_neg hnot]
  cases s.phase with
  | single keptRow movedRow => exact stepSingle_advances h hnot keptRow movedRow
  | stretches =>
    obtain ⟨s', k, hs', htowards, hless⟩ : ∃ s' k, stretchBoth precedes reading s = some (s', k) ∧
      Advances lt precedes whole s s' := stretchBoth_advances hlt h hnot
    show ∃ s'', stepStretches precedes reading s = some s'' ∧ _
    rw [stepStretches, hs']
    by_cases hover : s'.isOver = true
    · exact ⟨s', by simp [hover], htowards, hless⟩
    · by_cases hlong : standardPatience ≤ k
      · exact ⟨{ s' with patience := max 1 (s'.patience - 1) }, by simp [hover, hlong],
          htowards.congr rfl rfl rfl, hless⟩
      · exact ⟨{ s' with patience := s'.patience + 1, phase := .single 0 0 }, by simp [hover, hlong],
          htowards.congr rfl rfl rfl, hless⟩

/-- As many steps as there are items left end the merge. -/
theorem Towards.steps (hlt : StrictWeak lt) (h : Towards lt precedes whole s) (hn : s.left ≤ n) :
    ∃ s', s.steps precedes reading n = some s' ∧ s'.result = whole := by
  have hstays : ∀ (n : Nat) (s : Merge α), s.isOver = true → s.steps precedes reading n = some s := by
    intro n
    induction n with
    | zero => exact fun s _ => rfl
    | succ n ih =>
      intro s hover
      rw [Merge.steps, Merge.step, if_pos hover]
      exact ih s hover
  induction n generalizing s with
  | zero =>
    have hover : s.isOver = true := by
      have hmoved : s.moved = [] := List.length_eq_zero_iff.mp (by rw [left] at hn; omega)
      rw [isOver, hmoved]
      rfl
    exact ⟨s, rfl, h.result_eq hover⟩
  | succ n ih =>
    by_cases hover : s.isOver = true
    · exact ⟨s, hstays _ s hover, h.result_eq hover⟩
    · obtain ⟨s', hs', htowards, hless⟩ : ∃ s', s.step precedes reading = some s' ∧ Advances lt precedes whole s s' :=
        h.step hlt hover
      rw [Merge.steps, hs']
      by_cases hover' : s'.isOver = true
      · exact ⟨s', hstays n s' hover', htowards.result_eq hover'⟩
      · have hfewer := hless.resolve_left hover'
        exact ih htowards (by omega)

end Merge

/-! ## Two runs -/

variable {precedes below : α → α → Option Bool} {reading : Reading} {first second kept moved : List α}

/-- The moved run has something that comes before all of the kept one, and the kept run something that comes after all
of the moved one. -/
theorem mergeApart_eq (hlt : StrictWeak lt) (hkept : InOrder lt kept) (hmoved : InOrder lt moved)
    (hhead : ∀ m ∈ moved.head?, ∀ k ∈ kept.head?, lt m k = true)
    (hlast : ∀ k ∈ kept.getLast?, ∀ m ∈ moved, lt m k = true)
    (hcompared : ∀ m ∈ moved, ∀ k ∈ kept, precedes m k = some (lt m k)) (patience : Nat) :
    ∃ patience', mergeApart precedes reading patience kept moved = some (merged lt kept moved, patience') := by
  let start : Merge α := { out := moved.take 1, kept, moved := moved.drop 1, patience }
  have hsub : ∀ m ∈ moved.drop 1, m ∈ moved := fun m hm => List.mem_of_mem_drop hm
  have htowards : start.Towards lt precedes (merged lt kept moved) := by
    refine ⟨?_, hkept, hmoved.sublist (List.drop_sublist _ _), fun k hk m hm => hlast k hk m (hsub m hm),
      fun m hm => hcompared m (hsub m hm)⟩
    cases moved with
    | nil => rfl
    | cons m moved =>
      have hput : merged lt kept ([m] ++ moved) = [m] ++ merged lt kept moved :=
        merged_append_right fun m' hm' => by
          rw [List.mem_singleton.mp hm']
          exact hhead m rfl
      exact hput.symm
  have hleft : start.left ≤ kept.length + moved.length := by
    show kept.length + (moved.drop 1).length ≤ _
    rw [List.length_drop]
    omega
  obtain ⟨s, hs, hresult⟩ : ∃ s, start.steps precedes reading (kept.length + moved.length) = some s ∧ _ :=
    htowards.steps hlt hleft
  exact ⟨s.patience, by rw [mergeApart, hs, ← hresult]; rfl⟩

/-- The items between what comes first and what comes last may be arranged for themselves. -/
theorem Arranges.between {front back : List α} (h : Arranges lt (first ++ second) ys)
    (hfront : InOrder lt (front ++ first)) (hback : InOrder lt (second ++ back))
    (hcross : ∀ a ∈ front, ∀ b ∈ second ++ back, lt b a = false) (hcross' : ∀ a ∈ first, ∀ b ∈ back, lt b a = false) :
    Arranges lt ((front ++ first) ++ (second ++ back)) (front ++ ys ++ back) := by
  obtain ⟨hfronts, hfirst, hfrontFirst⟩ := List.pairwise_append.mp hfront
  obtain ⟨hsecond, hbacks, hsecondBack⟩ := List.pairwise_append.mp hback
  have hmem : ∀ {y}, y ∈ ys ↔ y ∈ first ∨ y ∈ second := fun {y} => h.perm.mem_iff.trans List.mem_append
  have hkeeps := ((Keeps.refl front).append h.toKeeps).append (Keeps.refl back)
  rw [← List.append_assoc front, List.append_assoc (front ++ first)] at hkeeps
  refine ⟨hkeeps, List.pairwise_append.mpr ⟨List.pairwise_append.mpr ⟨hfronts, h.inOrder, fun a ha b hb => ?_⟩,
    hbacks, fun a ha b hb => ?_⟩⟩
  · rcases hmem.mp hb with hb | hb
    · exact hfrontFirst a ha b hb
    · exact hcross a ha b (List.mem_append_left _ hb)
  · rcases List.mem_append.mp ha with ha | ha
    · exact hcross a ha b (List.mem_append_right _ hb)
    · rcases hmem.mp ha with ha | ha
      · exact hcross' a ha b hb
      · exact hsecondBack a ha b hb

/-- Both ways of merging two runs come to the same: the shorter run is kept aside, and if it is the second one, both are
read backward. -/
theorem arranges_mergeApart (hlt : StrictWeak lt) (hfirst : InOrder lt first) (hsecond : InOrder lt second)
    (hhead : ∀ a ∈ first, ∀ b ∈ second.head?, lt b a = true) (hlast : ∀ a ∈ first.getLast?, ∀ b ∈ second, lt b a = true)
    (hcompared : ∀ a ∈ first, ∀ b ∈ second, below b a = some (lt b a)) (patience : Nat) :
    (∃ ys patience', mergeApart below .forward patience first second = some (ys, patience') ∧
        Arranges lt (first ++ second) ys) ∧
      ∃ ys patience', mergeApart (fun x y => below y x) .backward patience second.reverse first.reverse
          = some (ys, patience') ∧ Arranges lt (first ++ second) ys.reverse := by
  constructor
  · obtain ⟨patience', hmerge⟩ : ∃ patience', mergeApart below .forward patience first second = some (_, patience') :=
      mergeApart_eq hlt hfirst hsecond (fun b hb a ha => hhead a (List.mem_of_mem_head? ha) b hb) hlast
        (fun b hb a ha => hcompared a ha b hb) patience
    exact ⟨_, patience', hmerge, arranges_merged hlt hfirst hsecond⟩
  · have hfirst' : InOrder (fun a b => lt b a) first.reverse := List.pairwise_reverse.mpr hfirst
    have hsecond' : InOrder (fun a b => lt b a) second.reverse := List.pairwise_reverse.mpr hsecond
    obtain ⟨patience', hmerge⟩ : ∃ patience',
        mergeApart (fun x y => below y x) .backward patience second.reverse first.reverse = some (_, patience') := by
      refine mergeApart_eq hlt.flip hsecond' hfirst' (fun a ha b hb => ?_) (fun b hb a ha => ?_)
        (fun a ha b hb => ?_) patience
      · rw [List.head?_reverse] at ha hb
        exact hlast a ha b (List.mem_of_mem_getLast? hb)
      · rw [List.getLast?_reverse] at hb
        exact hhead a (List.mem_reverse.mp ha) b hb
      · exact hcompared a (List.mem_reverse.mp ha) b (List.mem_reverse.mp hb)
    have harranges := arranges_merged hlt.flip hsecond' hfirst'
    rw [← List.reverse_append] at harranges
    exact ⟨_, patience', hmerge, harranges.reverse⟩

/-- The items of the first run that come before all of the second one, whose first item is `y`, are found. -/
theorem exists_settled_front (hlt : StrictWeak lt) (hfirst : InOrder lt first) {y : α}
    (hcompared : ∀ a ∈ first, below y a = some (lt y a)) :
    ∃ front inner, first = front ++ inner ∧ (∀ a ∈ front, lt y a = false) ∧ (∀ a ∈ inner, lt y a = true) ∧
      gallop .forward (fun a => (below y a).map not) first = some front.length := by
  obtain ⟨front, inner, hsplit, hfront, hinner, hgallop⟩ :=
    exists_gallop_eq .forward hfirst (hlt.not_lt_down y) fun a ha =>
      show (below y a).map not = some (!lt y a) by
        rw [hcompared a ha]
        rfl
  exact ⟨front, inner, hsplit, fun a ha => by simpa using hfront a ha, fun a ha => by simpa using hinner a ha, hgallop⟩

/-- So are those of the second run that come after all of the first one, whose last item is `x`. -/
theorem exists_settled_back (hlt : StrictWeak lt) (hsecond : InOrder lt second) {x : α}
    (hcompared : ∀ b ∈ second, below b x = some (lt b x)) :
    ∃ inner back, second = inner ++ back ∧ (∀ b ∈ inner, lt b x = true) ∧ (∀ b ∈ back, lt b x = false) ∧
      gallop .backward (fun b => (below b x).map not) second.reverse = some back.reverse.length := by
  have hreversed : InOrder (fun a b => lt b a) second.reverse := List.pairwise_reverse.mpr hsecond
  obtain ⟨back, inner, hsplit, hback, hinner, hgallop⟩ :=
    exists_gallop_eq .backward hreversed
      (fun {a b} hab hb => by
        rw [Bool.not_eq_true'] at hb ⊢
        exact hlt.trans hb hab) fun b hb =>
      show (below b x).map not = some (!lt b x) by
        rw [hcompared b (List.mem_reverse.mp hb)]
        rfl
  have hparts : second = inner.reverse ++ back.reverse := by
    rw [← List.reverse_append, ← hsplit, List.reverse_reverse]
  refine ⟨inner.reverse, back.reverse, hparts, fun b hb => ?_, fun b hb => ?_, by rw [hgallop, List.reverse_reverse]⟩
  · simpa using hinner b (List.mem_reverse.mp hb)
  · simpa using hback b (List.mem_reverse.mp hb)

/-- **A merge of two runs arranges their items.** -/
theorem arranges_mergeRuns (hlt : StrictWeak lt) (hfirst : InOrder lt first) (hsecond : InOrder lt second)
    (hcompared : ∀ a ∈ first, ∀ b ∈ second, below b a = some (lt b a)) (patience : Nat) :
    ∃ ys patience', mergeRuns below patience first second = some (ys, patience') ∧
      Arranges lt (first ++ second) ys := by
  cases second with
  | nil =>
    rw [List.append_nil]
    exact ⟨first, patience, rfl, .refl first, hfirst⟩
  | cons y rest =>
    -- what of the first run comes before all of the second one stays where it is
    obtain ⟨front, inner, rfl, hfront, habove, hgallop⟩ :=
      exists_settled_front hlt hfirst fun a ha => hcompared a ha y List.mem_cons_self
    have hinner : InOrder lt inner := (List.pairwise_append.mp hfirst).2.1
    have hcross : ∀ a ∈ front, ∀ b ∈ y :: rest, lt b a = false := by
      intro a ha b hb
      rcases List.mem_cons.mp hb with rfl | hb
      · exact hfront a ha
      · exact hlt.trans (hfront a ha) ((List.pairwise_cons.mp hsecond).1 b hb)
    rw [mergeRuns, hgallop]
    simp only [Option.bind_eq_bind, Option.bind_some, List.splitAt_eq, List.take_left, List.drop_left]
    cases hx : inner.getLast? with
    | none =>
      obtain rfl := List.getLast?_eq_none_iff.mp hx
      rw [List.append_nil] at hfirst ⊢
      exact ⟨_, _, rfl, .refl _, List.pairwise_append.mpr ⟨hfirst, hsecond, hcross⟩⟩
    | some x =>
      have hxmem : x ∈ inner := List.mem_of_mem_getLast? hx
      -- and so does what of the second run comes after all of the first one
      obtain ⟨inner', back, hsplit, hbelow, hback, hgallop'⟩ :=
        exists_settled_back hlt hsecond fun b hb => hcompared x (List.mem_append_right _ hxmem) b hb
      cases inner' with
      | nil =>
        -- the first item of the second run comes before the last one of the first run
        obtain rfl : y :: rest = back := hsplit
        have hyx := hback y List.mem_cons_self
        rw [habove x hxmem] at hyx
        cases hyx
      | cons z inner' =>
        obtain ⟨rfl, rfl⟩ : y = z ∧ rest = inner' ++ back := List.cons.inj hsplit
        rw [← List.cons_append] at hsecond hcross hcompared hgallop' ⊢
        have hmerges := arranges_mergeApart hlt hinner (List.pairwise_append.mp hsecond).1
          (fun a ha b hb => by
            obtain rfl : y = b := by simpa using hb
            exact habove a ha)
          (fun a ha b hb => by
            obtain rfl : x = a := by simpa [hx] using ha
            exact hbelow b hb)
          (fun a ha b hb => hcompared a (List.mem_append_right _ ha) b (List.mem_append_left _ hb)) patience
        have hbetween : ∀ {ys}, Arranges lt (inner ++ (y :: inner')) ys →
            Arranges lt ((front ++ inner) ++ ((y :: inner') ++ back)) (front ++ ys ++ back) := fun hys =>
          hys.between hfirst hsecond hcross fun a ha b hb =>
            hlt.trans (hinner.le_last hlt hx ha) (hback b hb)
        rw [List.reverse_append] at hgallop' ⊢
        simp only [hgallop', Option.bind_some, List.take_left, List.drop_left, List.isEmpty_reverse,
          List.isEmpty_cons, Bool.false_eq_true, if_false, List.reverse_reverse]
        split
        next =>
          obtain ⟨⟨ys, patience', hys, harranges⟩, _⟩ := hmerges
          rw [hys]
          exact ⟨_, _, rfl, hbetween harranges⟩
        next =>
          obtain ⟨_, ys, patience', hys, harranges⟩ := hmerges
          rw [hys]
          exact ⟨_, _, rfl, hbetween harranges⟩

end Petri.Sorting
