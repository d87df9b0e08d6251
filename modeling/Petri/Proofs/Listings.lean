import Mathlib.Data.List.Induction
import Petri.Datum.Collection
import Petri.Proofs.Outcomes
import Petri.Proofs.Sameness

/-!
# What sets list

The order in which a set lists its members is that of a slot table, and it depends on their codes and on what was put
in before. Which members there are depends on neither, only on what was put in (`Fills`): of values that are the same,
the first.

> `perm_listing`, `perm_mergedListing`: a set that is filled item by item, or set by set, lists the items without their
> repetitions;
> `perm_union`, `perm_difference`: so do unions and differences, whatever kinds of collections they are made from;
> `perm_copyListing`: a copy lists what the original lists.
-/

namespace Petri

/-- Of a list that comes after another one, what is found there is left out. -/
theorem eraseDups_append {α : Type} [BEq α] [PartialEquivBEq α] (xs ys : List α) :
    (xs ++ ys).eraseDups = xs.eraseDups ++ ys.eraseDups.filter fun y => !xs.any (· == y) := by
  induction ys using List.reverseRecOn with
  | nil => simp
  | append_singleton ys y ih =>
    rw [← List.append_assoc, eraseDups_concat, eraseDups_concat, List.any_append, ih]
    cases hys : ys.any (· == y) with
    | true => simp
    | false =>
      cases hxs : xs.any (· == y) with
      | true => simp [List.filter_append, hxs]
      | false => simp [List.filter_append, hxs]

namespace SlotTable

variable {α : Type} [BEq α] {t u : SlotTable α} {xs ys : List α}

/-- The table holds the items that were put in, each once. -/
def Fills (t : SlotTable α) (xs : List α) : Prop :=
  t.toList.Perm xs.eraseDups

theorem fills_nil (size : Nat) : Fills (⟨size, []⟩ : SlotTable α) [] :=
  .refl _

theorem Fills.resize (h : Fills t xs) (bound : Nat) : Fills (t.resize bound) xs :=
  (perm_toList_resize t bound).trans h

variable [EquivBEq α]

theorem Fills.insert (h : Fills t xs) (code : UInt64) (x : α) : Fills (t.insert code x) (xs ++ [x]) := by
  have hfound : t.toList.any (· == x) = xs.any (· == x) := (List.Perm.any_eq h).trans (any_eraseDups x xs)
  unfold Fills
  rw [eraseDups_concat, ← hfound]
  split
  next hold => rwa [toList_insert_of_mem code hold]
  next hfresh =>
    exact (perm_toList_insert code hfresh).trans
      ((List.Perm.cons x h).trans (List.perm_append_singleton x _).symm)

theorem Fills.insertAll (h : Fills t xs) (slots : List (Slot α)) :
    Fills (slots.foldl (fun t s => t.insert s.code s.item) t) (xs ++ slots.map (·.item)) := by
  induction slots generalizing t xs with
  | nil => rwa [List.map_nil, List.append_nil]
  | cons s slots ih =>
    rw [List.map_cons, List.append_cons]
    exact ih (h.insert s.code s.item)

/-- What a table holds may be put in instead of what was put into it. -/
theorem Fills.trans (h : Fills t (xs ++ u.toList)) (hu : Fills u ys) : Fills t (xs ++ ys) := by
  have hdistinct : Distinct u.toList := (distinct_eraseDups ys).perm hu.symm
  refine List.Perm.trans h ?_
  rw [eraseDups_append, eraseDups_append, hdistinct.eraseDups_eq]
  exact (hu.filter _).append_left _

theorem Fills.merge (h : Fills t xs) (hu : Fills u ys) : Fills (t.merge u) (xs ++ ys) := by
  unfold SlotTable.merge
  split
  next hempty =>
    have hnone : u.toList = [] := by
      rw [toList, List.isEmpty_iff.mp hempty, List.map_nil]
    refine Fills.trans ?_ hu
    rwa [hnone, List.append_nil]
  next =>
    -- a table that grows first holds the same
    extract_lets n grown
    have hgrown : Fills grown xs := by
      unfold grown
      split
      · exact h.resize _
      · exact h
    split
    next hsame =>
      have hnone : grown.toList = [] := by
        rw [toList, List.isEmpty_iff.mp (Bool.and_eq_true_iff.mp hsame).1, List.map_nil]
      have hxs : xs.eraseDups = [] := by
        rw [Fills, hnone] at hgrown
        exact hgrown.nil_eq.symm
      have hnil : xs = [] := by
        cases xs with
        | nil => rfl
        | cons x xs => simp [List.eraseDups_cons] at hxs
      rwa [hnil]
    next => exact (hgrown.insertAll u.taken).trans hu

end SlotTable

namespace Datum

open SlotTable (Fills fills_nil)

variable {items members xs ys zs : List Datum} {sets : List (List Datum)} {a b : Datum} {t : SlotTable Datum}

theorem fills_slots? (h : slots? items = some t) : Fills t items := by
  have hfold : ∀ (items xs : List Datum) (u : SlotTable Datum), Fills u xs →
      items.foldlM (fun t x => x.meaning.code?.map (t.insert · x)) u = some t → Fills t (xs ++ items) := by
    intro items
    induction items with
    | nil =>
      intro xs u hu h
      rw [List.foldlM_nil] at h
      obtain rfl := Option.some.inj h
      rwa [List.append_nil]
    | cons x items ih =>
      intro xs u hu h
      rw [List.foldlM_cons] at h
      obtain ⟨v, hv, h⟩ := Option.bind_eq_some_iff.mp h
      obtain ⟨code, _, rfl⟩ := Option.map_eq_some_iff.mp hv
      rw [List.append_cons]
      exact ih _ _ (hu.insert code x) h
  exact hfold items [] {} (fills_nil 8) h

/-- **A set lists what was put into it.** -/
theorem perm_listing (items : List Datum) : (listing items).Perm items.eraseDups := by
  unfold listing
  split
  next t h => exact fills_slots? h
  next => exact .refl _

theorem perm_mergedListing (sets : List (List Datum)) : (mergedListing sets).Perm sets.flatten.eraseDups := by
  have hfold : ∀ (sets : List (List Datum)) (tables : List (SlotTable Datum)), sets.mapM slots? = some tables →
      ∀ (xs : List Datum) (u : SlotTable Datum), Fills u xs →
        Fills (tables.foldl SlotTable.merge u) (xs ++ sets.flatten) := by
    intro sets
    induction sets with
    | nil =>
      intro tables h xs u hu
      obtain rfl : [] = tables := by simpa using h
      simpa using hu
    | cons items sets ih =>
      intro tables h xs u hu
      rw [List.mapM_cons] at h
      obtain ⟨t, ht, h⟩ := Option.bind_eq_some_iff.mp h
      obtain ⟨rest, hrest, h⟩ := Option.bind_eq_some_iff.mp h
      obtain rfl := Option.some.inj h
      rw [List.flatten_cons, ← List.append_assoc]
      exact ih rest hrest _ _ (hu.merge (fills_slots? ht))
  unfold mergedListing
  split
  next tables h => exact hfold sets tables h [] {} (fills_nil 8)
  next => exact .refl _

theorem perm_copyListing (h : Distinct members) : (copyListing members).Perm members := by
  unfold copyListing
  split
  · have hmerged := perm_mergedListing [members]
    rwa [List.flatten_cons, List.flatten_nil, List.append_nil, h.eraseDups_eq] at hmerged
  · exact .refl _

/-! ## Sets made from two collections -/

theorem fills_setSlots? (h : a.setSlots? xs = some t) : Fills t xs := by
  unfold setSlots? at h
  split at h
  case h_3 => exact fills_slots? h
  all_goals
    obtain ⟨u, hu, rfl⟩ := Option.map_eq_some_iff.mp h
    exact (fills_nil 8).merge (fills_slots? hu)

theorem perm_union (ha : a.members = .ok xs) (hb : b.members = .ok ys) :
    ∃ zs, a.union b = .ok zs ∧ zs.Perm (xs ++ ys).eraseDups := by
  rw [union, ha, hb, ok_bind, ok_bind]
  split
  next t u ht hu =>
    exact ⟨_, rfl, ((fills_nil 8).merge (fills_setSlots? ht)).merge (fills_setSlots? hu)⟩
  next => exact ⟨_, rfl, .refl _⟩

theorem distinct_members (h : a.members = .ok xs) : Distinct xs := by
  obtain ⟨items, _, h⟩ := bind_eq_ok.mp h
  split at h
  next =>
    obtain rfl := Except.ok.inj h
    exact distinct_eraseDups items
  next => cases h

theorem perm_difference (ha : a.members = .ok xs) (hb : b.members = .ok ys) :
    ∃ zs, a.difference b = .ok zs ∧ zs.Perm (xs.filter fun x => !ys.any (· == x)) := by
  have hxs := distinct_members ha
  have hlisted : (((a.setSlots? xs).map SlotTable.toList).getD xs).Perm xs := by
    cases ht : a.setSlots? xs with
    | none => exact .refl _
    | some t => exact hxs.eraseDups_eq ▸ fills_setSlots? ht
  rw [difference, ha, hb, ok_bind, ok_bind]
  refine ⟨_, rfl, (perm_listing _).trans ?_⟩
  rw [Distinct.eraseDups_eq ((hxs.perm hlisted.symm).sublist List.filter_sublist)]
  exact hlisted.filter _

end Datum

end Petri
