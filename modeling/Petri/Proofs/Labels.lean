import Petri.Datum.Collection
import Petri.Proofs.Sorting
import Petri.Proofs.Wording

/-!
# The order of labels

Collections without an order of their own are put in the order of their labels. All labels must be there for that:

> `sortByLabel_eq`: then the items come out in order, and those with one label as they went in;
> `sortByLabel_eq_error`: a value that cannot be written fails the whole.

There is one such list (`sortByLabel_eq_ok`). It is the same for every order in which the items may come if their labels
tell them apart (`sortByLabel_eq_of_perm`), and only then (`exists_perm_sortByLabel_ne`).
-/

namespace Petri

open Sorting

theorem String.strictWeak : StrictWeak fun s t : String => decide (s < t) where
  asymm {s t} h := by
    rw [decide_eq_true_iff] at h
    exact decide_eq_false (String.lt_asymm h)
  trans {s t u} hst htu := by
    rw [decide_eq_false_iff_not, String.not_lt] at hst htu ⊢
    exact String.le_trans hst htu

/-- In a list without repetitions, two items do not stand in both orders. -/
theorem not_pair_sublist_of_nodup {α : Type} {xs : List α} {x y : α} (h : xs.Nodup) (hxy : [x, y].Sublist xs) :
    ¬ [y, x].Sublist xs := by
  intro hyx
  obtain ⟨front, back, rfl, hx, hy⟩ := List.cons_sublist_iff.mp hxy
  rw [List.singleton_sublist] at hy
  have hapart := (List.nodup_append.mp h).2.2
  obtain ⟨first, second, hsplit, hfirst, hsecond⟩ := List.sublist_append_iff.mp hyx
  cases first with
  | nil =>
    obtain rfl : [y, x] = second := hsplit
    exact hapart x hx x (hsecond.subset (by simp)) rfl
  | cons z first =>
    obtain ⟨rfl, _⟩ := List.cons.inj hsplit
    exact hapart y (hfirst.subset List.mem_cons_self) y hy rfl

namespace Sorting

variable {α β : Type} {lt : β → β → Bool} {f : α → β} {xs ys : List α}

/-- What compares by a part of it compares like that part. -/
theorem StrictWeak.on (h : StrictWeak lt) (f : α → β) : StrictWeak fun a b => lt (f a) (f b) :=
  ⟨fun hab => h.asymm hab, fun hab hbc => h.trans hab hbc⟩

/-- Items that are put in order with something that they determine are put in order by it. -/
theorem Arranges.of_map {g : β → α} (hback : ∀ x, g (f x) = x) (h : Arranges lt (xs.map f) (ys.map f)) :
    Arranges (fun a b => lt (f a) (f b)) xs ys := by
  have hmap : ∀ zs : List α, (zs.map f).map g = zs := by
    intro zs
    rw [List.map_map]
    exact (List.map_congr_left fun x _ => hback x).trans (List.map_id zs)
  refine ⟨⟨?_, fun a => ?_⟩, List.pairwise_map.mp h.inOrder⟩
  · have hperm := h.perm.map g
    rwa [hmap, hmap] at hperm
  · have hties := congrArg (List.map g) (h.ties_eq (f a))
    rwa [List.filter_map, List.filter_map, hmap, hmap] at hties

/-- Two items that tie keep their order. -/
theorem Arranges.pair_sublist {lt : α → α → Bool} (hlt : StrictWeak lt) (h : Arranges lt xs ys) {x y : α}
    (htie : ties lt x y = true) (hpair : [x, y].Sublist xs) : [x, y].Sublist ys := by
  have hfilter := hpair.filter (ties lt x)
  rw [List.filter_cons_of_pos (ties_self hlt x), List.filter_cons_of_pos htie, List.filter_nil,
    ← h.ties_eq x] at hfilter
  exact hfilter.trans List.filter_sublist

end Sorting

namespace Datum

variable {xs ys zs : List Datum} {x y : Datum}

/-- Whether the label of the first value comes before that of the second. Values without a label are not compared. -/
def labelBelow (x y : Datum) : Bool :=
  decide (x.label?.getD "" < y.label?.getD "")

theorem strictWeak_labelBelow : StrictWeak labelBelow :=
  String.strictWeak.on fun x : Datum => x.label?.getD ""

/-- All labels are written before any two of them are compared. -/
theorem mapM_label_eq (h : ∀ x ∈ xs, x.Writable) :
    (xs.mapM fun x => do return (← x.label, x) : Except Fault (List (String × Datum)))
      = .ok (xs.map fun x => (x.label?.getD "", x)) := by
  rw [mapM_eq_ok, List.map_map]
  refine List.map_congr_left fun x hx => ?_
  obtain ⟨s, hs⟩ := Option.isSome_iff_exists.mp (isSome_label?_iff.mpr (h x hx))
  rw [label_eq_ok.mpr hs, ok_bind, Function.comp_apply, hs]
  rfl

/-- **Values that can be written are put in order of their labels, and those with one label stay as they were.** -/
theorem sortByLabel_eq (h : ∀ x ∈ xs, x.Writable) :
    ∃ ys, sortByLabel xs = .ok ys ∧ Arranges labelBelow xs ys := by
  let labelled (x : Datum) : String × Datum := (x.label?.getD "", x)
  have hin : ∀ e ∈ xs.map labelled, True := fun _ _ => trivial
  obtain ⟨pairs, hsort, hpairs⟩ := exists_sort_eq (String.strictWeak.on (Prod.fst : String × Datum → String))
    (S := fun _ => True) (fun _ _ _ _ => rfl) hin
  -- the pairs that come out are some of those that went in, so each of them holds the label of its item
  have hmap : pairs = (pairs.map (·.2)).map labelled := by
    rw [List.map_map]
    refine (List.map_id pairs).symm.trans (List.map_congr_left fun e he => ?_)
    obtain ⟨x, _, rfl⟩ := List.mem_map.mp (hpairs.perm.mem_iff.mp he)
    rfl
  refine ⟨pairs.map (·.2), ?_, ?_⟩
  · rw [sortByLabel, mapM_label_eq h, ok_bind, hsort]
    rfl
  · rw [hmap] at hpairs
    exact Arranges.of_map (f := labelled) (g := Prod.snd) (fun _ => rfl) hpairs

/-- Items that cannot all be written have no order. -/
theorem sortByLabel_eq_error (h : ¬ ∀ x ∈ xs, x.Writable) : sortByLabel xs = .error .noNumeral := by
  have hfails : ∃ x ∈ xs, ∀ e, (do return (← x.label, x) : Except Fault (String × Datum)) ≠ .ok e := by
    obtain ⟨x, hx, hno⟩ := exists_not_writable h
    refine ⟨x, hx, fun e => ?_⟩
    rw [label_of_not_writable hno]
    simp [bind, Except.bind]
  obtain ⟨x, _, e, hx, herror⟩ := mapM_eq_error hfails
  have he : e = .noNumeral := by
    by_cases hwritable : x.Writable
    · obtain ⟨s, hs⟩ := Option.isSome_iff_exists.mp (isSome_label?_iff.mpr hwritable)
      rw [label_eq_ok.mpr hs] at hx
      cases hx
    · rw [label_of_not_writable hwritable] at hx
      cases hx
      rfl
  rw [sortByLabel, herror, he]
  rfl

/-- Sorting by label succeeds exactly if all labels are there. -/
theorem sortByLabel_eq_ok : sortByLabel xs = .ok ys ↔ (∀ x ∈ xs, x.Writable) ∧ Arranges labelBelow xs ys := by
  constructor
  · intro h
    have hall : ∀ x ∈ xs, x.Writable := by
      refine Classical.byContradiction fun hno => ?_
      rw [sortByLabel_eq_error hno] at h
      cases h
    obtain ⟨zs, hzs, harranges⟩ := sortByLabel_eq hall
    rw [hzs] at h
    cases h
    exact ⟨hall, harranges⟩
  · intro h
    rcases h with ⟨hall, harranges⟩
    obtain ⟨zs, hzs, harranges'⟩ := sortByLabel_eq hall
    rw [hzs, harranges.unique strictWeak_labelBelow harranges']

theorem sortByLabel_perm (h : sortByLabel xs = .ok ys) : ys.Perm xs :=
  (sortByLabel_eq_ok.mp h).2.perm

/-- All values have labels, and these ascend. -/
def Ascending (xs : List Datum) : Prop :=
  ∃ labels : List String, xs.map label? = labels.map some ∧ labels.Pairwise (· ≤ ·)

theorem ascending_sortByLabel (h : sortByLabel xs = .ok ys) : Ascending ys := by
  obtain ⟨hwritable, harranges⟩ := sortByLabel_eq_ok.mp h
  refine ⟨ys.map fun y => y.label?.getD "", ?_, List.pairwise_map.mpr ?_⟩
  · rw [List.map_map]
    refine List.map_congr_left fun y hy => ?_
    obtain ⟨s, hs⟩ := Option.isSome_iff_exists.mp
      (isSome_label?_iff.mpr (hwritable y (harranges.perm.mem_iff.mp hy)))
    rw [Function.comp_apply, hs, Option.getD_some]
  · refine harranges.inOrder.imp fun {x y} hxy => ?_
    rw [labelBelow, decide_eq_false_iff_not] at hxy
    exact String.not_lt.mp hxy

/-- The order is one between the items themselves. -/
theorem Ascending.pairwise (h : Ascending xs) :
    xs.Pairwise fun x y => ∃ s t, x.label? = some s ∧ y.label? = some t ∧ s ≤ t := by
  obtain ⟨labels, hlabels, hascending⟩ := h
  have hpairs : (labels.map some).Pairwise fun a b : Option String => ∃ s t, a = some s ∧ b = some t ∧ s ≤ t :=
    List.pairwise_map.mpr (hascending.imp fun {s t} hle => ⟨s, t, rfl, rfl, hle⟩)
  rw [← hlabels] at hpairs
  exact List.pairwise_map.mp hpairs

/-- Items that their labels tell apart ascend in one order only. -/
theorem Ascending.eq_of_perm (hxs : Ascending xs) (hys : Ascending ys) (hperm : xs.Perm ys)
    (hlabels : ∀ x ∈ xs, ∀ y ∈ xs, x.label? = y.label? → x = y) : xs = ys := by
  refine List.Perm.eq_of_pairwise (fun x y hx hy hxy hyx => ?_) hxs.pairwise hys.pairwise hperm
  obtain ⟨s, t, hs, ht, hle⟩ := hxy
  obtain ⟨t', s', ht', hs', hge⟩ := hyx
  rw [hs] at hs'
  rw [ht] at ht'
  obtain rfl := Option.some.inj hs'
  obtain rfl := Option.some.inj ht'
  exact hlabels x hx y (hperm.mem_iff.mpr hy) (by rw [hs, ht, String.le_antisymm hle hge])

theorem ties_of_label_eq (h : x.label? = y.label?) : ties labelBelow x y = true := by
  have hself := ties_self strictWeak_labelBelow x
  unfold ties labelBelow at hself ⊢
  rwa [← h]

/-- Items that their labels tell apart have one order. -/
theorem sortByLabel_eq_of_perm (hperm : xs.Perm ys) (hwritable : ∀ x ∈ xs, x.Writable)
    (hlabels : ∀ x ∈ xs, ∀ y ∈ xs, x.label? = y.label? → x = y) : sortByLabel xs = sortByLabel ys := by
  obtain ⟨zs, hzs, harranges⟩ := sortByLabel_eq hwritable
  have hwritable' : ∀ y ∈ ys, y.Writable := fun y hy => hwritable y (hperm.mem_iff.mpr hy)
  obtain ⟨zs', hzs', harranges'⟩ := sortByLabel_eq hwritable'
  have hboth : zs.Perm zs' := harranges.perm.trans (hperm.trans harranges'.perm.symm)
  rw [hzs, hzs', (ascending_sortByLabel hzs).eq_of_perm (ascending_sortByLabel hzs') hboth]
  intro x hx y hy hlabel
  exact hlabels x (harranges.perm.mem_iff.mp hx) y (harranges.perm.mem_iff.mp hy) hlabel

/-- Two different items with one label come out in the order in which they are put in. -/
theorem exists_perm_sortByLabel_ne (hwritable : ∀ x ∈ xs, x.Writable) (hnodup : xs.Nodup) (hx : x ∈ xs) (hy : y ∈ xs)
    (hne : x ≠ y) (hlabel : x.label? = y.label?) :
    ∃ ys zs, ys.Perm xs ∧ zs.Perm xs ∧ sortByLabel ys ≠ sortByLabel zs := by
  obtain ⟨before, after, rfl⟩ := List.append_of_mem hx
  have hmiddle : (before ++ x :: after).Perm (x :: (before ++ after)) := List.perm_middle
  have hy' : y ∈ before ++ after := (List.mem_cons.mp (hmiddle.mem_iff.mp hy)).resolve_left hne.symm
  obtain ⟨before', after', hrest⟩ := List.append_of_mem hy'
  have hboth : (before ++ x :: after).Perm (x :: y :: (before' ++ after')) := by
    refine hmiddle.trans (List.Perm.cons x ?_)
    rw [hrest]
    exact List.perm_middle
  have hswapped : (before ++ x :: after).Perm (y :: x :: (before' ++ after')) := hboth.trans (List.Perm.swap y x _)
  refine ⟨_, _, hboth.symm, hswapped.symm, fun hsame => ?_⟩
  obtain ⟨zs, hzs, hxy⟩ := sortByLabel_eq fun z hz => hwritable z (hboth.mem_iff.mpr hz)
  obtain ⟨zs', hzs', hyx⟩ := sortByLabel_eq fun z hz => hwritable z (hswapped.mem_iff.mpr hz)
  rw [hzs, hzs'] at hsame
  obtain rfl := Except.ok.inj hsame
  have hnodup' : zs.Nodup := (hxy.perm.trans hboth.symm).nodup_iff.mpr hnodup
  exact not_pair_sublist_of_nodup hnodup'
    (hxy.pair_sublist strictWeak_labelBelow (ties_of_label_eq hlabel) (by simp))
    (hyx.pair_sublist strictWeak_labelBelow (ties_of_label_eq hlabel.symm) (by simp))

end Datum

end Petri
