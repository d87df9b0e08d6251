import Mathlib.Data.List.Induction
import Petri.Proofs.Construction
import Petri.Proofs.Labels
import Petri.Proofs.Sameness

/-!
# The stages of building

A net is built in stages, and each of them looks for one kind of fault. This file says of every stage when it
lets a description through, and that it otherwise refuses what is given for a reason of its own class:

> `Domain.checkDistinct_eq_error`, `checkDisjoint_eq_ok`: identifiers that are declared twice;
> `checkArcs_eq_ok`: arcs that repeat another one;
> `checkDeclared_eq_ok`: arcs that name what is not declared, although they are looked at transition by
> transition;
> `checkLabels_eq_ok`: labels that are no words.

The order in which a stage looks at its items decides which fault is reported, never whether there is one.
-/

namespace Petri

/-! ## Domains -/

namespace Domain

variable {kind : String} {xs seen : List Datum}

/-- Among identifiers that can be keys only one that repeats an earlier one is refused, and the first such identifier
is named. -/
theorem checkDistinct_eq_error (hhash : ∀ x ∈ xs, x.hashable = true) (h : checkDistinct kind seen xs ≠ .ok ()) :
    ∃ before x after, xs = before ++ x :: after ∧ checkDistinct kind seen before = .ok () ∧
      (before.reverse ++ seen).any (· == x) = true ∧
      checkDistinct kind seen xs = (Fault.repeatedIdentifier kind x).raise := by
  induction xs generalizing seen with
  | nil => exact absurd rfl h
  | cons x xs ih =>
    have hx := hhash x List.mem_cons_self
    have hcheck : ∀ rest, checkDistinct kind seen (x :: rest)
        = if seen.any (· == x) then (Fault.repeatedIdentifier kind x).raise
          else checkDistinct kind (x :: seen) rest := by
      intro rest
      rw [checkDistinct, Datum.requireSearchable_of_hashable hx, Datum.requireHashable_eq_ok.mpr hx]
      split
      next => exact Fault.raise_bind _ _
      next => rfl
    rw [hcheck] at h ⊢
    split
    next hseen => exact ⟨[], x, xs, rfl, rfl, hseen, rfl⟩
    next hnew =>
      rw [if_neg hnew] at h
      obtain ⟨before, y, after, rfl, hbefore, hy, herror⟩ := ih (fun y hy => hhash y (List.mem_cons_of_mem _ hy)) h
      refine ⟨x :: before, y, after, rfl, ?_, ?_, herror⟩
      · rw [hcheck, if_neg hnew]
        exact hbefore
      · rw [List.reverse_cons, List.append_assoc]
        exact hy

theorem checkDistinct_refused (hhash : ∀ x ∈ xs, x.hashable = true)
    (h : checkDistinct kind seen xs ≠ .ok ()) : Refused (checkDistinct kind seen xs) .domain (· ∈ xs) := by
  obtain ⟨before, x, after, rfl, _, _, herror⟩ := checkDistinct_eq_error hhash h
  rw [herror]
  exact Fault.refused rfl (by simp [Fault.shown])

theorem normalize_eq {declared : Datum} (hseq : sequence declared = .ok xs) :
    normalize declared kind = (checkDistinct kind [] xs >>= fun _ => .ok xs) := by
  rw [normalize, hseq]
  rfl

/-- Identifiers that are declared once each are kept in their order. -/
theorem normalize_distinct {declared : Datum} (hseq : sequence declared = .ok xs)
    (hhash : ∀ x ∈ xs, x.hashable = true) (hdistinct : Distinct xs) :
    normalize declared kind = .ok xs := by
  have hcheck := (checkDistinct_eq_ok kind xs []).mpr ⟨fun x hx => ⟨hhash x hx, by simp⟩, hdistinct⟩
  rw [normalize_eq hseq, hcheck, ok_bind]

theorem normalize_refused {declared : Datum} (hseq : sequence declared = .ok xs)
    (hhash : ∀ x ∈ xs, x.hashable = true) (h : ¬ Distinct xs) :
    Refused (normalize declared kind) .domain (· ∈ xs) := by
  rw [normalize_eq hseq]
  refine Refused.bind (checkDistinct_refused hhash fun hok => h ?_) _
  exact ((checkDistinct_eq_ok kind xs []).mp hok).2

end Domain

/-! ## Arcs -/

namespace Arc

theorem parallel_iff {a b : Arc} : a.parallel b = true ↔
    a.direction = b.direction ∧ (a.transition == b.transition) = true ∧ (a.place == b.place) = true := by
  rw [parallel, Bool.and_eq_true, Bool.and_eq_true, beq_iff_eq, and_assoc]

theorem parallel_comm (a b : Arc) : a.parallel b = b.parallel a := by
  have hsymm : ∀ a b : Arc, a.parallel b = true → b.parallel a = true := by
    intro a b h
    obtain ⟨hd, ht, hp⟩ := parallel_iff.mp h
    exact parallel_iff.mpr ⟨hd.symm, BEq.symm ht, BEq.symm hp⟩
  exact Bool.eq_iff_iff.mpr ⟨hsymm a b, hsymm b a⟩

/-- Both ends of the arc are declared, in whatever spelling. -/
def Declared (places transitions : List Datum) (a : Arc) : Prop :=
  places.any (· == a.place) = true ∧ transitions.any (· == a.transition) = true

instance (places transitions : List Datum) (a : Arc) : Decidable (a.Declared places transitions) :=
  inferInstanceAs (Decidable (_ ∧ _))

end Arc

namespace Net

variable {places transitions : List Datum} {arcs seen : List Arc}

/-- No two positions hold arcs of one direction between the same place and transition. -/
def NoneParallel (arcs : List Arc) : Prop :=
  arcs.Pairwise fun a b => a.parallel b = false

instance (arcs : List Arc) : Decidable (NoneParallel arcs) :=
  inferInstanceAs (Decidable (arcs.Pairwise fun a b => a.parallel b = false))

/-- The shorter domain is gone through and the longer one is searched, which makes no difference to what is shared. -/
theorem shared_eq (places transitions : List Datum) :
    ∃ both : List Datum, Domain.shared places transitions = Datum.sortByLabel both ∧
      (∀ x ∈ both, x ∈ places ++ transitions) ∧
      (both = [] ↔ ∀ p ∈ places, ∀ t ∈ transitions, (p == t) = false) := by
  have hnone : ∀ few many : List Datum, few.filter (fun x => many.any (· == x)) = [] ↔
      ∀ x ∈ few, ∀ y ∈ many, (y == x) = false := by
    intro few many
    rw [List.filter_eq_nil_iff]
    refine forall₂_congr fun x _ => ?_
    simp
  by_cases hshorter : places.length < transitions.length
  · refine ⟨places.filter fun x => transitions.any (· == x), ?_, fun x hx => ?_, ?_⟩
    · simp only [Domain.shared, hshorter, if_true]
    · exact List.mem_append_left _ (List.mem_filter.mp hx).1
    · rw [hnone]
      simp only [BEq.comm]
  · refine ⟨transitions.filter fun x => places.any (· == x), ?_, fun x hx => ?_, ?_⟩
    · simp only [Domain.shared, hshorter, if_false]
    · exact List.mem_append_right _ (List.mem_filter.mp hx).1
    · rw [hnone]
      exact ⟨fun h p hp t ht => h t ht p hp, fun h t ht p hp => h p hp t ht⟩

theorem checkDisjoint_eq_ok : checkDisjoint places transitions = .ok () ↔
    ∀ p ∈ places, ∀ t ∈ transitions, (p == t) = false := by
  obtain ⟨both, hshared, _, hempty⟩ := shared_eq places transitions
  rw [checkDisjoint, hshared, ← hempty]
  constructor
  · intro h
    obtain ⟨shared, hsorted, h⟩ := bind_eq_ok.mp h
    have hperm := Datum.sortByLabel_perm (liftM_eq_ok.mp hsorted)
    split at h
    next hnil => exact List.perm_nil.mp (List.isEmpty_iff.mp hnil ▸ hperm.symm)
    next => exact absurd h (Fault.raise_ne_ok _ _)
  · intro h
    subst h
    have hsorted : Datum.sortByLabel [] = .ok [] := Datum.sortByLabel_eq_ok.mpr ⟨by simp, ⟨.refl _, .nil⟩⟩
    rw [hsorted]
    rfl

theorem checkDisjoint_refused (h : checkDisjoint places transitions ≠ .ok ()) :
    Refused (checkDisjoint places transitions) .domain (· ∈ places ++ transitions) := by
  obtain ⟨both, hshared, hgiven, _⟩ := shared_eq places transitions
  rw [checkDisjoint, hshared] at h ⊢
  by_cases hwritable : ∀ x ∈ both, x.Writable
  · obtain ⟨shared, hsorted, harranges⟩ := Datum.sortByLabel_eq hwritable
    rw [hsorted, liftM_ok, ok_bind] at h ⊢
    split
    next hempty => exact absurd (if_pos hempty) h
    next => exact Fault.refused rfl fun x hx => hgiven x (harranges.perm.mem_iff.mp hx)
  · -- the names cannot even be put in order
    rw [Datum.sortByLabel_eq_error hwritable]
    exact ⟨.sharedIdentifiers both, rfl, hgiven, fun hworded => absurd hworded hwritable, fun _ => rfl⟩

theorem checkArcs_cons (seen : List Arc) {a : Arc} (arcs : List Arc) (ha : a.hashable = true) :
    checkArcs seen (a :: arcs)
      = if seen.any a.parallel then (Fault.duplicateArc a.direction a.place a.transition).raise
        else checkArcs (a :: seen) arcs := by
  rw [checkArcs, ha]
  rfl

theorem checkArcs_of_seen (hhash : ∀ a ∈ arcs, a.hashable = true) :
    checkArcs seen arcs = .ok () ↔
      (∀ a ∈ arcs, ∀ b ∈ seen, a.parallel b = false) ∧ NoneParallel arcs := by
  induction arcs generalizing seen with
  | nil => simp [checkArcs, NoneParallel]
  | cons a arcs ih =>
    have hrest : ∀ b ∈ arcs, b.hashable = true := fun b hb => hhash b (List.mem_cons_of_mem _ hb)
    have hany : (∀ b ∈ seen, a.parallel b = false) ↔ ¬ seen.any a.parallel = true := by simp
    rw [checkArcs_cons seen arcs (hhash a List.mem_cons_self), NoneParallel, List.pairwise_cons,
      List.forall_mem_cons, hany]
    constructor
    · intro h
      split at h
      next => exact absurd h (Fault.raise_ne_ok _ _)
      next hnew =>
        obtain ⟨hseen, hpair⟩ := (ih hrest).mp h
        refine ⟨⟨hnew, fun b hb c hc => hseen b hb c (List.mem_cons_of_mem _ hc)⟩,
          fun b hb => ?_, hpair⟩
        rw [Arc.parallel_comm]
        exact hseen b hb a List.mem_cons_self
    · intro h
      rcases h with ⟨⟨hnew, hseen⟩, hfirst, hpair⟩
      rw [if_neg hnew]
      refine (ih hrest).mpr ⟨fun b hb c hc => ?_, hpair⟩
      rcases List.mem_cons.mp hc with rfl | hc
      · rw [Arc.parallel_comm]
        exact hfirst b hb
      · exact hseen b hb c hc

/-- Arcs that pass have ends that can be identifiers. -/
theorem hashable_of_checkArcs (h : checkArcs seen arcs = .ok ()) : ∀ a ∈ arcs, a.hashable = true := by
  induction arcs generalizing seen with
  | nil => simp
  | cons a arcs ih =>
    rw [checkArcs] at h
    split at h
    next => cases h
    next hhash =>
      split at h
      next => exact absurd h (Fault.raise_ne_ok _ _)
      next => exact List.forall_mem_cons.mpr ⟨by simpa using hhash, ih h⟩

theorem checkArcs_eq_ok (hhash : ∀ a ∈ arcs, a.hashable = true) :
    checkArcs [] arcs = .ok () ↔ NoneParallel arcs := by
  rw [checkArcs_of_seen hhash]
  simp

theorem checkArcs_refused (hhash : ∀ a ∈ arcs, a.hashable = true) (h : checkArcs seen arcs ≠ .ok ()) :
    Refused (checkArcs seen arcs) .duplicateArc fun x => ∃ a ∈ arcs, x = a.place ∨ x = a.transition := by
  induction arcs generalizing seen with
  | nil => exact absurd rfl h
  | cons a arcs ih =>
    rw [checkArcs_cons seen arcs (hhash a List.mem_cons_self)] at h ⊢
    split
    next => exact Fault.refused rfl (by simp [Fault.shown])
    next hnew =>
      rw [if_neg hnew] at h
      refine (ih (fun b hb => hhash b (List.mem_cons_of_mem _ hb)) h).mono fun x hx => ?_
      obtain ⟨b, hb, hx⟩ := hx
      exact ⟨b, List.mem_cons_of_mem _ hb, hx⟩

/-! ## Declared names -/

/-- A group of arcs under the name of a transition passes if the name and all places are declared. -/
def GroupDeclared (places transitions : List Datum) (e : Datum × List Arc) : Prop :=
  transitions.any (· == e.1) = true ∧ ∀ a ∈ e.2, places.any (· == a.place) = true

/-- With an arc put into its group, all groups pass if they did before and the arc is declared. -/
theorem groups_upsert (a : Arc) (es : List (Datum × List Arc)) :
    (∀ e ∈ Table.upsertEntries a.transition [a] (· ++ [a]) es, GroupDeclared places transitions e) ↔
      (∀ e ∈ es, GroupDeclared places transitions e) ∧ a.Declared places transitions := by
  induction es with
  | nil =>
    simp [Table.upsertEntries, GroupDeclared, Arc.Declared, and_comm]
  | cons e es ih =>
    obtain ⟨t, group⟩ := e
    rw [Table.upsertEntries]
    split
    next hsame =>
      -- the name of the group and that of the arc are declared together
      have hname : transitions.any (· == t) = transitions.any (· == a.transition) :=
        any_beq_congr hsame
      rw [List.forall_mem_cons, List.forall_mem_cons, GroupDeclared, GroupDeclared, Arc.Declared,
        List.forall_mem_append, ← hname]
      constructor
      · intro h
        rcases h with ⟨⟨ht, hgroup, hp⟩, hrest⟩
        exact ⟨⟨⟨ht, hgroup⟩, hrest⟩, hp a List.mem_cons_self, ht⟩
      · intro h
        rcases h with ⟨⟨⟨ht, hgroup⟩, hrest⟩, hp, _⟩
        refine ⟨⟨ht, hgroup, fun b hb => ?_⟩, hrest⟩
        rw [List.mem_singleton.mp hb]
        exact hp
    next =>
      rw [List.forall_mem_cons, List.forall_mem_cons, ih, and_assoc]

theorem groups_declared_iff (places transitions : List Datum) (t : Table Datum (List Arc))
    (arcs : List Arc) :
    (∀ e ∈ (arcs.foldl (fun t a => t.upsert a.transition [a] (· ++ [a])) t).entries,
        GroupDeclared places transitions e) ↔
      (∀ e ∈ t.entries, GroupDeclared places transitions e) ∧
        ∀ a ∈ arcs, a.Declared places transitions := by
  induction arcs generalizing t with
  | nil => simp
  | cons a arcs ih =>
    rw [List.foldl_cons, ih, List.forall_mem_cons, ← and_assoc]
    exact and_congr_left fun _ => groups_upsert a t.entries

/-- The arcs of a direction have no undeclared name exactly if all of them are declared. -/
theorem undeclared?_eq_none {d : Direction} : undeclared? places transitions d arcs = none ↔
    ∀ a ∈ arcs, a.direction = d → a.Declared places transitions := by
  have hgroup : ∀ e : Datum × List Arc,
      (if !transitions.any (· == e.1) then some (Fault.undeclaredArcTransition d e.1)
        else (e.2.find? fun a => !places.any (· == a.place)).map fun a => .undeclaredArcPlace d a.place)
          = none ↔ GroupDeclared places transitions e := by
    intro e
    rw [GroupDeclared]
    split
    next h => simp_all
    next h => simp_all
  have hgroups := groups_declared_iff places transitions ⟨[]⟩ (arcs.filter (·.direction == d))
  rw [undeclared?, List.findSome?_eq_none_iff]
  refine (forall₂_congr fun e _ => hgroup e).trans (hgroups.trans ?_)
  simp [and_imp]

/-- The groups hold arcs that are given, under names that are given. -/
theorem mem_groupByTransition {e : Datum × List Arc} (h : e ∈ (groupByTransition arcs).entries) :
    (∃ a ∈ arcs, e.1 = a.transition) ∧ ∀ a ∈ e.2, a ∈ arcs := by
  induction arcs using List.reverseRecOn generalizing e with
  | nil => simp [groupByTransition] at h
  | append_singleton arcs a ih =>
    have hlater : ∀ {e}, e ∈ (groupByTransition arcs).entries →
        (∃ b ∈ arcs ++ [a], e.1 = b.transition) ∧ ∀ b ∈ e.2, b ∈ arcs ++ [a] := by
      intro e he
      obtain ⟨⟨b, hb, hname⟩, hgroup⟩ := ih he
      exact ⟨⟨b, List.mem_append_left _ hb, hname⟩, fun c hc => List.mem_append_left _ (hgroup c hc)⟩
    rw [groupByTransition, List.foldl_append, List.foldl_cons, List.foldl_nil] at h
    rcases Table.mem_upsertEntries h with rfl | h | ⟨f, hf, _, rfl⟩
    · exact ⟨⟨a, by simp, rfl⟩, by simp⟩
    · exact hlater h
    · refine ⟨(hlater hf).1, fun b hb => ?_⟩
      rcases List.mem_append.mp hb with hb | hb
      · exact (hlater hf).2 b hb
      · exact List.mem_append_right _ hb

/-- What is reported as undeclared is the name of an end of an arc. -/
theorem undeclared?_names {d : Direction} {fault : Fault} (h : undeclared? places transitions d arcs = some fault) :
    fault.class? = some .undeclaredEntity ∧ ∀ x ∈ fault.shown, ∃ a ∈ arcs, x = a.place ∨ x = a.transition := by
  rw [undeclared?] at h
  obtain ⟨⟨t, group⟩, hmem, he⟩ := List.exists_of_findSome?_eq_some h
  obtain ⟨⟨b, hb, hname⟩, hgroup⟩ := mem_groupByTransition hmem
  simp only at he
  split at he
  next =>
    obtain rfl := Option.some.inj he
    refine ⟨rfl, fun x hx => ⟨b, (List.mem_filter.mp hb).1, .inr ?_⟩⟩
    rw [List.mem_singleton.mp hx, ← hname]
  next =>
    obtain ⟨a, ha, rfl⟩ := Option.map_eq_some_iff.mp he
    have hgiven := (List.mem_filter.mp (hgroup a (List.mem_of_find?_eq_some ha))).1
    exact ⟨rfl, fun x hx => ⟨a, hgiven, .inl (List.mem_singleton.mp hx)⟩⟩

theorem checkDeclared_eq_ok : checkDeclared places transitions arcs = .ok () ↔
    ∀ a ∈ arcs, a.Declared places transitions := by
  have hboth : (undeclared? places transitions .pre arcs <|> undeclared? places transitions .post arcs)
      = none ↔ ∀ a ∈ arcs, a.Declared places transitions := by
    rw [Option.orElse_eq_orElse, Option.orElse_eq_or, Option.or_eq_none_iff, undeclared?_eq_none,
      undeclared?_eq_none]
    constructor
    · intro h a ha
      cases hd : a.direction with
      | pre => exact h.1 a ha hd
      | post => exact h.2 a ha hd
    · exact fun h => ⟨fun a ha _ => h a ha, fun a ha _ => h a ha⟩
  rw [← hboth, checkDeclared]
  split
  next fault hfault => simp only [hfault, reduceCtorEq, Fault.raise_ne_ok]
  next hnone => simp only [hnone]

theorem checkDeclared_refused (h : checkDeclared places transitions arcs ≠ .ok ()) :
    Refused (checkDeclared places transitions arcs) .undeclaredEntity
      fun x => ∃ a ∈ arcs, x = a.place ∨ x = a.transition := by
  rw [checkDeclared] at h ⊢
  split
  next fault hfault =>
    rcases Option.or_eq_some_iff.mp (by simpa using hfault) with hpre | ⟨_, hpost⟩
    · exact Fault.refused (undeclared?_names hpre).1 (undeclared?_names hpre).2
    · exact Fault.refused (undeclared?_names hpost).1 (undeclared?_names hpost).2
  next hnone => simp [hnone] at h

/-! ## Labels -/

theorem checkLabels_eq_ok : checkLabels arcs = .ok () ↔ ∀ a ∈ arcs, (a.label : Int) ≤ mostTokens := by
  have hfit : ∀ a : Arc, Datum.fitsWord a.label = true ↔ (a.label : Int) ≤ mostTokens := by
    intro a
    rw [fitsWord_iff]
    exact ⟨fun h => h.2, fun h => ⟨by omega, h⟩⟩
  rw [checkLabels]
  split
  next h => simpa [hfit] using h
  next h => simpa [hfit] using h

theorem checkLabels_eq_error (h : checkLabels arcs ≠ .ok ()) :
    checkLabels arcs = .error (.value .tooLarge) := by
  rw [checkLabels] at h ⊢
  split
  next hall => exact absurd (if_pos hall) h
  next => rfl

end Net

end Petri
