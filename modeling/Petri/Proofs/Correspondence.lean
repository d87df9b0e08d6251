import Mathlib.Logic.Relator
import Petri.Proofs.Arcs
import Petri.Proofs.Mappings
import Petri.Proofs.Successors

/-!
# Nets that correspond

Two nets may have the same places and transitions with the same weights and still differ: in the positions of
the places and transitions, and in the capacities. What this leaves the same is told here for all such nets at
once. A relation says which positions of the two nets stand for each other (`Net.Corresponds`), and markings
match if they hold the same number of tokens at these (`Net.Matches`).

> `Corresponds.fires`, `Corresponds.reverts`: where the second net has at least as much room, a step of the
> first one is a step of the second one, between markings that match;
> `Corresponds.run_fires`, `Corresponds.run_reverts`: so are sequences of them;
> `Corresponds.marking`, `Corresponds.successors`, `Corresponds.revertAll`, `Corresponds.revertSet`: and it
> accepts the same mappings and finds the same markings under all transitions.

Capacities are all that makes a difference: whether a transition has its tokens is the same in both nets.
-/

namespace Petri

/-! ## Related outcomes -/

/-- Both operations end with the same fault, or with results that are related. -/
inductive SameOutcome {α β : Type} (R : α → β → Prop) : Except Fault α → Except Fault β → Prop
  | ok {a : α} {b : β} : R a b → SameOutcome R (.ok a) (.ok b)
  | error (fault : Fault) : SameOutcome R (.error fault) (.error fault)

/-- Everything on the left is related to something on the right. -/
def Included {α β : Type} (R : α → β → Prop) (xs : List α) (ys : List β) : Prop :=
  ∀ x ∈ xs, ∃ y ∈ ys, R x y

namespace SameOutcome

variable {α β γ δ : Type} {R : α → β → Prop} {S : γ → δ → Prop} {r : Except Fault α} {s : Except Fault β}

theorem bind {f : α → Except Fault γ} {g : β → Except Fault δ} (h : SameOutcome R r s)
    (hfg : ∀ a b, R a b → SameOutcome S (f a) (g b)) : SameOutcome S (r >>= f) (s >>= g) := by
  cases h with
  | ok h => exact hfg _ _ h
  | error fault => exact .error fault

/-- What is raised on both sides is the same fault. -/
theorem raise (fault : Fault) : SameOutcome R (fault.raise : Except Fault α) (fault.raise : Except Fault β) := by
  unfold Fault.raise
  split
  · exact .error _
  · split
    · exact .error _
    · exact .error _

theorem imp {S : α → β → Prop} (h : SameOutcome R r s) (hRS : ∀ a b, R a b → S a b) : SameOutcome S r s := by
  cases h with
  | ok h => exact .ok (hRS _ _ h)
  | error fault => exact .error fault

theorem symm (h : SameOutcome R r s) : SameOutcome (flip R) s r := by
  cases h with
  | ok h => exact .ok h
  | error fault => exact .error fault

theorem eq_of_eq {s : Except Fault α} (h : SameOutcome Eq r s) : r = s := by
  cases h with
  | ok h => rw [h]
  | error => rfl

theorem exists_ok {a : α} (h : SameOutcome R (.ok a) s) : ∃ b, s = .ok b ∧ R a b := by
  cases h with
  | ok h => exact ⟨_, rfl, h⟩

end SameOutcome

/-! ## Words at positions that stand for each other -/

namespace Weights

variable {n n' : Nat} {P : Fin n → Fin n' → Prop} {v m capacity : Vector Int64 n}
  {v' m' capacity' : Vector Int64 n'} {w : Weights n} {w' : Weights n'}

/-- Vectors that hold the same words at positions that stand for each other. -/
def SameWords (P : Fin n → Fin n' → Prop) (v : Vector Int64 n) (v' : Vector Int64 n') : Prop :=
  ∀ p p', P p p' → v.get p = v'.get p'

/-- Weights that are the same at positions that stand for each other. -/
structure SameWeights (P : Fin n → Fin n' → Prop) (w : Weights n) (w' : Weights n') : Prop where
  pre : SameWords P w.pre w'.pre
  post : SameWords P w.post w'.post

theorem enabled_iff_of_same (hP : Relator.BiTotal P) (hw : SameWeights P w w') (hm : SameWords P m m') :
    w.Enabled m ↔ w'.Enabled m' :=
  hP.rel_forall fun p p' hp => by rw [hw.pre p p' hp, hm p p' hp]

theorem sameWords_apply (hw : SameWeights P w w') (hm : SameWords P m m') :
    SameWords P (w.apply m) (w'.apply m') := by
  intro p p' hp
  rw [get_apply, get_apply, hw.pre p p' hp, hw.post p p' hp, hm p p' hp]

theorem sameWords_unapply (hw : SameWeights P w w') (hm : SameWords P m m') :
    SameWords P (w.unapply m) (w'.unapply m') := by
  intro p p' hp
  rw [get_unapply, get_unapply, hw.pre p p' hp, hw.post p p' hp, hm p p' hp]

/-- With more room, the guards of both directions let through what they have let through before. -/
theorem within_of_roomier {u : Vector Int64 n} {u' : Vector Int64 n'} (hP : Relator.RightTotal P)
    (hroom : ∀ p p', P p p' → capacity.get p ≤ capacity'.get p') (hu : SameWords P u u')
    (hv : SameWords P v v') (h : ∀ p, 0 < u.get p → v.get p ≤ capacity.get p) (p' : Fin n')
    (hpos : 0 < u'.get p') : v'.get p' ≤ capacity'.get p' := by
  obtain ⟨p, hp⟩ := hP p'
  rw [← hu p p' hp] at hpos
  rw [← hv p p' hp]
  exact Int64.le_trans (h p hpos) (hroom p p' hp)

theorem fire?_of_roomier (hP : Relator.BiTotal P)
    (hroom : ∀ p p', P p p' → capacity.get p ≤ capacity'.get p') (hw : SameWeights P w w')
    (hm : SameWords P m m') (h : w.fire? capacity m = some v) :
    ∃ v', w'.fire? capacity' m' = some v' ∧ SameWords P v v' := by
  obtain ⟨hen, hfits, rfl⟩ := (fire?_eq_some_iff w).mp h
  have hsame := sameWords_apply hw hm
  refine ⟨_, (fire?_eq_some_iff w').mpr ⟨(enabled_iff_of_same hP hw hm).mp hen, ?_, rfl⟩, hsame⟩
  exact within_of_roomier hP.2 hroom hw.post hsame hfits

theorem revert?_of_roomier (hP : Relator.BiTotal P)
    (hroom : ∀ p p', P p p' → capacity.get p ≤ capacity'.get p') (hw : SameWeights P w w')
    (hm : SameWords P m m') (h : w.revert? capacity m = some v) :
    ∃ v', w'.revert? capacity' m' = some v' ∧ SameWords P v v' := by
  obtain ⟨hguard, rfl⟩ := (revert?_eq_some_iff w).mp h
  exact ⟨_, (revert?_eq_some_iff w').mpr ⟨within_of_roomier hP.2 hroom hw.pre hm hguard, rfl⟩,
    sameWords_unapply hw hm⟩

end Weights

namespace Net

open Weights (SameWords SameWeights)

variable {net net' : Net} {P : Fin net.places.length → Fin net'.places.length → Prop}
  {T : Fin net.transitions.length → Fin net'.transitions.length → Prop} {m m' q : Marking} {t : Datum}
  {ts : List Datum}

/-! ## Nets and their markings -/

/-- Each member of one list is the same as a member of the other. -/
def SameMembers (ms ms' : List Marking) : Prop := Included (· == ·) ms ms' ∧ Included (· == ·) ms' ms

/-- By `P` and `T`, places stand for places of one name and transitions for transitions that are found under
the same names and have the same weights. -/
structure Corresponds (net net' : Net) (P : Fin net.places.length → Fin net'.places.length → Prop)
    (T : Fin net.transitions.length → Fin net'.transitions.length → Prop) : Prop where
  places : Relator.BiTotal P
  transitions : Relator.BiTotal T
  named : ∀ p p', P p p' → (net.places.get p == net'.places.get p') = true
  index : ∀ t, SameOutcome T (net.transitionIndex t) (net'.transitionIndex t)
  weights : ∀ j j', T j j' → SameWeights P (net.weights.get j) (net'.weights.get j')

/-- The second net has at least as much room. -/
def Roomier (net net' : Net) (P : Fin net.places.length → Fin net'.places.length → Prop) : Prop :=
  ∀ p p', P p p' → net.capacityAt p ≤ net'.capacityAt p'

instance [∀ p p', Decidable (P p p')] : Decidable (net.Roomier net' P) :=
  inferInstanceAs (Decidable (∀ p p', P p p' → net.capacityAt p ≤ net'.capacityAt p'))

/-- Markings of the two nets whose counts are words, with the same counts at places that stand for each
other. -/
structure Matches (net net' : Net) (P : Fin net.places.length → Fin net'.places.length → Prop)
    (m m' : Marking) : Prop where
  owns : net.Owns m
  fits : net.FitsWords m
  owns' : net'.Owns m'
  fits' : net'.FitsWords m'
  tokens : ∀ p p', P p p' → m.tokens p = m'.tokens p'

theorem Corresponds.symm (h : net.Corresponds net' P T) : net'.Corresponds net (flip P) (flip T) where
  places := ⟨h.places.2, h.places.1⟩
  transitions := ⟨h.transitions.2, h.transitions.1⟩
  named p p' hp := BEq.symm (h.named p' p hp)
  index t := (h.index t).symm
  weights j j' hj := by
    have hw := h.weights j' j hj
    exact ⟨fun p p' hp => (hw.pre p' p hp).symm, fun p p' hp => (hw.post p' p hp).symm⟩

theorem Matches.symm (h : net.Matches net' P m m') : net'.Matches net (flip P) m' m :=
  ⟨h.owns', h.fits', h.owns, h.fits, fun p p' hp => (h.tokens p' p hp).symm⟩

theorem Matches.words (h : net.Matches net' P m m') : SameWords P (net.wordsOf m) (net'.wordsOf m') := by
  intro p p' hp
  rw [← Int64.toInt_inj, toInt_wordsOf h.fits, toInt_wordsOf h.fits', h.tokens p p' hp]

theorem matches_markingOfWords {v : Vector Int64 net.places.length}
    {v' : Vector Int64 net'.places.length} (hv : SameWords P v v') :
    net.Matches net' P (net.markingOfWords v) (net'.markingOfWords v') := by
  refine ⟨owns_markingOfWords v, fitsWords_markingOfWords v,
    owns_markingOfWords v', fitsWords_markingOfWords v', fun p p' hp => ?_⟩
  rw [tokens_markingOfWords, tokens_markingOfWords, hv p p' hp]

theorem Roomier.words (h : net.Roomier net' P) (p : Fin net.places.length) (p' : Fin net'.places.length)
    (hp : P p p') : net.capacity.get p ≤ net'.capacity.get p' :=
  Int64.le_iff_toInt_le.mpr (h p p' hp)

namespace Corresponds

/-! ## Mappings -/

/-- Under the places of both nets a mapping has the same keys. -/
theorem keysMatch (h : net.Corresponds net' P T) {es : List (Datum × Datum)}
    (hkeys : Capacity.KeysMatch net.places es) : Capacity.KeysMatch net'.places es := by
  refine ⟨fun place hplace => ?_, fun e he => ?_⟩
  · obtain ⟨p', rfl⟩ := List.get_of_mem hplace
    obtain ⟨p, hp⟩ := h.places.2 p'
    obtain ⟨e, he, hsame⟩ := List.any_eq_true.mp (hkeys.covered _ (List.get_mem net.places p))
    exact List.any_eq_true.mpr ⟨e, he, (BEq.congr_right (h.named p p' hp)).symm.trans hsame⟩
  · obtain ⟨place, hplace, hsame⟩ := List.any_eq_true.mp (hkeys.declared e he)
    obtain ⟨p, rfl⟩ := List.get_of_mem hplace
    obtain ⟨p', hp⟩ := h.places.1 p
    exact List.any_eq_true.mpr ⟨_, List.get_mem _ _, (BEq.congr_left (h.named p p' hp)).symm.trans hsame⟩

/-- A mapping that the first net accepts is accepted by the second one, which makes a marking of it that
matches. -/
theorem marking (h : net.Corresponds net' P T) (hroom : net.Roomier net' P) (hb : net.Built)
    (hb' : net'.Built) {x : Datum} {es : List (Datum × Datum)} (hx : x.entries = .ok es)
    (hm : net.marking x = .ok m) : ∃ m', net'.marking x = .ok m' ∧ net.Matches net' P m m' := by
  obtain ⟨hhash, hkeys, hvalid, hnumbers⟩ := (marking_eq_ok_iff hb hx).mp hm
  have hnumber : ∀ p p', P p p' →
      Capacity.numberUnder? es (net'.places.get p') = some (m.tokens p) := by
    intro p p' hp
    rw [← Capacity.numberUnder?_congr (h.named p p' hp)]
    exact hnumbers p
  have hadmits : net'.Admits es := by
    refine ⟨hhash, h.keysMatch hkeys, fun p' => ?_⟩
    obtain ⟨p, hp⟩ := h.places.2 p'
    obtain ⟨hnonneg, hcap⟩ := hvalid.within p
    exact ⟨_, hnumber p p' hp, hnonneg, Int.le_trans hcap (hroom p p' hp)⟩
  obtain ⟨m', hm'⟩ := (accepted_iff hb' hx).mpr hadmits
  obtain ⟨_, _, hvalid', hnumbers'⟩ := (marking_eq_ok_iff hb' hx).mp hm'
  refine ⟨m', hm', hvalid.owns, hvalid.inRange.fitsWords, hvalid'.owns, hvalid'.inRange.fitsWords,
    fun p p' hp => ?_⟩
  exact Option.some.inj ((hnumber p p' hp).symm.trans (hnumbers' p'))

/-! ## Steps -/

theorem isEnabled (h : net.Corresponds net' P T) (hm : net.Matches net' P m m') (t : Datum) :
    net.isEnabled t m.toDatum = net'.isEnabled t m'.toDatum := by
  rw [isEnabled_eq hm.owns hm.fits, isEnabled_eq hm.owns' hm.fits']
  refine ((h.index t).bind fun j j' hj => .ok ?_).eq_of_eq
  exact decide_eq_decide.mpr (Weights.enabled_iff_of_same h.places (h.weights j j' hj) hm.words)

/-- What is found at the position of a transition in the first net is found at its position in the second. -/
theorem found (h : net.Corresponds net' P T)
    {f : Fin net.transitions.length → Option (Vector Int64 net.places.length)}
    {f' : Fin net'.transitions.length → Option (Vector Int64 net'.places.length)}
    (hf : ∀ j j', T j j' → ∀ v, f j = some v → ∃ v', f' j' = some v' ∧ SameWords P v v')
    (hq : (net.transitionIndex t >>= fun j => .ok ((f j).map net.markingOfWords)) = .ok (some q)) :
    ∃ q', (net'.transitionIndex t >>= fun j => .ok ((f' j).map net'.markingOfWords)) = .ok (some q') ∧
      net.Matches net' P q q' := by
  obtain ⟨j, hj, hq⟩ := bind_eq_ok.mp hq
  obtain ⟨v, hv, rfl⟩ := Option.map_eq_some_iff.mp (Except.ok.inj hq)
  have hindex := h.index t
  rw [hj] at hindex
  obtain ⟨j', hj', hjj'⟩ := hindex.exists_ok
  obtain ⟨v', hv', hsame⟩ := hf j j' hjj' v hv
  refine ⟨net'.markingOfWords v', ?_, matches_markingOfWords hsame⟩
  rw [hj', ok_bind, hv']
  rfl

/-- **A step of the first net is a step of the second one.** -/
theorem fires (h : net.Corresponds net' P T) (hroom : net.Roomier net' P) (hm : net.Matches net' P m m')
    (hstep : net.Fires t m q) : ∃ q', net'.Fires t m' q' ∧ net.Matches net' P q q' := by
  rw [Fires, fire_eq hm.owns hm.fits] at hstep
  obtain ⟨q', hq', hmatch⟩ := h.found (fun j j' hj _ hv =>
    Weights.fire?_of_roomier h.places hroom.words (h.weights j j' hj) hm.words hv) hstep
  refine ⟨q', ?_, hmatch⟩
  rw [Fires, fire_eq hm.owns' hm.fits']
  exact hq'

/-- The same for reverting. -/
theorem reverts (h : net.Corresponds net' P T) (hroom : net.Roomier net' P)
    (hm : net.Matches net' P m m') (hstep : net.Reverts t m q) :
    ∃ q', net'.Reverts t m' q' ∧ net.Matches net' P q q' := by
  rw [Reverts, revert_eq hm.owns hm.fits] at hstep
  obtain ⟨q', hq', hmatch⟩ := h.found (fun j j' hj _ hv =>
    Weights.revert?_of_roomier h.places hroom.words (h.weights j j' hj) hm.words hv) hstep
  refine ⟨q', ?_, hmatch⟩
  rw [Reverts, revert_eq hm.owns' hm.fits']
  exact hq'

/-! ## Equal room -/

/-- If the second net has no more room either, all outcomes are the same. -/
theorem outcome (h : net.Corresponds net' P T)
    {f : Fin net.transitions.length → Option (Vector Int64 net.places.length)}
    {f' : Fin net'.transitions.length → Option (Vector Int64 net'.places.length)}
    (hf : ∀ j j', T j j' → ∀ v, f j = some v → ∃ v', f' j' = some v' ∧ SameWords P v v')
    (hf' : ∀ j j', T j j' → ∀ v', f' j' = some v' → ∃ v, f j = some v) (t : Datum) :
    SameOutcome (Option.Rel (net.Matches net' P))
      (net.transitionIndex t >>= fun j => .ok ((f j).map net.markingOfWords))
      (net'.transitionIndex t >>= fun j => .ok ((f' j).map net'.markingOfWords)) := by
  refine (h.index t).bind fun j j' hj => .ok ?_
  cases hleft : f j with
  | some v =>
    obtain ⟨v', hright, hsame⟩ := hf j j' hj v hleft
    rw [hright]
    exact .some (matches_markingOfWords hsame)
  | none =>
    cases hright : f' j' with
    | none => exact .none
    | some v' =>
      obtain ⟨v, hv⟩ := hf' j j' hj v' hright
      rw [hleft] at hv
      cases hv

theorem fire (h : net.Corresponds net' P T) (hroom : net.Roomier net' P)
    (hroom' : net'.Roomier net (flip P)) (hm : net.Matches net' P m m') (t : Datum) :
    SameOutcome (Option.Rel (net.Matches net' P)) (net.fire t m.toDatum) (net'.fire t m'.toDatum) := by
  rw [fire_eq hm.owns hm.fits, fire_eq hm.owns' hm.fits']
  refine h.outcome (fun j j' hj v hv =>
    Weights.fire?_of_roomier h.places hroom.words (h.weights j j' hj) hm.words hv) (fun j j' hj v' hv' => ?_) t
  obtain ⟨v, hv, _⟩ := Weights.fire?_of_roomier h.symm.places hroom'.words (h.symm.weights j' j hj)
    hm.symm.words hv'
  exact ⟨v, hv⟩

theorem revert (h : net.Corresponds net' P T) (hroom : net.Roomier net' P)
    (hroom' : net'.Roomier net (flip P)) (hm : net.Matches net' P m m') (t : Datum) :
    SameOutcome (Option.Rel (net.Matches net' P)) (net.revert m.toDatum t) (net'.revert m'.toDatum t) := by
  rw [revert_eq hm.owns hm.fits, revert_eq hm.owns' hm.fits']
  refine h.outcome (fun j j' hj v hv =>
    Weights.revert?_of_roomier h.places hroom.words (h.weights j j' hj) hm.words hv)
    (fun j j' hj v' hv' => ?_) t
  obtain ⟨v, hv, _⟩ := Weights.revert?_of_roomier h.symm.places hroom'.words (h.symm.weights j' j hj)
    hm.symm.words hv'
  exact ⟨v, hv⟩

/-! ## Runs -/

theorem run_fires (h : net.Corresponds net' P T) (hroom : net.Roomier net' P)
    (hm : net.Matches net' P m m') (hrun : Run net.Fires ts m q) :
    ∃ q', Run net'.Fires ts m' q' ∧ net.Matches net' P q q' :=
  Run.simulate (fun _ _ _ _ hm hstep => h.fires hroom hm hstep) hm hrun

theorem run_reverts (h : net.Corresponds net' P T) (hroom : net.Roomier net' P)
    (hm : net.Matches net' P m m') (hrun : Run net.Reverts ts m q) :
    ∃ q', Run net'.Reverts ts m' q' ∧ net.Matches net' P q q' :=
  Run.simulate (fun _ _ _ _ hm hstep => h.reverts hroom hm hstep) hm hrun

/-! ## All transitions at once -/

theorem successors (h : net.Corresponds net' P T) (hroom : net.Roomier net' P)
    (hm : net.Matches net' P m m') :
    ∃ found found', (net.successors m.toDatum).result = .ok found ∧
      (net'.successors m'.toDatum).result = .ok found' ∧ Included (net.Matches net' P) found found' := by
  refine ⟨_, _, successors_eq hm.owns hm.fits, successors_eq hm.owns' hm.fits', fun q hq => ?_⟩
  obtain ⟨v, hv, rfl⟩ := List.mem_map.mp hq
  obtain ⟨j, hv⟩ := mem_successorWords_iff.mp hv
  obtain ⟨j', hj⟩ := h.transitions.1 j
  obtain ⟨v', hv', hsame⟩ :=
    Weights.fire?_of_roomier h.places hroom.words (h.weights j j' hj) hm.words hv
  exact ⟨_, List.mem_map_of_mem (mem_successorWords_iff.mpr ⟨j', hv'⟩), matches_markingOfWords hsame⟩

/-- The words of the predecessors are among those that the second net finds. -/
theorem predecessorWords (h : net.Corresponds net' P T) (hroom : net.Roomier net' P)
    (hm : net.Matches net' P m m') :
    Included (Weights.SameWords P) (net.predecessorWords (net.wordsOf m))
      (net'.predecessorWords (net'.wordsOf m')) := by
  intro v hv
  obtain ⟨j, hrevert⟩ := mem_predecessorWords_iff.mp hv
  obtain ⟨j', hj⟩ := h.transitions.1 j
  obtain ⟨v', hv', hsame⟩ := Weights.revert?_of_roomier h.places hroom.words (h.weights j j' hj) hm.words
    ((Weights.revert?_eq_some_iff _).mpr hrevert)
  exact ⟨v', mem_predecessorWords_iff.mpr ⟨j', (Weights.revert?_eq_some_iff _).mp hv'⟩, hsame⟩

theorem revertAll (h : net.Corresponds net' P T) (hroom : net.Roomier net' P)
    (hm : net.Matches net' P m m') :
    ∃ found found', net.revertAll m.toDatum = .ok found ∧ net'.revertAll m'.toDatum = .ok found' ∧
      Included (net.Matches net' P) found found' := by
  refine ⟨_, _, revertAll_eq hm.owns hm.fits, revertAll_eq hm.owns' hm.fits', fun q hq => ?_⟩
  obtain ⟨v, hv, rfl⟩ := List.mem_map.mp hq
  obtain ⟨v', hv', hsame⟩ := h.predecessorWords hroom hm v hv
  exact ⟨_, List.mem_map_of_mem hv', matches_markingOfWords hsame⟩

/-- Every member of the first collection has one in the second that it matches. -/
theorem revertSet (h : net.Corresponds net' P T) (hroom : net.Roomier net' P) {x x' : Datum}
    {ms ms' : List Marking} (hx : x.items = .ok (ms.map Marking.toDatum))
    (hx' : x'.items = .ok (ms'.map Marking.toDatum)) (hown : ∀ m ∈ ms, net.Owns m ∧ net.FitsWords m)
    (hown' : ∀ m ∈ ms', net'.Owns m ∧ net'.FitsWords m) (hm : Included (net.Matches net' P) ms ms') :
    ∃ found found', (net.revertSet x).result = .ok found ∧ (net'.revertSet x').result = .ok found' ∧
      Included (net.Matches net' P) found found' := by
  refine ⟨_, _, revertSet_of_items hx hown, revertSet_of_items hx' hown', fun q hq => ?_⟩
  obtain ⟨v, hv, rfl⟩ := List.mem_map.mp hq
  obtain ⟨w, hw, hv⟩ := List.mem_flatMap.mp (List.mem_eraseDups.mp hv)
  obtain ⟨m, hmem, rfl⟩ := List.mem_map.mp hw
  obtain ⟨m', hmem', hmm'⟩ := hm m hmem
  obtain ⟨v', hv', hsame⟩ := h.predecessorWords hroom hmm' v hv
  have hfound : v' ∈ ((ms'.map net'.wordsOf).flatMap net'.predecessorWords).eraseDups := by
    rw [List.mem_eraseDups, List.mem_flatMap]
    exact ⟨_, List.mem_map_of_mem hmem', hv'⟩
  exact ⟨_, List.mem_map_of_mem hfound, matches_markingOfWords hsame⟩

end Corresponds

end Net

end Petri
