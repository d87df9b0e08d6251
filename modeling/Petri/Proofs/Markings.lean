import Petri.Net.Backward
import Petri.Proofs.Outcomes
import Petri.Proofs.Weights

/-!
# Markings as counts

A marking is a value that pairs places with values of any kind. This file says when it is a marking of a net
(`Net.Owns`: the places of the net, spelled in any way, and whole numbers as counts) and reads it as a number
of tokens at every position (`Marking.tokens`). The engines work on words, and on the markings of a net whose
counts are words each of them is one function of these words:

> `fire_eq`, `revert_eq`, `isEnabled_eq`: look up the transition, then step on the vector of the words.

Results are markings of words over the places of the net (`owns_markingOfWords`), so that steps can follow
each other.
-/

namespace Petri

/-! ## Sameness of sequences -/

/-- Sequences are the same if their items denote the same, one by one. -/
theorem list_beq_iff : ∀ {xs ys : List Datum}, (xs == ys) = true ↔ Datum.meanings xs = Datum.meanings ys := by
  intro xs
  induction xs with
  | nil =>
    intro ys
    cases ys <;> simp [Datum.meanings]
  | cons x xs ih =>
    intro ys
    cases ys with
    | nil => simp [Datum.meanings]
    | cons y ys =>
      rw [List.cons_beq_cons, Bool.and_eq_true, ih, Datum.beq_eq_same, Datum.same_iff]
      simp [Datum.meanings]

instance : EquivBEq (List Datum) where
  symm h := list_beq_iff.mpr (list_beq_iff.mp h).symm
  trans hxy hyz := list_beq_iff.mpr ((list_beq_iff.mp hxy).trans (list_beq_iff.mp hyz))

theorem length_eq_of_beq {xs ys : List Datum} (h : (xs == ys) = true) : xs.length = ys.length := by
  have hlen : ∀ zs : List Datum, (Datum.meanings zs).length = zs.length := by
    intro zs
    induction zs with
    | nil => rfl
    | cons z zs ih => simp [Datum.meanings, ih]
  rw [← hlen xs, ← hlen ys, list_beq_iff.mp h]

theorem list_beq_append {xs xs' ys ys' : List Datum} (h : (xs == xs') = true) (h' : (ys == ys') = true) :
    (xs ++ ys == xs' ++ ys') = true := by
  induction xs generalizing xs' with
  | nil =>
    cases xs' with
    | nil => exact h'
    | cons => cases h
  | cons x xs ih =>
    cases xs' with
    | nil => cases h
    | cons x' xs' =>
      rw [List.cons_beq_cons, Bool.and_eq_true] at h
      rw [List.cons_append, List.cons_append, List.cons_beq_cons, Bool.and_eq_true]
      exact ⟨h.1, ih h.2⟩

theorem eq_of_beq_ints : ∀ {ks ls : List Int},
    (ks.map Datum.int == ls.map Datum.int) = true → ks = ls := by
  intro ks
  induction ks with
  | nil =>
    intro ls h
    cases ls with
    | nil => rfl
    | cons l ls => cases h
  | cons k ks ih =>
    intro ls h
    cases ls with
    | nil => cases h
    | cons l ls =>
      rw [List.map_cons, List.map_cons, List.cons_beq_cons, Bool.and_eq_true] at h
      have hk : (k == l) = true := h.1
      rw [eq_of_beq hk, ih h.2]

namespace Marking

/-- A marking denotes the sequence of its counts and the sequence of its places. -/
theorem meaning_toDatum (m : Marking) : m.toDatum.meaning
    = .group .marking [.group .tuple (Datum.meanings m.counts), .group .tuple (Datum.meanings m.places)] := by
  have hkeys : ∀ es : List (Datum × Datum), Datum.keyMeanings es = Datum.meanings (es.map (·.1)) := by
    intro es
    induction es with
    | nil => rfl
    | cons e es ih => simp [Datum.keyMeanings, Datum.meanings, ih]
  have hvalues : ∀ es : List (Datum × Datum),
      Datum.valueMeanings es = Datum.meanings (es.map (·.2)) := by
    intro es
    induction es with
    | nil => rfl
    | cons e es ih => simp [Datum.valueMeanings, Datum.meanings, ih]
  rw [toDatum, Datum.meaning, hkeys, hvalues]
  rfl

/-- Markings are the same if their counts and their places are. -/
theorem beq_iff {a b : Marking} :
    (a == b) = true ↔ (a.counts == b.counts) = true ∧ (a.places == b.places) = true := by
  show a.toDatum.same b.toDatum = true ↔ _
  rw [Datum.same_iff, list_beq_iff, list_beq_iff]
  simp [meaning_toDatum]

instance : EquivBEq Marking where
  rfl {a} := BEq.rfl (a := a.toDatum)
  symm {a b} h := BEq.symm (a := a.toDatum) (b := b.toDatum) h
  trans {a b c} hab hbc := BEq.trans (a := a.toDatum) (b := b.toDatum) (c := c.toDatum) hab hbc

/-! ## Tokens -/

/-- The number of tokens at position `i`; zero where there is no whole number. -/
def tokens (m : Marking) (i : Nat) : Int :=
  ((m.counts[i]?).bind Datum.asInt?).getD 0

theorem length_counts (m : Marking) : m.counts.length = m.places.length := by
  simp [counts, places]

/-- A marking is known by its places and its counts. -/
theorem ext_parts {a b : Marking} (hplaces : a.places = b.places) (hcounts : a.counts = b.counts) :
    a = b := by
  have hzip : ∀ m : Marking, m.places.zip m.counts = m.entries := fun m =>
    (List.zip_of_prod rfl rfl).symm
  cases a with
  | mk es =>
    have h := hzip ⟨es⟩
    rw [hplaces, hcounts, hzip b] at h
    rw [← show b.entries = es from h]

theorem counts_eq_ofFn {m : Marking} {n : Nat} (hlen : m.counts.length = n)
    (hwhole : ∀ c ∈ m.counts, ∃ k : Int, c = .int k) :
    m.counts = List.ofFn fun p : Fin n => Datum.int (m.tokens p) := by
  apply List.ext_getElem
  · rw [hlen, List.length_ofFn]
  · intro i hi _
    obtain ⟨k, hk⟩ := hwhole _ (List.getElem_mem hi)
    rw [List.getElem_ofFn]
    show m.counts[i] = .int (m.tokens i)
    rw [tokens, List.getElem?_eq_getElem hi, hk]
    rfl

end Marking

namespace Net

/-! ## Markings of a net -/

/-- `m` has the places of the net, spelled in any way, and whole numbers as counts. -/
structure Owns (net : Net) (m : Marking) : Prop where
  places : (m.places == net.places) = true
  whole : ∀ c ∈ m.counts, ∃ k : Int, c = .int k

/-- Every count of `m` is a signed 64-bit number. -/
def FitsWords (net : Net) (m : Marking) : Prop :=
  ∀ p : Fin net.places.length, Datum.fitsWord (m.tokens p) = true

/-- Every count of `m` is a number from zero to `mostTokens`. -/
def InRange (net : Net) (m : Marking) : Prop :=
  ∀ p : Fin net.places.length, 0 ≤ m.tokens p ∧ m.tokens p ≤ mostTokens

/-- No count of `m` is negative. -/
def Nonnegative (net : Net) (m : Marking) : Prop :=
  ∀ p : Fin net.places.length, 0 ≤ m.tokens p

instance (net : Net) (m : Marking) : Decidable (net.FitsWords m) :=
  inferInstanceAs (Decidable (∀ p : Fin net.places.length, Datum.fitsWord (m.tokens p) = true))

instance (net : Net) (m : Marking) : Decidable (net.InRange m) :=
  inferInstanceAs (Decidable (∀ p : Fin net.places.length, 0 ≤ m.tokens p ∧ m.tokens p ≤ mostTokens))

instance (net : Net) (m : Marking) : Decidable (net.Nonnegative m) :=
  inferInstanceAs (Decidable (∀ p : Fin net.places.length, 0 ≤ m.tokens p))

/-- The counts of `m` as words. -/
def wordsOf (net : Net) (m : Marking) : Vector Int64 net.places.length :=
  Vector.ofFn fun p => Int64.ofInt (m.tokens p)

/-- The tokens that a transition takes from a place. -/
def takes (net : Net) (t : Fin net.transitions.length) (p : Fin net.places.length) : Int :=
  ((net.weights.get t).pre.get p).toInt

/-- The tokens that a transition gives to a place. -/
def gives (net : Net) (t : Fin net.transitions.length) (p : Fin net.places.length) : Int :=
  ((net.weights.get t).post.get p).toInt

variable {net : Net} {m : Marking}

theorem InRange.fitsWords (h : net.InRange m) : net.FitsWords m := by
  intro p
  obtain ⟨h0, h1⟩ := h p
  exact fitsWord_iff.mpr ⟨by omega, h1⟩

theorem toInt_wordsOf (hfit : net.FitsWords m) (p : Fin net.places.length) :
    ((net.wordsOf m).get p).toInt = m.tokens p := by
  obtain ⟨h0, h1⟩ := fitsWord_iff.mp (hfit p)
  rw [mostTokens_eq] at h1
  rw [wordsOf, Weights.get_ofFn]
  exact Int64.toInt_ofInt_of_le h0 (by omega)

theorem natural_wordsOf (hrange : net.InRange m) : Weights.Natural (net.wordsOf m) := by
  intro p
  rw [Weights.zero_le_iff, toInt_wordsOf hrange.fitsWords p]
  exact (hrange p).1

namespace Owns

theorem length_counts (h : net.Owns m) : m.counts.length = net.places.length := by
  rw [m.length_counts, length_eq_of_beq h.places]

theorem counts_eq (h : net.Owns m) :
    m.counts = List.ofFn fun p : Fin net.places.length => Datum.int (m.tokens p) :=
  Marking.counts_eq_ofFn h.length_counts h.whole

theorem counts_eq_ints (h : net.Owns m) :
    m.counts = (List.ofFn fun p : Fin net.places.length => m.tokens p).map Datum.int := by
  rw [h.counts_eq, List.map_ofFn]
  rfl

theorem coerce_eq (h : net.Owns m) : net.coerce m.toDatum = .ok m := by
  show (if m.places == net.places then Except.ok m else _) = _
  rw [if_pos h.places]

/-- Whole numbers are no sequences, so the words are not nested. -/
theorem wordsOver_eq (h : net.Owns m) :
    m.wordsOver net.places.length = (m.wordVector net.places.length >>= fun v => pure (.flat v)) := by
  have hflat : m.counts.any (·.isSequence) = false := by
    rw [List.any_eq_false]
    intro c hc
    obtain ⟨k, rfl⟩ := h.whole c hc
    simp [Datum.isSequence]
  rw [Marking.wordsOver, hflat]
  rfl

theorem words_eq (h : net.Owns m) (hfit : net.FitsWords m) :
    net.words m = .ok (.flat (net.wordsOf m)) := by
  have hwords : m.toWords = .ok (List.ofFn fun p : Fin net.places.length => Int64.ofInt (m.tokens p)) := by
    rw [Marking.toWords, mapM_eq_ok, h.counts_eq, List.map_ofFn, List.map_ofFn]
    congr 1
    funext p
    show Datum.wordOfInt (m.tokens p) = _
    rw [Datum.wordOfInt, if_pos (hfit p)]
    rfl
  have hvector : m.wordVector net.places.length = .ok (net.wordsOf m) := by
    rw [Marking.wordVector, hwords]
    show Except.ok _ = _
    congr 2
    funext p
    simp
  rw [words, h.wordsOver_eq, hvector]
  rfl

end Owns

/-! ## Markings of words -/

theorem places_markingOfWords (w : Vector Int64 net.places.length) :
    (net.markingOfWords w).places = net.places := by
  rw [markingOfWords, Marking.ofWords, Marking.places]
  exact List.map_fst_zip (by simp)

theorem counts_markingOfWords (w : Vector Int64 net.places.length) :
    (net.markingOfWords w).counts = w.toList.map fun x => .int x.toInt := by
  rw [markingOfWords, Marking.ofWords, Marking.counts]
  exact List.map_snd_zip (by simp)

@[simp] theorem tokens_markingOfWords (w : Vector Int64 net.places.length)
    (p : Fin net.places.length) : (net.markingOfWords w).tokens p = (w.get p).toInt := by
  rw [Marking.tokens, counts_markingOfWords]
  simp [Vector.get, Datum.asInt?]

theorem owns_markingOfWords (w : Vector Int64 net.places.length) : net.Owns (net.markingOfWords w) := by
  refine ⟨by rw [places_markingOfWords]; exact BEq.rfl, ?_⟩
  intro c hc
  rw [counts_markingOfWords] at hc
  obtain ⟨x, _, rfl⟩ := List.mem_map.mp hc
  exact ⟨x.toInt, rfl⟩

theorem fitsWords_markingOfWords (w : Vector Int64 net.places.length) :
    net.FitsWords (net.markingOfWords w) := by
  intro p
  rw [tokens_markingOfWords]
  exact fitsWord_iff.mpr ⟨Int64.le_toInt _, Int64.toInt_le _⟩

@[simp] theorem wordsOf_markingOfWords (w : Vector Int64 net.places.length) :
    net.wordsOf (net.markingOfWords w) = w := by
  apply Weights.vector_ext
  intro p
  rw [← Int64.toInt_inj, toInt_wordsOf (fitsWords_markingOfWords w), tokens_markingOfWords]

theorem markingOfWords_inj_of_beq {v w : Vector Int64 net.places.length}
    (h : (net.markingOfWords v == net.markingOfWords w) = true) : v = w := by
  have hcounts := (Marking.beq_iff.mp h).1
  have hints : ∀ u : Vector Int64 net.places.length,
      (net.markingOfWords u).counts = (u.toList.map Int64.toInt).map .int := by
    intro u
    rw [counts_markingOfWords, List.map_map]
    rfl
  rw [hints, hints] at hcounts
  have hlist := eq_of_beq_ints hcounts
  exact Vector.toList_inj.mp (List.map_inj_right (fun _ _ => Int64.toInt_inj.mp) |>.mp hlist)

theorem natural_iff {w : Vector Int64 net.places.length} :
    Weights.Natural w ↔ net.Nonnegative (net.markingOfWords w) := by
  refine forall_congr' fun p => ?_
  rw [tokens_markingOfWords, Weights.zero_le_iff]

theorem counts_markingOfWords_wordsOf (h : net.Owns m) (hfit : net.FitsWords m) :
    (net.markingOfWords (net.wordsOf m)).counts = m.counts := by
  rw [(owns_markingOfWords _).counts_eq, h.counts_eq]
  congr 1
  funext p
  rw [tokens_markingOfWords, toInt_wordsOf hfit]

/-- A marking of the net is the same as the marking of its words. -/
theorem markingOfWords_wordsOf_beq (h : net.Owns m) (hfit : net.FitsWords m) :
    (net.markingOfWords (net.wordsOf m) == m) = true := by
  refine Marking.beq_iff.mpr ⟨?_, ?_⟩
  · rw [counts_markingOfWords_wordsOf h hfit]
    exact BEq.rfl
  · rw [places_markingOfWords]
    exact BEq.symm h.places

/-- A marking with the very places of the net is the marking of its words. -/
theorem markingOfWords_wordsOf (h : net.Owns m) (hfit : net.FitsWords m)
    (hplaces : m.places = net.places) : net.markingOfWords (net.wordsOf m) = m := by
  refine Marking.ext_parts ?_ (counts_markingOfWords_wordsOf h hfit)
  rw [places_markingOfWords, hplaces]

/-! ## Markings of whole numbers -/

/-- The marking over the places of the net with the given whole numbers as counts. -/
def markingOf (net : Net) (counts : Fin net.places.length → Int) : Marking :=
  ⟨net.places.zip (List.ofFn fun p => Datum.int (counts p))⟩

theorem places_markingOf (counts : Fin net.places.length → Int) :
    (net.markingOf counts).places = net.places := by
  rw [markingOf, Marking.places]
  exact List.map_fst_zip (by simp)

theorem counts_markingOf (counts : Fin net.places.length → Int) :
    (net.markingOf counts).counts = List.ofFn fun p => Datum.int (counts p) := by
  rw [markingOf, Marking.counts]
  exact List.map_snd_zip (by simp)

@[simp] theorem tokens_markingOf (counts : Fin net.places.length → Int) (p : Fin net.places.length) :
    (net.markingOf counts).tokens p = counts p := by
  rw [Marking.tokens, counts_markingOf]
  simp [Datum.asInt?]

theorem owns_markingOf (counts : Fin net.places.length → Int) : net.Owns (net.markingOf counts) := by
  refine ⟨by rw [places_markingOf]; exact BEq.rfl, ?_⟩
  intro c hc
  rw [counts_markingOf] at hc
  obtain ⟨p, rfl⟩ := List.mem_ofFn.mp hc
  exact ⟨counts p, rfl⟩

/-- Words over the places are the whole numbers that they stand for. -/
theorem markingOfWords_eq (w : Vector Int64 net.places.length) :
    net.markingOfWords w = net.markingOf fun p => (w.get p).toInt := by
  refine Marking.ext_parts ?_ ?_
  · rw [places_markingOfWords, places_markingOf]
  · rw [(owns_markingOfWords w).counts_eq, counts_markingOf]
    congr 1
    funext p
    rw [tokens_markingOfWords]

/-- Markings of a net are the same if they have the same tokens everywhere. -/
theorem Owns.beq_iff {m' : Marking} (h : net.Owns m) (h' : net.Owns m') :
    (m == m') = true ↔ ∀ p : Fin net.places.length, m.tokens p = m'.tokens p := by
  have hplaces : (m.places == m'.places) = true := BEq.trans h.places (BEq.symm h'.places)
  rw [Marking.beq_iff]
  constructor
  · intro hsame
    rcases hsame with ⟨hcounts, _⟩
    rw [h.counts_eq_ints, h'.counts_eq_ints] at hcounts
    intro p
    have hcount := congrArg (·[(p : Nat)]?) (eq_of_beq_ints hcounts)
    simpa using hcount
  · intro htokens
    have hcounts : m.counts = m'.counts := by rw [h.counts_eq_ints, h'.counts_eq_ints, funext htokens]
    exact ⟨by rw [hcounts]; exact BEq.rfl, hplaces⟩

/-! ## Steps -/

/-- A step of a marking of the net is made with the position of the transition and the words. -/
theorem step_eq (h : net.Owns m) (hfit : net.FitsWords m) (t : Datum) :
    net.step t m.toDatum
      = (net.transitionIndex t >>= fun j => .ok (j, .flat (net.wordsOf m))) := by
  rw [step, h.coerce_eq, ok_bind, h.words_eq hfit]
  rfl

theorem fire_eq (h : net.Owns m) (hfit : net.FitsWords m) (t : Datum) :
    net.fire t m.toDatum = (net.transitionIndex t >>= fun j =>
      .ok (((net.weights.get j).fire? net.capacity (net.wordsOf m)).map net.markingOfWords)) := by
  rw [fire, step_eq h hfit]
  cases net.transitionIndex t <;> rfl

theorem revert_eq (h : net.Owns m) (hfit : net.FitsWords m) (t : Datum) :
    net.revert m.toDatum t = (net.transitionIndex t >>= fun j =>
      .ok (((net.weights.get j).revert? net.capacity (net.wordsOf m)).map net.markingOfWords)) := by
  rw [revert, step_eq h hfit]
  cases net.transitionIndex t <;> rfl

theorem isEnabled_eq (h : net.Owns m) (hfit : net.FitsWords m) (t : Datum) :
    net.isEnabled t m.toDatum = (net.transitionIndex t >>= fun j =>
      .ok (decide ((net.weights.get j).Enabled (net.wordsOf m)))) := by
  rw [isEnabled, step_eq h hfit]
  cases net.transitionIndex t <;> rfl

end Net

end Petri
