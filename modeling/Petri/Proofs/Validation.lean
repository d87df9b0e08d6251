import Petri.Net.Validation
import Petri.Proofs.Construction
import Petri.Proofs.Markings

/-!
# Markings that a net accepts

`Net.marking` checks a mapping of any kind: every place must be found, nothing else may be there, and every
count must be a whole number within capacity. What it accepts is described here by its result alone
(`Net.Valid`), and a valid marking is accepted again unchanged, so that the check can be repeated on the
results of steps:

> `valid_of_marking`: an accepted mapping gives a valid marking;
> `marking_of_valid`: over a built net a valid marking is accepted and comes back as it is.
-/

namespace Petri

namespace Datum

theorem asInt?_eq_some {x : Datum} {k : Int} : x.asInt? = some k ↔ x = .int k := by
  cases x <;> simp [asInt?]

theorem allHashable_iff {xs : List Datum} :
    allHashable xs = true ↔ ∀ x ∈ xs, x.hashable = true := by
  induction xs with
  | nil => simp [allHashable]
  | cons x xs ih => rw [allHashable, Bool.and_eq_true, ih, List.forall_mem_cons]

end Datum

namespace Net

/-- Every place holds a number of tokens from zero to its capacity. -/
def Within (net : Net) (m : Marking) : Prop :=
  ∀ p : Fin net.places.length, 0 ≤ m.tokens p ∧ m.tokens p ≤ net.capacityAt p

instance (net : Net) (m : Marking) : Decidable (net.Within m) :=
  inferInstanceAs (Decidable (∀ p : Fin net.places.length, 0 ≤ m.tokens p ∧ m.tokens p ≤ net.capacityAt p))

/-- `m` has the very places of the net and holds at every place a whole number within capacity. -/
structure Valid (net : Net) (m : Marking) : Prop where
  owns : net.Owns m
  places : m.places = net.places
  within : net.Within m

variable {net : Net} {m : Marking}

theorem Valid.inRange (h : net.Valid m) : net.InRange m := by
  intro p
  obtain ⟨h0, h1⟩ := h.within p
  exact ⟨h0, Int.le_trans h1 (Weights.toInt_le_most _)⟩

theorem checkedCount_eq_ok {x v : Datum} {p : Fin net.places.length}
    (h : net.checkedCount x p = .ok v) :
    ∃ k : Int, v = .int k ∧ 0 ≤ k ∧ k ≤ net.capacityAt p := by
  unfold checkedCount at h
  obtain ⟨c, _, h⟩ := bind_eq_ok.mp h
  split at h
  next => exact absurd h (Fault.raise_ne_ok _ _)
  next k hk =>
    split at h
    next hrange =>
      obtain rfl := pure_eq_ok.mp h
      exact ⟨k, Datum.asInt?_eq_some.mp hk, hrange⟩
    next => exact absurd h (Fault.raise_ne_ok _ _)

theorem valid_of_checkedCounts {x : Datum} {counts : List Datum}
    (h : (List.finRange net.places.length).map (net.checkedCount x) = counts.map .ok) :
    net.Valid ⟨net.places.zip counts⟩ := by
  have hlen : counts.length = net.places.length := by simpa using (congrArg List.length h).symm
  have hplaces : (⟨net.places.zip counts⟩ : Marking).places = net.places :=
    List.map_fst_zip (by omega)
  have hcounts : (⟨net.places.zip counts⟩ : Marking).counts = counts :=
    List.map_snd_zip (by omega)
  have hat : ∀ (i : Nat) (hi : i < net.places.length),
      ∃ k : Int, counts[i]? = some (.int k) ∧ 0 ≤ k ∧ k ≤ net.capacityAt ⟨i, hi⟩ := by
    intro i hi
    have hi' : i < counts.length := by omega
    have hpoint := congrArg (fun l => l[i]?) h
    simp only [List.getElem?_map, List.getElem?_eq_getElem hi',
      List.getElem?_eq_getElem (show i < (List.finRange net.places.length).length by simpa using hi),
      List.getElem_finRange, Option.map_some] at hpoint
    obtain ⟨k, hk, hrange⟩ := checkedCount_eq_ok (Option.some.inj hpoint)
    exact ⟨k, by rw [List.getElem?_eq_getElem hi', hk], hrange⟩
  refine ⟨⟨by rw [hplaces]; exact BEq.rfl, ?_⟩, hplaces, ?_⟩
  · intro c hc
    rw [hcounts] at hc
    obtain ⟨i, hi, rfl⟩ := List.mem_iff_getElem.mp hc
    obtain ⟨k, hk, _⟩ := hat i (by omega)
    rw [List.getElem?_eq_getElem hi] at hk
    exact ⟨k, Option.some.inj hk⟩
  · intro p
    obtain ⟨k, hk, hrange⟩ := hat p p.isLt
    rw [Marking.tokens, hcounts, hk]
    exact hrange

/-- **An accepted mapping gives a valid marking.** -/
theorem valid_of_marking {x : Datum} (h : net.marking x = .ok m) : net.Valid m := by
  unfold marking at h
  obtain ⟨⟨missing, rest⟩, _, h⟩ := bind_eq_ok.mp h
  obtain ⟨extra, _, h⟩ := bind_eq_ok.mp h
  simp only at h
  split at h
  next =>
    obtain ⟨counts, hcounts, h⟩ := bind_eq_ok.mp h
    obtain rfl := pure_eq_ok.mp h
    exact valid_of_checkedCounts ((mapM_eq_ok _ _ _).mp hcounts)
  next =>
    obtain ⟨_, hraise, _⟩ := bind_eq_ok.mp h
    exact absurd hraise (Fault.raise_ne_ok _ _)

/-! ## Accepted again -/

/-- Among entries under distinct keys each is found by its key. -/
theorem lastValue?_of_mem {es : List (Datum × Datum)} {e : Datum × Datum}
    (hdistinct : (es.map (·.1)).Pairwise (fun y x => (y == x) = false)) (he : e ∈ es) :
    Datum.lastValue? es e.1 = some e.2 := by
  have hfind : es.findRev? (fun f => f.1 == e.1) = some e := by
    induction es with
    | nil => cases he
    | cons f es ih =>
      rw [List.map_cons, List.pairwise_cons] at hdistinct
      rw [List.findRev?]
      rcases List.mem_cons.mp he with rfl | he
      · -- no later key is the same, so that the search comes back to the first entry
        have hlater : es.findRev? (fun f => f.1 == e.1) = none := by
          rw [List.findRev?_eq_find?_reverse, List.find?_eq_none]
          intro f hf hsame
          have hne := hdistinct.1 f.1 (List.mem_map_of_mem (List.mem_reverse.mp hf))
          rw [BEq.symm hsame] at hne
          cases hne
        rw [hlater, BEq.rfl]
        rfl
      · rw [ih hdistinct.2 he]
  rw [Datum.lastValue?, hfind]
  rfl

/-- No place is missing from a mapping that has all of them as keys. -/
theorem missingFrom_marking {es : List (Datum × Datum)} : ∀ {ps : List Datum},
    (∀ p ∈ ps, p.hashable = true ∧ es.any (·.1 == p) = true) →
      missingFrom (.marking es) ps = .ok ([], .marking es) := by
  intro ps
  induction ps with
  | nil => intro _; rfl
  | cons p ps ih =>
    intro h
    obtain ⟨hhash, hfound⟩ := h p List.mem_cons_self
    have hcontains : (Datum.marking es).contains p = .ok (true, .marking es) := by
      rw [Datum.contains, Datum.requireHashable_eq_ok.mpr hhash, hfound]
      rfl
    have hrest := ih fun q hq => h q (List.mem_cons_of_mem _ hq)
    simp only [missingFrom, hcontains, hrest, ok_bind]
    rfl

theorem checkedCount_of_valid (hb : net.Built) (h : net.Valid m) (p : Fin net.places.length) :
    net.checkedCount m.toDatum p = .ok (.int (m.tokens p)) := by
  have hkeys : m.entries.map (·.1) = net.places := h.places
  have hp : net.places.get p ∈ net.places := List.get_mem _ _
  -- the entry of a place stands at its position, and no later one has the same key
  have hentry : ∃ e ∈ m.entries, e.1 = net.places.get p ∧ e.2 = .int (m.tokens p) := by
    have hsize : m.entries.length = net.places.length := by rw [← hkeys, List.length_map]
    have hlen : (p : Nat) < m.entries.length := by
      rw [hsize]
      exact p.isLt
    refine ⟨m.entries[(p : Nat)], List.getElem_mem hlen, ?_, ?_⟩
    · simp [← hkeys]
    · have hcount := congrArg (fun l => l[(p : Nat)]?) h.owns.counts_eq
      simpa [Marking.counts, hlen] using hcount
  obtain ⟨e, he, hplace, hvalue⟩ := hentry
  have hlast : Datum.lastValue? m.entries (net.places.get p) = some (.int (m.tokens p)) := by
    rw [← hplace, ← hvalue]
    exact lastValue?_of_mem (hkeys ▸ hb.distinct) he
  have hvalueAt : m.toDatum.valueAt (net.places.get p) = .ok (.int (m.tokens p)) := by
    rw [Marking.toDatum, Datum.valueAt, Datum.requireHashable_eq_ok.mpr (hb.hashable _ hp), hlast]
    rfl
  rw [checkedCount, hvalueAt]
  show (if 0 ≤ m.tokens p ∧ m.tokens p ≤ net.capacityAt p then _ else _) = _
  rw [if_pos (h.within p)]
  rfl

/-- **A valid marking is accepted again and comes back as it is.** -/
theorem marking_of_valid (hb : net.Built) (h : net.Valid m) : net.marking m.toDatum = .ok m := by
  have hkeys : m.entries.map (·.1) = net.places := h.places
  have hmissing : missingFrom m.toDatum net.places = .ok ([], m.toDatum) := by
    refine missingFrom_marking fun p hp => ⟨hb.hashable p hp, ?_⟩
    have hp' : p ∈ m.entries.map (·.1) := hkeys ▸ hp
    obtain ⟨e, he, rfl⟩ := List.mem_map.mp hp'
    exact List.any_eq_true.mpr ⟨e, he, BEq.rfl⟩
  have hextra : net.extraIn m.toDatum = .ok [] := by
    have hitems : m.toDatum.items = .ok net.places := by
      rw [Marking.toDatum, Datum.items, hkeys]
    have hnone : (net.places.filter fun k => !net.places.any (· == k)) = [] := by
      rw [List.filter_eq_nil_iff]
      intro k hk hno
      rw [Bool.not_eq_true', List.any_eq_false] at hno
      exact hno k hk BEq.rfl
    rw [extraIn, hitems, ok_bind, if_pos (Datum.allHashable_iff.mpr hb.hashable), hnone]
    rfl
  have hcounts : (List.finRange net.places.length).mapM (net.checkedCount m.toDatum)
      = .ok m.counts := by
    rw [mapM_eq_ok, h.owns.counts_eq, List.finRange, List.map_ofFn, List.map_ofFn]
    congr 1
    funext p
    exact checkedCount_of_valid hb h p
  have hresult : (⟨net.places.zip m.counts⟩ : Marking) = m := by
    refine Marking.ext_parts ?_ ?_
    · rw [h.places]
      exact List.map_fst_zip (Nat.le_of_eq h.owns.length_counts.symm)
    · exact List.map_snd_zip (Nat.le_of_eq h.owns.length_counts)
  rw [marking, hmissing, liftM_ok, ok_bind]
  simp only [hextra, liftM_ok, ok_bind, hcounts, List.isEmpty_nil, Bool.and_self, if_true, hresult]
  rfl

theorem valid_iff_accepted (hb : net.Built) : net.Valid m ↔ net.marking m.toDatum = .ok m :=
  ⟨marking_of_valid hb, valid_of_marking⟩

end Net

end Petri
