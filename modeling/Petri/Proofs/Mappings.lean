import Petri.Proofs.Capacities

/-!
# Mappings and markings

A mapping has entries, and all that a net makes of it depends on them: on the names among its keys and on the
last value under each place. This file says which mappings a net accepts and what marking it makes of them, and
the other way round what is found in a marking of a net under a name:

> `marking_eq_ok_iff`: the keys are the places, and the marking holds the number under every place;
> `accepted_iff`: there is such a marking if every number lies within capacity;
> `Owns.lookup?_eq`, `Owns.lookup?_eq_none`: a marking is read by name.
-/

namespace Petri

/-! ## Lists that are the same item by item -/

theorem getElem_beq_of_list_beq {xs ys : List Datum} (h : (xs == ys) = true) {i : Nat} (hi : i < xs.length)
    (hi' : i < ys.length) : (xs[i] == ys[i]) = true := by
  induction xs generalizing ys i with
  | nil => exact absurd hi (Nat.not_lt_zero i)
  | cons x xs ih =>
    cases ys with
    | nil => exact absurd hi' (Nat.not_lt_zero i)
    | cons y ys =>
      rw [List.cons_beq_cons, Bool.and_eq_true] at h
      cases i with
      | zero => exact h.1
      | succ i => exact ih h.2 (Nat.lt_of_succ_lt_succ hi) (Nat.lt_of_succ_lt_succ hi')

/-- What is the same as distinct items, one by one, is distinct. -/
theorem Distinct.of_list_beq {xs ys : List Datum} (h : Distinct ys) (hsame : (xs == ys) = true) :
    Distinct xs := by
  have hlen := length_eq_of_beq hsame
  refine List.pairwise_iff_getElem.mpr fun i j hi hj hlt => Bool.eq_false_iff.mpr fun hij => ?_
  have hother := List.pairwise_iff_getElem.mp h i j (by omega) (by omega) hlt
  have hleft : (ys[i] == xs[i]) = true := BEq.symm (getElem_beq_of_list_beq hsame hi (by omega))
  have hright := getElem_beq_of_list_beq hsame hj (by omega)
  rw [BEq.trans hleft (BEq.trans hij hright)] at hother
  cases hother

/-! ## Entries -/

namespace Datum

variable {x key other v : Datum} {es : List (Datum × Datum)}

theorem entries_eq_ok : x.entries = .ok es ↔ x = .dict es ∨ x = .marking es := by
  cases x <;> simp [entries]

theorem items_of_entries (h : x.entries = .ok es) : x.items = .ok (es.map (·.1)) := by
  rcases entries_eq_ok.mp h with rfl | rfl <;> rfl

theorem contains_of_entries (h : x.entries = .ok es) (hkey : key.hashable = true) :
    x.contains key = .ok (es.any (·.1 == key), x) := by
  rcases entries_eq_ok.mp h with rfl | rfl <;> rw [contains, requireHashable_eq_ok.mpr hkey] <;> rfl

theorem valueAt_of_entries (h : x.entries = .ok es) (hkey : key.hashable = true) :
    x.valueAt key = .ok v ↔ lastValue? es key = some v := by
  rcases entries_eq_ok.mp h with rfl | rfl <;> rw [valueAt, requireHashable_eq_ok.mpr hkey, ok_bind] <;>
    cases lastValue? es key <;> simp [pure, Except.pure, throw, throwThe, MonadExceptOf.throw]

/-- Nothing stands under a key exactly if it is not there, in any spelling. -/
theorem lastValue?_eq_none_iff : lastValue? es key = none ↔ ∀ e ∈ es, (e.1 == key) = false := by
  rw [lastValue?, Option.map_eq_none_iff, List.findRev?_eq_find?_reverse, List.find?_eq_none]
  simp only [List.mem_reverse, Bool.not_eq_true]

/-- Under two spellings of a key stands the same. -/
theorem lastValue?_congr (h : (key == other) = true) : lastValue? es key = lastValue? es other := by
  have hfun : (fun e : Datum × Datum => e.1 == key) = fun e => e.1 == other := by
    funext e
    exact Bool.eq_iff_iff.mpr ⟨fun he => BEq.trans he h, fun he => BEq.trans he (BEq.symm h)⟩
  rw [lastValue?, lastValue?, hfun]

end Datum

namespace Capacity

theorem describes_of_entries {x : Datum} {es : List (Datum × Datum)} (hx : x.entries = .ok es)
    (hkeys : ∀ e ∈ es, e.1.hashable = true) : Describes x es := by
  rcases Datum.entries_eq_ok.mp hx with rfl | rfl
  · exact .dict hkeys
  · exact .marking hkeys

theorem numberUnder?_eq_some {es : List (Datum × Datum)} {key : Datum} {k : Int} :
    numberUnder? es key = some k ↔ Datum.lastValue? es key = some (.int k) := by
  rw [numberUnder?, Option.bind_eq_some_iff]
  simp only [Datum.asInt?_eq_some, exists_eq_right]

theorem numberUnder?_congr {es : List (Datum × Datum)} {key other : Datum} (h : (key == other) = true) :
    numberUnder? es key = numberUnder? es other := by
  rw [numberUnder?, numberUnder?, Datum.lastValue?_congr h]

end Capacity

namespace Net

open Capacity (KeysMatch numberUnder?)

variable {net : Net} {m : Marking} {x : Datum} {es : List (Datum × Datum)}

/-! ## Mappings that a net accepts -/

theorem missingFrom_of_entries (hx : x.entries = .ok es) : ∀ {ps : List Datum},
    (∀ p ∈ ps, p.hashable = true) → missingFrom x ps = .ok (ps.filter fun p => !es.any (·.1 == p), x) := by
  intro ps
  induction ps with
  | nil => intro _; rfl
  | cons p ps ih =>
    intro hhash
    have hcontains := Datum.contains_of_entries hx (hhash p List.mem_cons_self)
    have hrest := ih fun q hq => hhash q (List.mem_cons_of_mem _ hq)
    simp only [missingFrom, hcontains, hrest, ok_bind, List.filter_cons]
    cases es.any (·.1 == p) <;> rfl

theorem extraIn_of_entries (hx : x.entries = .ok es) (hkeys : Datum.allHashable (es.map (·.1)) = true) :
    net.extraIn x = .ok ((es.map (·.1)).filter fun k => !net.places.any (· == k)) := by
  rw [extraIn, Datum.items_of_entries hx, ok_bind, if_pos hkeys]
  rfl

/-- No place is missing and nothing else is there exactly if the keys are the places. -/
theorem keysMatch_iff : ((net.places.filter fun p => !es.any (·.1 == p)).isEmpty &&
    ((es.map (·.1)).filter fun k => !net.places.any (· == k)).isEmpty) = true ↔ KeysMatch net.places es := by
  rw [Bool.and_eq_true, List.isEmpty_iff, List.isEmpty_iff, List.filter_eq_nil_iff, List.filter_eq_nil_iff]
  constructor
  · intro h
    refine ⟨fun p hp => ?_, fun e he => ?_⟩
    · simpa using h.1 p hp
    · simpa using h.2 e.1 (List.mem_map_of_mem he)
  · intro h
    refine ⟨fun p hp => by simpa using h.covered p hp, fun k hk => ?_⟩
    obtain ⟨e, he, rfl⟩ := List.mem_map.mp hk
    simpa using h.declared e he

theorem checkedCount_eq_ok_iff (hb : net.Built) (hx : x.entries = .ok es) {p : Fin net.places.length}
    {v : Datum} : net.checkedCount x p = .ok v ↔
      ∃ k : Int, v = .int k ∧ numberUnder? es (net.places.get p) = some k ∧ 0 ≤ k ∧ k ≤ net.capacityAt p := by
  have hvalue := fun v => Datum.valueAt_of_entries (v := v) hx (hb.hashable _ (List.get_mem net.places p))
  constructor
  · intro h
    obtain ⟨k, rfl, hrange⟩ := checkedCount_eq_ok h
    obtain ⟨c, hc, h⟩ := bind_eq_ok.mp h
    refine ⟨k, rfl, ?_, hrange⟩
    -- what was checked is what stands under the place
    have hsame : c.asInt? = some k := by
      split at h
      next => exact absurd h (Fault.raise_ne_ok _ _)
      next n hn =>
        split at h
        next =>
          obtain rfl := pure_eq_ok.mp h
          rfl
        next => exact absurd h (Fault.raise_ne_ok _ _)
    rw [numberUnder?, (hvalue c).mp (liftM_eq_ok.mp hc), Option.bind_some, hsame]
  · intro h
    obtain ⟨k, rfl, hnumber, hrange⟩ := h
    rw [checkedCount, (hvalue _).mpr (Capacity.numberUnder?_eq_some.mp hnumber)]
    exact if_pos hrange

/-- The keys are looked at before the counts. -/
theorem marking_eq (hb : net.Built) (hx : x.entries = .ok es) (hkeys : Datum.allHashable (es.map (·.1)) = true) :
    net.marking x = if KeysMatch net.places es then
        (List.finRange net.places.length).mapM (net.checkedCount x) >>= fun counts =>
          .ok ⟨net.places.zip counts⟩
      else (Fault.markingKeys (net.places.filter fun p => !es.any (·.1 == p))
        ((es.map (·.1)).filter fun k => !net.places.any (· == k))).raise := by
  rw [marking, missingFrom_of_entries hx hb.hashable, liftM_ok, ok_bind]
  simp only [extraIn_of_entries hx hkeys, liftM_ok, ok_bind, keysMatch_iff]
  split
  next => rfl
  next => exact Fault.raise_bind _ _

theorem marking_eq_ok_iff_counts (hb : net.Built) (hx : x.entries = .ok es) : net.marking x = .ok m ↔
    Datum.allHashable (es.map (·.1)) = true ∧ KeysMatch net.places es ∧ ∃ counts,
      (List.finRange net.places.length).mapM (net.checkedCount x) = .ok counts ∧
        ⟨net.places.zip counts⟩ = m := by
  by_cases hkeys : Datum.allHashable (es.map (·.1)) = true
  · rw [marking_eq hb hx hkeys, and_iff_right hkeys]
    by_cases hmatch : KeysMatch net.places es
    · rw [if_pos hmatch, and_iff_right hmatch, bind_eq_ok]
      simp only [Except.ok.injEq]
    · rw [if_neg hmatch]
      exact ⟨fun h => absurd h (Fault.raise_ne_ok _ _), fun h => absurd h.1 hmatch⟩
  · have hrefused : ∀ m, net.marking x ≠ .ok m := by
      intro m h
      obtain ⟨⟨_, rest⟩, hrest, h⟩ := bind_eq_ok.mp h
      rw [missingFrom_of_entries hx hb.hashable, liftM_ok] at hrest
      obtain rfl := (Prod.mk.inj (Except.ok.inj hrest)).2
      obtain ⟨_, hextra, _⟩ := bind_eq_ok.mp h
      rw [extraIn, Datum.items_of_entries hx, ok_bind, if_neg hkeys] at hextra
      cases hextra
    exact ⟨fun h => absurd h (hrefused m), fun h => absurd h.1 hkeys⟩

/-- The count of a place is the number that stands under it. -/
theorem tokens_of_checkedCounts (hb : net.Built) (hx : x.entries = .ok es) {counts : List Datum}
    (h : (List.finRange net.places.length).mapM (net.checkedCount x) = .ok counts)
    (p : Fin net.places.length) :
    numberUnder? es (net.places.get p) = some ((⟨net.places.zip counts⟩ : Marking).tokens p) := by
  rw [mapM_eq_ok] at h
  have hlen : counts.length = net.places.length := by
    simpa using (congrArg List.length h).symm
  have hsame : (⟨net.places.zip counts⟩ : Marking).counts = counts :=
    List.map_snd_zip (by omega)
  have hp : (p : Nat) < counts.length := by
    rw [hlen]
    exact p.isLt
  have hcheck : net.checkedCount x p = .ok counts[(p : Nat)] := by
    have hpoint := congrArg (fun l => l[(p : Nat)]?) h
    simpa [hp] using hpoint
  obtain ⟨k, hk, hnumber, _⟩ := (checkedCount_eq_ok_iff hb hx).mp hcheck
  rw [hnumber, Marking.tokens, hsame, List.getElem?_eq_getElem hp, hk]
  rfl

/-- **What a net makes of a mapping.** The keys must be the places, and the marking holds the numbers that stand
under them. -/
theorem marking_eq_ok_iff (hb : net.Built) (hx : x.entries = .ok es) : net.marking x = .ok m ↔
    Datum.allHashable (es.map (·.1)) = true ∧ KeysMatch net.places es ∧ net.Valid m ∧
      ∀ p, numberUnder? es (net.places.get p) = some (m.tokens p) := by
  constructor
  · intro h
    have hvalid := valid_of_marking h
    obtain ⟨hkeys, hmatch, counts, hcounts, rfl⟩ := (marking_eq_ok_iff_counts hb hx).mp h
    exact ⟨hkeys, hmatch, hvalid, tokens_of_checkedCounts hb hx hcounts⟩
  · intro h
    obtain ⟨hkeys, hmatch, hvalid, hnumbers⟩ := h
    have hcounts : (List.finRange net.places.length).mapM (net.checkedCount x) = .ok m.counts := by
      rw [mapM_eq_ok, hvalid.owns.counts_eq, List.finRange, List.map_ofFn, List.map_ofFn]
      congr 1
      funext p
      exact (checkedCount_eq_ok_iff hb hx).mpr ⟨_, rfl, hnumbers p, hvalid.within p⟩
    have hlen := hvalid.owns.length_counts
    refine (marking_eq_ok_iff_counts hb hx).mpr ⟨hkeys, hmatch, m.counts, hcounts, Marking.ext_parts ?_ ?_⟩
    · rw [hvalid.places]
      exact List.map_fst_zip (Nat.le_of_eq hlen.symm)
    · exact List.map_snd_zip (Nat.le_of_eq hlen)

/-- The mapping has exactly the places as keys, and under each of them stands a number within capacity. -/
structure Admits (net : Net) (es : List (Datum × Datum)) : Prop where
  hashable : Datum.allHashable (es.map (·.1)) = true
  keys : KeysMatch net.places es
  within : ∀ p, ∃ k, numberUnder? es (net.places.get p) = some k ∧ 0 ≤ k ∧ k ≤ net.capacityAt p

theorem accepted_iff (hb : net.Built) (hx : x.entries = .ok es) :
    (∃ m, net.marking x = .ok m) ↔ net.Admits es := by
  constructor
  · intro h
    obtain ⟨m, h⟩ := h
    obtain ⟨hkeys, hmatch, hvalid, hnumbers⟩ := (marking_eq_ok_iff hb hx).mp h
    exact ⟨hkeys, hmatch, fun p => ⟨_, hnumbers p, hvalid.within p⟩⟩
  · intro h
    -- numbers within capacity are words, so that the marking can be made from words
    let words : Vector Int64 net.places.length :=
      Vector.ofFn fun p => Int64.ofInt ((numberUnder? es (net.places.get p)).getD 0)
    have htokens : ∀ p, numberUnder? es (net.places.get p) = some ((net.markingOfWords words).tokens p) := by
      intro p
      obtain ⟨k, hk, h0, hcap⟩ := h.within p
      have hmost : net.capacityAt p ≤ mostTokens := Weights.toInt_le_most _
      rw [mostTokens_eq] at hmost
      have hword : words.get p = Int64.ofInt k := by
        rw [Weights.get_ofFn, hk, Option.getD_some]
      rw [hk, tokens_markingOfWords, hword, Int64.toInt_ofInt_of_le (by omega) (by omega)]
    refine ⟨_, (marking_eq_ok_iff hb hx).mpr ⟨h.hashable, h.keys, ⟨owns_markingOfWords words,
      places_markingOfWords words, fun p => ?_⟩, htokens⟩⟩
    obtain ⟨k, hk, hrange⟩ := h.within p
    rw [htokens p] at hk
    rw [Option.some.inj hk]
    exact hrange

/-! ## Mappings that a net refuses -/

/-- The value is a place of the net or its capacity, or a key or a value of an entry. -/
def Involves (net : Net) (es : List (Datum × Datum)) (y : Datum) : Prop :=
  Capacity.Involves net.places es y ∨ ∃ p, y = .int (net.capacityAt p)

/-- Capacities can always be written. -/
theorem Involves.writable {y : Datum} (h : net.Involves es y) (hplaces : ∀ p ∈ net.places, p.Writable)
    (hentries : ∀ e ∈ es, e.1.Writable ∧ e.2.Writable) : y.Writable := by
  rcases h with h | ⟨p, rfl⟩
  · exact h.writable hplaces hentries
  · exact Datum.writable_int_of_word (Int64.le_toInt _) (Int64.toInt_le _)

/-- A count that is not accepted is refused with what stands under the place. -/
theorem checkedCount_refused (hx : x.entries = .ok es) (hkeys : ∀ e ∈ es, e.1.hashable = true) (hb : net.Built)
    (hmatch : KeysMatch net.places es) {p : Fin net.places.length} (h : ∀ v, net.checkedCount x p ≠ .ok v) :
    Refused (net.checkedCount x p) .marking (net.Involves es) := by
  have hplace : net.places.get p ∈ net.places := List.get_mem _ _
  obtain ⟨v, hlast, hv⟩ := (Capacity.describes_of_entries hx hkeys).valueAt_eq (hb.hashable _ hplace)
    (hmatch.covered _ hplace)
  obtain ⟨e, he, rfl⟩ := Capacity.mem_of_lastValue? hlast
  rw [checkedCount, hv, liftM_ok, ok_bind] at h ⊢
  split
  next =>
    refine Fault.refused rfl fun y hy => .inl ?_
    rcases List.mem_cons.mp hy with rfl | hy
    · exact .inl hplace
    · exact .inr ⟨e, he, .inr (List.mem_singleton.mp hy)⟩
  next n hn =>
    have hnumber : e.2 = .int n := Datum.asInt?_eq_some.mp hn
    split
    next hrange =>
      rw [hn] at h
      exact absurd (if_pos hrange) (h e.2)
    next =>
      refine Fault.refused rfl fun y hy => ?_
      simp only [Fault.shown, List.mem_cons, List.not_mem_nil, or_false] at hy
      rcases hy with rfl | rfl | rfl
      · exact .inl (.inr ⟨e, he, .inr hnumber.symm⟩)
      · exact .inl (.inl hplace)
      · exact .inr ⟨p, rfl⟩

/-- A mapping that is refused is refused as no marking. Every value under a place is there, so that nothing fails but a
check. -/
theorem marking_refused (hb : net.Built) (hx : x.entries = .ok es) (hkeys : ∀ e ∈ es, e.1.hashable = true)
    (h : ∀ m, net.marking x ≠ .ok m) : Refused (net.marking x) .marking (net.Involves es) := by
  have hhash : Datum.allHashable (es.map (·.1)) = true := by
    rw [Datum.allHashable_iff, List.forall_mem_map]
    exact hkeys
  rw [marking_eq hb hx hhash] at h ⊢
  split
  case isTrue hmatch =>
    cases hcounts : (List.finRange net.places.length).mapM (net.checkedCount x) with
    | ok counts =>
      rw [if_pos hmatch, hcounts] at h
      exact absurd rfl (h _)
    | error fault =>
      obtain ⟨p, _, hp⟩ := exists_of_mapM_eq_error hcounts
      have hcount : ∀ v, net.checkedCount x p ≠ .ok v := by
        rw [hp]
        simp
      exact ((checkedCount_refused hx hkeys hb hmatch hcount).of_error hp).bind _
  case isFalse =>
    refine Fault.refused rfl fun y hy => .inl ?_
    rcases List.mem_append.mp hy with hy | hy
    · exact .inl (List.mem_filter.mp hy).1
    · obtain ⟨e, he, rfl⟩ := List.mem_map.mp (List.mem_filter.mp hy).1
      exact .inr ⟨e, he, .inl rfl⟩

/-- A count that is too long to be written is out of range, and cannot be refused as that. -/
theorem marking_eq_noNumeral (hb : net.Built) (hx : x.entries = .ok es)
    (hkeys : Datum.allHashable (es.map (·.1)) = true) (hmatch : KeysMatch net.places es) {p : Fin net.places.length}
    {n : Int} (hnumber : numberUnder? es (net.places.get p) = some n) (hlong : ¬ (Datum.int n).Writable)
    (hbefore : ∀ q < p, ∃ v, net.checkedCount x q = .ok v) : net.marking x = .error (.value .noNumeral) := by
  have hrange : ¬ (0 ≤ n ∧ n ≤ net.capacityAt p) := by
    intro hrange
    have hmost : net.capacityAt p ≤ 9223372036854775807 := Int64.toInt_le _
    exact hlong (Datum.writable_int_of_word (by omega) (by omega))
  have hcount : net.checkedCount x p = .error (.value .noNumeral) := by
    have hvalue := (Datum.valueAt_of_entries hx (hb.hashable _ (List.get_mem _ p))).mpr
      (Capacity.numberUnder?_eq_some.mp hnumber)
    rw [checkedCount, hvalue, liftM_ok, ok_bind]
    show (if 0 ≤ n ∧ n ≤ net.capacityAt p then _ else _) = _
    rw [if_neg hrange]
    exact Fault.raise_of_not_worded rfl fun hworded => hlong (hworded _ List.mem_cons_self)
  obtain ⟨before, after, hsplit⟩ := List.append_of_mem (List.mem_finRange p)
  have hcounts : (List.finRange net.places.length).mapM (net.checkedCount x) = .error (.value .noNumeral) := by
    rw [hsplit]
    refine mapM_eq_error_of_first (fun q hq => hbefore q ?_) hcount
    have hascends := List.pairwise_lt_finRange net.places.length
    rw [hsplit] at hascends
    exact (List.pairwise_append.mp hascends).2.2 q hq p List.mem_cons_self
  rw [marking_eq hb hx hkeys, if_pos hmatch, hcounts, error_bind]

/-! ## Markings read by name -/

theorem Owns.lookup?_eq (hb : net.Built) (hm : net.Owns m) {p : Fin net.places.length} {place : Datum}
    (h : (net.places.get p == place) = true) : m.lookup? place = some (.int (m.tokens p)) := by
  have hlen : (p : Nat) < m.entries.length := by
    have hcounts := hm.length_counts
    rw [Marking.counts, List.length_map] at hcounts
    rw [hcounts]
    exact p.isLt
  have hdistinct : Distinct (m.entries.map (·.1)) := Distinct.of_list_beq hb.distinct hm.places
  have hplace : (m.entries[(p : Nat)].1 == net.places.get p) = true := by
    have hpoint := getElem_beq_of_list_beq hm.places (i := p) (by simpa [Marking.places] using hlen) p.isLt
    simpa [Marking.places] using hpoint
  have hcount : m.entries[(p : Nat)].2 = .int (m.tokens p) := by
    have hpoint := congrArg (fun l => l[(p : Nat)]?) hm.counts_eq
    simpa [Marking.counts, hlen] using hpoint
  rw [Marking.lookup?, ← Datum.lastValue?_congr (BEq.trans hplace h), ← hcount]
  exact lastValue?_of_mem hdistinct (List.getElem_mem hlen)

theorem Owns.lookup?_eq_none (hm : net.Owns m) {place : Datum}
    (h : ∀ p, ¬ (net.places.get p == place) = true) : m.lookup? place = none := by
  refine Datum.lastValue?_eq_none_iff.mpr fun e he => Bool.eq_false_iff.mpr fun hsame => ?_
  obtain ⟨i, hi, rfl⟩ := List.mem_iff_getElem.mp he
  have hlen : i < net.places.length := by
    have hcounts := hm.length_counts
    rw [Marking.counts, List.length_map] at hcounts
    omega
  have hpoint := getElem_beq_of_list_beq hm.places (i := i) (by simpa [Marking.places] using hi) hlen
  refine h ⟨i, hlen⟩ (BEq.trans (BEq.symm ?_) hsame)
  simpa [Marking.places] using hpoint

end Net

end Petri
