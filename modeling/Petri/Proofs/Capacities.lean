import Petri.Proofs.Labels
import Petri.Proofs.Sameness
import Petri.Proofs.Validation

/-!
# Described capacities

Capacities are described by a mapping or not at all. A mapping stands for its entries (`Capacity.Describes`), of
which the last one under a place counts (`numberUnder?`). Without entries all places get the default; otherwise
the keys must be the places and every value a whole number from zero, before any of them becomes a word:

> `resolve_default`: without entries the default is the capacity of every place;
> `resolve_refused`: keys or values that do not match are refused with a fault of their class;
> `resolve_too_large`, `resolve_explicit`: otherwise a value that is no word is refused, and if all of them are
> words, they are the capacities.
-/

namespace Petri

namespace Capacity

/-- The value `described` has the entries `es`: it is a mapping whose keys can be looked up, or no value at all,
which has none. -/
inductive Describes : (described : Datum) → (es : List (Datum × Datum)) → Prop
  | absent : Describes .null []
  | dict {es : List (Datum × Datum)} : (∀ e ∈ es, e.1.hashable = true) → Describes (.dict es) es
  | marking {es : List (Datum × Datum)} : (∀ e ∈ es, e.1.hashable = true) → Describes (.marking es) es

/-- The whole number that stands under a key. -/
def numberUnder? (es : List (Datum × Datum)) (key : Datum) : Option Int :=
  (Datum.lastValue? es key).bind Datum.asInt?

/-- The keys are the places, in whatever spelling. -/
structure KeysMatch (places : List Datum) (es : List (Datum × Datum)) : Prop where
  covered : ∀ p ∈ places, es.any (·.1 == p) = true
  declared : ∀ e ∈ es, places.any (· == e.1) = true

/-- The keys are not the places, or under some place there is no whole number from zero. -/
def Mismatches (places : List Datum) (es : List (Datum × Datum)) : Prop :=
  ¬ KeysMatch places es ∨ ∃ p ∈ places, ∀ n, numberUnder? es p = some n → n < 0

/-- Under some place there is a number that is too large for a word. -/
def Exceeds (places : List Datum) (es : List (Datum × Datum)) : Prop :=
  ∃ p ∈ places, ∃ n, numberUnder? es p = some n ∧ mostTokens < n

/-- The value is a place, or a key or a value of an entry. -/
def Involves (places : List Datum) (es : List (Datum × Datum)) (x : Datum) : Prop :=
  x ∈ places ∨ ∃ e ∈ es, x = e.1 ∨ x = e.2

theorem Involves.writable {places : List Datum} {es : List (Datum × Datum)} {x : Datum} (h : Involves places es x)
    (hplaces : ∀ p ∈ places, p.Writable) (hentries : ∀ e ∈ es, e.1.Writable ∧ e.2.Writable) : x.Writable := by
  rcases h with hp | ⟨e, he, rfl | rfl⟩
  · exact hplaces x hp
  · exact (hentries e he).1
  · exact (hentries e he).2

variable {described default p : Datum} {es : List (Datum × Datum)} {places : List Datum}

instance : Decidable (KeysMatch places es) :=
  decidable_of_iff ((∀ p ∈ places, es.any (·.1 == p) = true) ∧ ∀ e ∈ es, places.any (· == e.1) = true)
    ⟨fun h => ⟨h.1, h.2⟩, fun h => ⟨h.covered, h.declared⟩⟩

instance : Decidable (∀ n, numberUnder? es p = some n → n < 0) :=
  inferInstanceAs (Decidable (∀ n ∈ numberUnder? es p, n < 0))

instance : Decidable (∃ n, numberUnder? es p = some n ∧ mostTokens < n) :=
  inferInstanceAs (Decidable (∃ n ∈ numberUnder? es p, mostTokens < n))

instance : Decidable (Mismatches places es) :=
  inferInstanceAs (Decidable (_ ∨ _))

instance : Decidable (Exceeds places es) :=
  inferInstanceAs (Decidable (∃ p ∈ places, ∃ n, numberUnder? es p = some n ∧ mostTokens < n))

/-- With the right keys, nothing is wrong with the values exactly if all are words from zero. -/
theorem accepts_iff (hkeys : KeysMatch places es) : ¬ Mismatches places es ∧ ¬ Exceeds places es ↔
    ∀ p ∈ places, ∃ n, numberUnder? es p = some n ∧ 0 ≤ n ∧ n ≤ mostTokens := by
  constructor
  · intro h p hp
    obtain ⟨hmatch, hfits⟩ := h
    cases hnumber : numberUnder? es p with
    | none =>
      refine absurd (.inr ⟨p, hp, fun n hn => ?_⟩) hmatch
      rw [hnumber] at hn
      cases hn
    | some n =>
      refine ⟨n, rfl, Int.not_lt.mp fun hneg => hmatch (.inr ⟨p, hp, fun m hm => ?_⟩),
        Int.not_lt.mp fun hlarge => hfits ⟨p, hp, n, hnumber, hlarge⟩⟩
      obtain rfl := Option.some.inj (hm.symm.trans hnumber)
      exact hneg
  · intro h
    constructor
    · intro hbad
      rcases hbad with hno | ⟨p, hp, hneg⟩
      · exact hno hkeys
      · obtain ⟨n, hn, hnonneg, _⟩ := h p hp
        have := hneg n hn
        omega
    · intro hlarge
      obtain ⟨p, hp, m, hm, hmost⟩ := hlarge
      obtain ⟨n, hn, _, hle⟩ := h p hp
      obtain rfl := Option.some.inj (hm.symm.trans hn)
      omega

theorem Describes.truthy_iff (h : Describes described es) : described.truthy = true ↔ es ≠ [] := by
  cases h with
  | absent => simp [Datum.truthy]
  | dict | marking => simp [Datum.truthy]

/-! ## Keys -/

/-- The keys without repetitions; none of them is lost. -/
theorem Describes.members_eq (h : Describes described es) (hsome : es ≠ []) :
    described.members = .ok (es.map (·.1)).eraseDups := by
  have hkeys : (∀ e ∈ es, e.1.hashable = true) → Datum.allHashable (es.map (·.1)) = true := by
    intro hhash
    rw [Datum.allHashable_iff]
    intro k hk
    obtain ⟨e, he, rfl⟩ := List.mem_map.mp hk
    exact hhash e he
  cases h with
  | absent => exact absurd rfl hsome
  | dict hhash | marking hhash =>
    rw [Datum.members, Datum.items, ok_bind, if_pos (hkeys hhash)]

/-- Names that do not match are put in order for the message, which fails where one of them cannot be written. -/
theorem refused_keys {given : Datum → Prop} {missing extra : List Datum}
    (hgiven : ∀ x ∈ missing ++ extra, given x) :
    Refused (do
        (Fault.capacityKeys (← Datum.sortByLabel missing) (← Datum.sortByLabel extra)).raise : Except Fault Unit)
      .capacityMismatch given := by
  by_cases hwritable : ∀ x ∈ missing ++ extra, x.Writable
  · obtain ⟨hmissing, hextra⟩ := List.forall_mem_append.mp hwritable
    obtain ⟨missing', hsorted, harranges⟩ := Datum.sortByLabel_eq hmissing
    obtain ⟨extra', hsorted', harranges'⟩ := Datum.sortByLabel_eq hextra
    rw [hsorted, hsorted', liftM_ok, ok_bind, liftM_ok, ok_bind]
    exact Fault.refused rfl fun x hx => hgiven x ((harranges.perm.append harranges'.perm).mem_iff.mp hx)
  · refine ⟨.capacityKeys missing extra, rfl, hgiven, fun hworded => absurd hworded hwritable, fun _ => ?_⟩
    by_cases hmissing : ∀ x ∈ missing, x.Writable
    · obtain ⟨missing', hsorted, _⟩ := Datum.sortByLabel_eq hmissing
      have hextra : ¬ ∀ x ∈ extra, x.Writable := fun hextra => hwritable (List.forall_mem_append.mpr ⟨hmissing, hextra⟩)
      rw [hsorted, Datum.sortByLabel_eq_error hextra]
      rfl
    · rw [Datum.sortByLabel_eq_error hmissing]
      rfl

theorem checkKeys_eq (h : Describes described es) (hsome : es ≠ []) :
    (KeysMatch places es → checkKeys places described = .ok ()) ∧
      (¬ KeysMatch places es → Refused (checkKeys places described) .capacityMismatch (Involves places es)) := by
  have hfound : ∀ k : Datum, (es.map (·.1)).eraseDups.any (· == k) = es.any (·.1 == k) := by
    intro k
    rw [any_eraseDups, List.any_map]
    rfl
  have hmissing : (places.filter fun p => !(es.map (·.1)).eraseDups.any (· == p)).isEmpty = true ↔
      ∀ p ∈ places, es.any (·.1 == p) = true := by
    simp only [List.isEmpty_iff, List.filter_eq_nil_iff, Bool.not_eq_true', Bool.not_eq_false, hfound]
  have hextra : ((es.map (·.1)).eraseDups.filter fun k => !places.any (· == k)).isEmpty = true ↔
      ∀ e ∈ es, places.any (· == e.1) = true := by
    simp only [List.isEmpty_iff, List.filter_eq_nil_iff, Bool.not_eq_true', Bool.not_eq_false]
    constructor
    · intro hall e he
      have hkey : e.1 ∈ es.map (·.1) := List.mem_map_of_mem he
      -- a key that is left out repeats one that is kept
      rcases mem_eraseDups_or _ hkey with hkept | ⟨k, hk, hsame⟩
      · exact hall _ hkept
      · rw [any_beq_congr hsame]
        exact hall k hk
    · intro hall k hk
      obtain ⟨e, he, rfl⟩ := List.mem_map.mp (mem_of_mem_eraseDups _ hk)
      exact hall e he
  have hmatch : ((places.filter fun p => !(es.map (·.1)).eraseDups.any (· == p)).isEmpty
      && ((es.map (·.1)).eraseDups.filter fun k => !places.any (· == k)).isEmpty) = true ↔
        KeysMatch places es := by
    rw [Bool.and_eq_true, hmissing, hextra]
    exact ⟨fun h => ⟨h.1, h.2⟩, fun h => ⟨h.covered, h.declared⟩⟩
  rw [checkKeys, h.members_eq hsome, liftM_ok, ok_bind]
  constructor
  · intro hkeys
    rw [if_pos (hmatch.mpr hkeys)]
    rfl
  · intro hkeys
    rw [if_neg fun hok => hkeys (hmatch.mp hok)]
    refine refused_keys fun x hx => ?_
    rcases List.mem_append.mp hx with hx | hx
    · exact .inl (List.mem_filter.mp hx).1
    · obtain ⟨e, he, rfl⟩ := List.mem_map.mp (mem_of_mem_eraseDups _ (List.mem_filter.mp hx).1)
      exact .inr ⟨e, he, .inl rfl⟩

/-! ## Values -/

/-- What is found under a key is the value of an entry. -/
theorem mem_of_lastValue? {v : Datum} (h : Datum.lastValue? es p = some v) : ∃ e ∈ es, e.2 = v := by
  rw [Datum.lastValue?, List.findRev?_eq_find?_reverse] at h
  obtain ⟨e, he, rfl⟩ := Option.map_eq_some_iff.mp h
  exact ⟨e, List.mem_reverse.mp (List.mem_of_find?_eq_some he), rfl⟩

theorem Describes.valueAt_eq (h : Describes described es) (hp : p.hashable = true)
    (hfound : es.any (·.1 == p) = true) :
    ∃ v, Datum.lastValue? es p = some v ∧ described.valueAt p = .ok v := by
  have hlast : (Datum.lastValue? es p).isSome = true := by
    rw [Datum.lastValue?, Option.isSome_map, List.findRev?_eq_find?_reverse, List.find?_isSome]
    obtain ⟨e, he, hsame⟩ := List.any_eq_true.mp hfound
    exact ⟨e, List.mem_reverse.mpr he, hsame⟩
  obtain ⟨v, hv⟩ := Option.isSome_iff_exists.mp hlast
  refine ⟨v, hv, ?_⟩
  cases h with
  | absent => cases hfound
  | dict | marking =>
    rw [Datum.valueAt, Datum.requireHashable_eq_ok.mpr hp, hv]
    rfl

theorem valueFor_eq (h : Describes described es) (hhash : ∀ p ∈ places, p.hashable = true)
    (hkeys : KeysMatch places es) (hp : p ∈ places) :
    (∀ n, numberUnder? es p = some n → 0 ≤ n → valueFor described p = .ok n) ∧
      ((∀ n, numberUnder? es p = some n → n < 0) →
        Refused (valueFor described p) .capacityMismatch (Involves places es)) := by
  obtain ⟨v, hlast, hvalue⟩ := h.valueAt_eq (hhash p hp) (hkeys.covered p hp)
  have hnumber : numberUnder? es p = v.asInt? := by
    rw [numberUnder?, hlast, Option.bind_some]
  have hrefused : Refused ((Fault.badCapacity p v).raise : Except Fault Int) .capacityMismatch
      (Involves places es) := by
    refine Fault.refused rfl fun x hx => ?_
    rcases List.mem_cons.mp hx with rfl | hx
    · exact .inl hp
    · obtain ⟨e, he, rfl⟩ := mem_of_lastValue? hlast
      exact .inr ⟨e, he, .inr (List.mem_singleton.mp hx)⟩
  rw [valueFor, hvalue, liftM_ok, ok_bind, hnumber]
  cases v.asInt? with
  | none => exact ⟨fun n hn => by simp at hn, fun _ => hrefused⟩
  | some k =>
    constructor
    · intro n hn hnonneg
      obtain rfl := Option.some.inj hn
      exact if_pos hnonneg
    · intro hneg
      have hk := hneg k rfl
      dsimp only
      rwa [if_neg (by omega)]

/-! ## All places -/

theorem resolve_default (h : Describes described []) {k : Int} (hdefault : default.toInt = .ok k)
    (hk : Datum.fitsWord k = true) :
    resolve places described default = .ok (Vector.replicate places.length (Int64.ofInt k)) := by
  have hfalsy : ¬ described.truthy = true := by
    rw [h.truthy_iff]
    simp
  rw [resolve, if_neg hfalsy, uniform, Datum.toWord, hdefault, ok_bind, Datum.wordOfInt, if_pos hk]
  rfl

theorem toInt_replicate {n : Nat} {k : Int} (h : Datum.fitsWord k = true) (p : Fin n) :
    ((Vector.replicate n (Int64.ofInt k)).get p).toInt = k := by
  obtain ⟨hleast, hmost⟩ := fitsWord_iff.mp h
  rw [mostTokens_eq] at hmost
  have hget : (Vector.replicate n (Int64.ofInt k)).get p = Int64.ofInt k := Vector.getElem_replicate p.isLt
  rw [hget, Int64.toInt_ofInt_of_le (by omega) (by omega)]

theorem resolve_refused (h : Describes described es) (hsome : es ≠ [])
    (hhash : ∀ p ∈ places, p.hashable = true) (hbad : Mismatches places es) :
    Refused (resolve places described default) .capacityMismatch (Involves places es) := by
  rw [resolve, if_pos (h.truthy_iff.mpr hsome), explicit]
  by_cases hkeys : KeysMatch places es
  · rcases hbad with hno | ⟨p, hp, hneg⟩
    · exact absurd hkeys hno
    have hrefused := (valueFor_eq h hhash hkeys hp).2 hneg
    obtain ⟨q, hq, e, he, herror⟩ := mapM_eq_error ⟨p, hp, hrefused.ne_ok⟩
    rw [(checkKeys_eq h hsome).1 hkeys, ok_bind, herror]
    -- the place that decides has a value as well, so its value is the reason
    have hnumber : ∀ n, numberUnder? es q = some n → n < 0 := by
      intro n hn
      refine Int.not_le.mp fun hnonneg => ?_
      rw [(valueFor_eq h hhash hkeys hq).1 n hn hnonneg] at he
      cases he
    exact (((valueFor_eq h hhash hkeys hq).2 hnumber).of_error he).bind _
  · exact ((checkKeys_eq h hsome).2 hkeys).bind _

/-- Descriptions that match have a whole number from zero under every place. -/
theorem values_of_matches (h : Describes described es) (hhash : ∀ p ∈ places, p.hashable = true)
    (hgood : ¬ Mismatches places es) :
    KeysMatch places es ∧
      (∀ p ∈ places, ∃ n, numberUnder? es p = some n ∧ 0 ≤ n) ∧
      places.mapM (valueFor described) = .ok (places.map fun p => (numberUnder? es p).getD 0) := by
  have hkeys : KeysMatch places es := Classical.not_not.mp fun hno => hgood (.inl hno)
  have hnumbers : ∀ p ∈ places, ∃ n, numberUnder? es p = some n ∧ 0 ≤ n := by
    intro p hp
    have hno := fun hneg => hgood (.inr ⟨p, hp, hneg⟩)
    obtain ⟨n, hn⟩ := Classical.not_forall.mp hno
    obtain ⟨hn, hnonneg⟩ := Classical.not_imp.mp hn
    exact ⟨n, hn, by omega⟩
  refine ⟨hkeys, hnumbers, ?_⟩
  rw [mapM_eq_ok, List.map_map]
  refine List.map_congr_left fun p hp => ?_
  obtain ⟨n, hn, hnonneg⟩ := hnumbers p hp
  rw [(valueFor_eq h hhash hkeys hp).1 n hn hnonneg, Function.comp_apply, hn]
  rfl

theorem resolve_eq_of_matches (h : Describes described es) (hsome : es ≠ [])
    (hhash : ∀ p ∈ places, p.hashable = true) (hgood : ¬ Mismatches places es) :
    resolve places described default
      = (liftM ((places.map fun p => (numberUnder? es p).getD 0).mapM Datum.wordOfInt) >>= fun words =>
          .ok (Vector.ofFn fun p => words.getD p 0)) := by
  obtain ⟨hkeys, _, hvalues⟩ := values_of_matches h hhash hgood
  rw [resolve, if_pos (h.truthy_iff.mpr hsome), explicit, (checkKeys_eq h hsome).1 hkeys, ok_bind,
    hvalues, ok_bind]
  rfl

theorem resolve_too_large (h : Describes described es) (hsome : es ≠ [])
    (hhash : ∀ p ∈ places, p.hashable = true) (hgood : ¬ Mismatches places es)
    (hlarge : Exceeds places es) :
    resolve places described default = .error (.value .tooLarge) := by
  obtain ⟨p, hp, n, hn, hmost⟩ := hlarge
  have hmem : n ∈ places.map fun p => (numberUnder? es p).getD 0 :=
    List.mem_map.mpr ⟨p, hp, by rw [hn]; rfl⟩
  have hno : ∀ w, Datum.wordOfInt n ≠ .ok w := by
    intro w hw
    have hfit : ¬ Datum.fitsWord n = true := fun hfit => by
      have := (fitsWord_iff.mp hfit).2
      omega
    rw [Datum.wordOfInt, if_neg hfit] at hw
    cases hw
  obtain ⟨k, _, e, he, herror⟩ := mapM_eq_error ⟨n, hmem, hno⟩
  rw [Datum.wordOfInt] at he
  split at he
  next => cases he
  next =>
    rw [resolve_eq_of_matches h hsome hhash hgood, herror, ← Except.error.inj he]
    rfl

/-- If nothing is wrong, the numbers under the places are the capacities. -/
theorem resolve_explicit (h : Describes described es) (hsome : es ≠ [])
    (hhash : ∀ p ∈ places, p.hashable = true) (hgood : ¬ Mismatches places es)
    (hfits : ¬ Exceeds places es) :
    ∃ words, resolve places described default = .ok words ∧
      ∀ p, numberUnder? es (places.get p) = some (words.get p).toInt := by
  obtain ⟨_, hnumbers, _⟩ := values_of_matches h hhash hgood
  have hwords : (places.map fun p => (numberUnder? es p).getD 0).mapM Datum.wordOfInt
      = .ok (places.map fun p => Int64.ofInt ((numberUnder? es p).getD 0)) := by
    rw [mapM_eq_ok, List.map_map, List.map_map]
    refine List.map_congr_left fun p hp => ?_
    obtain ⟨n, hn, hnonneg⟩ := hnumbers p hp
    have hmost : n ≤ mostTokens := Int.not_lt.mp fun hlt => hfits ⟨p, hp, n, hn, hlt⟩
    have hfit : Datum.fitsWord n = true := fitsWord_iff.mpr ⟨by omega, hmost⟩
    rw [Function.comp_apply, Function.comp_apply, hn, Option.getD_some, Datum.wordOfInt, if_pos hfit]
  refine ⟨_, by rw [resolve_eq_of_matches h hsome hhash hgood, hwords]; rfl, fun p => ?_⟩
  obtain ⟨n, hn, hnonneg⟩ := hnumbers (places.get p) (List.get_mem _ _)
  have hmost : n ≤ mostTokens :=
    Int.not_lt.mp fun hlt => hfits ⟨_, List.get_mem _ _, n, hn, hlt⟩
  rw [mostTokens_eq] at hmost
  have hword : (places.map fun p => Int64.ofInt ((numberUnder? es p).getD 0)).getD p 0
      = Int64.ofInt n := by
    rw [List.getD_eq_getElem?_getD, List.getElem?_map, List.getElem?_eq_getElem p.isLt,
      Option.map_some, Option.getD_some]
    show Int64.ofInt ((numberUnder? es (places.get p)).getD 0) = _
    rw [hn]
    rfl
  rw [Weights.get_ofFn, hword, hn, Int64.toInt_ofInt_of_le (by omega) (by omega)]

/-- Words from zero are the capacities if their numbers stand under the places. Without places the default is
looked at, but there is nothing that would have it. -/
theorem resolve_of_numbers (h : Describes described es) {k : Int} (hdefault : default.toInt = .ok k)
    (hk : Datum.fitsWord k = true) (hhash : ∀ p ∈ places, p.hashable = true) (hkeys : KeysMatch places es)
    {words : Vector Int64 places.length} (hnonneg : ∀ p, 0 ≤ (words.get p).toInt)
    (hnumbers : ∀ p, numberUnder? es (places.get p) = some (words.get p).toInt) :
    resolve places described default = .ok words := by
  by_cases hsome : es = []
  · subst hsome
    rw [resolve_default h hdefault hk]
    refine congrArg _ (Weights.vector_ext fun p => ?_)
    cases hkeys.covered _ (List.get_mem places p)
  · obtain ⟨hgood, hfits⟩ := (accepts_iff hkeys).mpr fun place hplace => by
      obtain ⟨p, rfl⟩ := List.mem_iff_get.mp hplace
      exact ⟨_, hnumbers p, hnonneg p, Weights.toInt_le_most _⟩
    obtain ⟨found, hfound, hsame⟩ : ∃ found, resolve places described default = .ok found ∧ _ :=
      resolve_explicit h hsome hhash hgood hfits
    rw [hfound]
    refine congrArg _ (Weights.vector_ext fun p => Int64.toInt_inj.mp ?_)
    exact Option.some.inj ((hsame p).symm.trans (hnumbers p))

/-! ## Negative capacities -/

/-- Words that a described capacity is stored as are never negative. -/
theorem explicit_nonneg {words : Vector Int64 places.length} (h : explicit places described = .ok words)
    (p : Fin places.length) : 0 ≤ (words.get p).toInt := by
  obtain ⟨_, _, h⟩ := bind_eq_ok.mp h
  obtain ⟨values, hvalues, h⟩ := bind_eq_ok.mp h
  obtain ⟨stored, hstored, h⟩ := bind_eq_ok.mp h
  obtain rfl := pure_eq_ok.mp h
  have hnonneg : ∀ n ∈ values, 0 ≤ n := by
    intro n hn
    obtain ⟨place, _, hvalue⟩ := (mem_of_mapM_eq_ok hvalues).mp hn
    obtain ⟨c, _, hvalue⟩ := bind_eq_ok.mp hvalue
    split at hvalue
    next =>
      split at hvalue
      next h0 => exact Except.ok.inj hvalue ▸ h0
      next => exact absurd hvalue (Fault.raise_ne_ok _ _)
    next => exact absurd hvalue (Fault.raise_ne_ok _ _)
  have hwords : ∀ w ∈ stored, 0 ≤ w.toInt := by
    intro w hw
    obtain ⟨n, hn, hword⟩ := (mem_of_mapM_eq_ok (liftM_eq_ok.mp hstored)).mp hw
    rw [Datum.wordOfInt] at hword
    split at hword
    next hfit =>
      obtain rfl := Except.ok.inj hword
      have hmost := (fitsWord_iff.mp hfit).2
      rw [mostTokens_eq] at hmost
      have h0 := hnonneg n hn
      rw [Int64.toInt_ofInt_of_le (by omega) (by omega)]
      exact h0
    next => cases hword
  rw [Weights.get_ofFn, List.getD_eq_getElem?_getD]
  cases hget : stored[(p : Nat)]? with
  | none => decide
  | some w => exact hwords w (List.mem_of_getElem? hget)

/-- The default is stored as it is. -/
theorem uniform_eq_ok {n : Nat} {words : Vector Int64 n} (h : uniform n default = .ok words) :
    ∃ k, default.toInt = .ok k ∧ ∀ p, (words.get p).toInt = k := by
  obtain ⟨word, hword, h⟩ := bind_eq_ok.mp h
  obtain rfl := pure_eq_ok.mp h
  obtain ⟨k, hk, hword⟩ := bind_eq_ok.mp (liftM_eq_ok.mp hword)
  refine ⟨k, hk, fun p => ?_⟩
  rw [Datum.wordOfInt] at hword
  split at hword
  next hfit =>
    obtain rfl := Except.ok.inj hword
    exact toInt_replicate hfit p
  next => cases hword

/-- A negative capacity is a default that nothing has checked. -/
theorem resolve_nonneg_iff {words : Vector Int64 places.length}
    (h : resolve places described default = .ok words) :
    (∀ p, 0 ≤ (words.get p).toInt) ↔
      described.truthy = true ∨ places = [] ∨ ∃ k, default.toInt = .ok k ∧ 0 ≤ k := by
  rw [resolve] at h
  split at h
  next hdescribed => exact iff_of_true (explicit_nonneg h) (.inl hdescribed)
  next hfalsy =>
    obtain ⟨k, hk, hwords⟩ := uniform_eq_ok h
    constructor
    · intro hnonneg
      cases places with
      | nil => exact .inr (.inl rfl)
      | cons place places =>
        refine .inr (.inr ⟨k, hk, ?_⟩)
        rw [← hwords ⟨0, by simp⟩]
        exact hnonneg _
    · intro hwhen p
      rcases hwhen with hdescribed | rfl | ⟨l, hl, h0⟩
      · exact absurd hdescribed hfalsy
      · exact p.elim0
      · obtain rfl := Except.ok.inj (hl.symm.trans hk)
        rw [hwords p]
        exact h0

end Capacity

end Petri
