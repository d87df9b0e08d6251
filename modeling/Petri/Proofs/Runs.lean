import Petri.Proofs.Validation

/-!
# Runs

A run is a sequence of transitions that are taken one after another, each from the marking that the one
before has returned (`Run`). It is the same thing in both directions: `Net.Fires` and `Net.Reverts` are the
steps, and a step is exact if no count of its result is negative, that is, if no sum of words has wrapped.

> `fires_iff`, `reverts_iff`: what one step does, in words;
> `Fires.tokens`, `exists_fires`: the same for firing, in whole numbers;
> `run_fires_countable`, `run_reverts_countable`: along an exact run all counts stay numbers of tokens.
-/

namespace Petri

/-! ## Steps one after another -/

/-- `Run step ts m m'` holds if the steps under `ts` lead from `m` to `m'`. -/
inductive Run (step : Datum → Marking → Marking → Prop) : List Datum → Marking → Marking → Prop
  | nil (m : Marking) : Run step [] m m
  | cons {t : Datum} {ts : List Datum} {m m' m'' : Marking} :
      step t m m' → Run step ts m' m'' → Run step (t :: ts) m m''

namespace Run

variable {step : Datum → Marking → Marking → Prop} {ts us : List Datum} {t : Datum} {m m' m'' : Marking}

theorem nil_iff : Run step [] m m' ↔ m' = m := by
  constructor
  · intro h
    cases h
    rfl
  · intro h
    rw [h]
    exact .nil _

theorem cons_iff : Run step (t :: ts) m m'' ↔ ∃ m', step t m m' ∧ Run step ts m' m'' := by
  constructor
  · intro h
    cases h with
    | cons h hs => exact ⟨_, h, hs⟩
  · intro h
    rcases h with ⟨_, h, hs⟩
    exact .cons h hs

theorem append_iff : Run step (ts ++ us) m m'' ↔ ∃ m', Run step ts m m' ∧ Run step us m' m'' := by
  induction ts generalizing m with
  | nil => simp [nil_iff]
  | cons t ts ih =>
    rw [List.cons_append, cons_iff]
    constructor
    · intro h
      rcases h with ⟨m₁, h, hs⟩
      obtain ⟨m₂, h₂, h₃⟩ := ih.mp hs
      exact ⟨m₂, .cons h h₂, h₃⟩
    · intro h
      rcases h with ⟨m₂, h₂, h₃⟩
      obtain ⟨m₁, h, hs⟩ := cons_iff.mp h₂
      exact ⟨m₁, h, ih.mpr ⟨m₂, hs, h₃⟩⟩

theorem singleton_iff : Run step [t] m m' ↔ step t m m' := by
  rw [cons_iff]
  constructor
  · intro h
    rcases h with ⟨m₁, h, hs⟩
    rw [nil_iff.mp hs]
    exact h
  · intro h
    exact ⟨m', h, .nil _⟩

/-- What every step preserves holds at the end of a run. -/
theorem invariant {P : Marking → Prop} (hstep : ∀ t m m', P m → step t m m' → P m')
    (hm : P m) (h : Run step ts m m') : P m' := by
  induction h with
  | nil => exact hm
  | cons h _ ih => exact ih (hstep _ _ _ hm h)

/-- If every step of one kind is a step of another kind, so is the run. -/
theorem imp {step' : Datum → Marking → Marking → Prop} (hstep : ∀ t m m', step t m m' → step' t m m')
    (h : Run step ts m m') : Run step' ts m m' := by
  induction h with
  | nil m => exact .nil m
  | cons hfirst _ ih => exact .cons (hstep _ _ _ hfirst) ih

/-- If a step has one result at most, so has a run. -/
theorem unique (hstep : ∀ t m m' m'', step t m m' → step t m m'' → m' = m'') (h : Run step ts m m')
    (h' : Run step ts m m'') : m' = m'' := by
  induction h with
  | nil m => exact (nil_iff.mp h').symm
  | cons hfirst _ ih =>
    obtain ⟨m₁, hfirst', hrest⟩ := cons_iff.mp h'
    obtain rfl := hstep _ _ _ _ hfirst hfirst'
    exact ih hrest

/-- If every step is followed by a step between related markings, every run is followed by a run. -/
theorem simulate {step' : Datum → Marking → Marking → Prop} {R : Marking → Marking → Prop} {q : Marking}
    (hstep : ∀ t m m' q, R m m' → step t m q → ∃ q', step' t m' q' ∧ R q q') (hm : R m m')
    (h : Run step ts m q) : ∃ q', Run step' ts m' q' ∧ R q q' := by
  induction h generalizing m' with
  | nil => exact ⟨m', .nil m', hm⟩
  | cons hfirst _ ih =>
    obtain ⟨m₁, hfirst', hm₁⟩ := hstep _ _ _ _ hm hfirst
    obtain ⟨q', hrest, hq⟩ := ih hm₁
    exact ⟨q', .cons hfirst' hrest, hq⟩

end Run

namespace Net

/-! ## Steps of a net -/

/-- Firing `t` from `m` returns `m'`. -/
def Fires (net : Net) (t : Datum) (m m' : Marking) : Prop :=
  net.fire t m.toDatum = .ok (some m')

/-- Reverting `m` under `t` returns `m'`. -/
def Reverts (net : Net) (t : Datum) (m m' : Marking) : Prop :=
  net.revert m.toDatum t = .ok (some m')

/-- Firing `t` from `m` returns `m'` without negative counts. -/
def FiresExactly (net : Net) (t : Datum) (m m' : Marking) : Prop :=
  net.Fires t m m' ∧ net.Nonnegative m'

/-- Reverting `m` under `t` returns `m'` without negative counts. -/
def RevertsExactly (net : Net) (t : Datum) (m m' : Marking) : Prop :=
  net.Reverts t m m' ∧ net.Nonnegative m'

variable {net : Net} {t : Datum} {j : Fin net.transitions.length} {m m' : Marking}

theorem fires_iff (hm : net.Owns m) (hfit : net.FitsWords m) :
    net.Fires t m m' ↔ ∃ j, net.transitionIndex t = .ok j ∧
      (net.weights.get j).Enabled (net.wordsOf m) ∧
      (net.weights.get j).Fits net.capacity ((net.weights.get j).apply (net.wordsOf m)) ∧
      m' = net.markingOfWords ((net.weights.get j).apply (net.wordsOf m)) := by
  rw [Fires, fire_eq hm hfit, bind_eq_ok]
  -- with the transition looked up, both sides speak about the same vector
  refine exists_congr fun j => and_congr_right fun _ => ?_
  rw [Except.ok.injEq, Option.map_eq_some_iff]
  constructor
  · intro h
    rcases h with ⟨w, hw, rfl⟩
    obtain ⟨hen, hfits, rfl⟩ := Weights.fire?_eq_some_iff _ |>.mp hw
    exact ⟨hen, hfits, rfl⟩
  · intro h
    rcases h with ⟨hen, hfits, rfl⟩
    exact ⟨_, (Weights.fire?_eq_some_iff _).mpr ⟨hen, hfits, rfl⟩, rfl⟩

theorem reverts_iff (hm : net.Owns m) (hfit : net.FitsWords m) :
    net.Reverts t m m' ↔ ∃ j, net.transitionIndex t = .ok j ∧
      (net.weights.get j).Revertible net.capacity (net.wordsOf m) ∧
      m' = net.markingOfWords ((net.weights.get j).unapply (net.wordsOf m)) := by
  rw [Reverts, revert_eq hm hfit, bind_eq_ok]
  refine exists_congr fun j => and_congr_right fun _ => ?_
  rw [Except.ok.injEq, Option.map_eq_some_iff]
  constructor
  · intro h
    rcases h with ⟨w, hw, rfl⟩
    obtain ⟨hguard, rfl⟩ := Weights.revert?_eq_some_iff _ |>.mp hw
    exact ⟨hguard, rfl⟩
  · intro h
    rcases h with ⟨hguard, rfl⟩
    exact ⟨_, (Weights.revert?_eq_some_iff _).mpr ⟨hguard, rfl⟩, rfl⟩

/-- Marking `m'` has at every place at least as many tokens as `m`. -/
def AtLeast (net : Net) (m' m : Marking) : Prop :=
  ∀ p : Fin net.places.length, m.tokens p ≤ m'.tokens p

instance : Decidable (net.AtLeast m' m) :=
  inferInstanceAs (Decidable (∀ p : Fin net.places.length, m.tokens p ≤ m'.tokens p))

theorem covers_wordsOf_iff (hm : net.FitsWords m) (hm' : net.FitsWords m') :
    Weights.Covers (net.wordsOf m') (net.wordsOf m) ↔ net.AtLeast m' m := by
  refine forall_congr' fun p => ?_
  rw [Int64.le_iff_toInt_le, toInt_wordsOf hm, toInt_wordsOf hm']

theorem enabled_wordsOf_iff (hm : net.FitsWords m) (j : Fin net.transitions.length) :
    (net.weights.get j).Enabled (net.wordsOf m) ↔ ∀ p, net.takes j p ≤ m.tokens p := by
  refine forall_congr' fun p => ?_
  rw [Int64.le_iff_toInt_le, toInt_wordsOf hm]
  rfl

/-- What firing adds up to at a place, before the sum becomes a word. -/
def sumAt (net : Net) (j : Fin net.transitions.length) (m : Marking) (p : Fin net.places.length) :
    Int :=
  m.tokens p - net.takes j p + net.gives j p

theorem takes_nonneg (hb : net.Built) (p : Fin net.places.length) : 0 ≤ net.takes j p :=
  Weights.zero_le_iff.mp ((hb.sound j).pre p)

theorem gives_nonneg (hb : net.Built) (p : Fin net.places.length) : 0 ≤ net.gives j p :=
  Weights.zero_le_iff.mp ((hb.sound j).post p)

theorem tokens_apply (hb : net.Built) (hrange : net.InRange m)
    (hen : (net.weights.get j).Enabled (net.wordsOf m)) (p : Fin net.places.length) :
    (net.markingOfWords ((net.weights.get j).apply (net.wordsOf m))).tokens p
      = wrapped (net.sumAt j m p) := by
  rw [tokens_markingOfWords, Weights.toInt_apply (hb.sound j) hen, toInt_wordsOf hrange.fitsWords]
  rfl

/-- The guard of firing compares the wrapped sum with the capacity. -/
theorem fits_apply_iff (hb : net.Built) (hrange : net.InRange m)
    (hen : (net.weights.get j).Enabled (net.wordsOf m)) :
    (net.weights.get j).Fits net.capacity ((net.weights.get j).apply (net.wordsOf m)) ↔
      ∀ p, 0 < net.gives j p → wrapped (net.sumAt j m p) ≤ net.capacityAt p := by
  refine forall_congr' fun p => ?_
  rw [Weights.zero_lt_iff, Int64.le_iff_toInt_le, ← tokens_apply hb hrange hen,
    tokens_markingOfWords]
  rfl

/-- **What firing does, in whole numbers.** -/
theorem Fires.tokens (hb : net.Built) (hm : net.Owns m) (hrange : net.InRange m)
    (hj : net.transitionIndex t = .ok j) (h : net.Fires t m m') (p : Fin net.places.length) :
    net.takes j p ≤ m.tokens p ∧ m'.tokens p = wrapped (net.sumAt j m p) ∧
      (0 < net.gives j p → m'.tokens p ≤ net.capacityAt p) := by
  obtain ⟨j', hj', hen, hfits, rfl⟩ := (fires_iff hm hrange.fitsWords).mp h
  obtain rfl : j' = j := Except.ok.inj (hj'.symm.trans hj)
  have hsum := tokens_apply hb hrange hen p
  refine ⟨(enabled_wordsOf_iff hrange.fitsWords _).mp hen p, hsum, fun hgives => ?_⟩
  rw [hsum]
  exact (fits_apply_iff hb hrange hen).mp hfits p hgives

/-- What an enabled transition adds up to is a number between zero and twice `mostTokens`. -/
theorem sumAt_bounds (hb : net.Built) (hrange : net.InRange m) {p : Fin net.places.length}
    (htakes : net.takes j p ≤ m.tokens p) :
    0 ≤ net.sumAt j m p ∧ net.sumAt j m p ≤ 2 * mostTokens := by
  have h0 := takes_nonneg (j := j) hb p
  have h1 := gives_nonneg (j := j) hb p
  have h2 : net.gives j p ≤ mostTokens := Weights.toInt_le_most _
  have h3 := (hrange p).2
  unfold sumAt
  omega

/-- A count comes out negative exactly if its sum is too large for a word. -/
theorem Fires.nonneg_iff (hb : net.Built) (hm : net.Owns m) (hrange : net.InRange m)
    (hj : net.transitionIndex t = .ok j) (h : net.Fires t m m') (p : Fin net.places.length) :
    0 ≤ m'.tokens p ↔ net.sumAt j m p ≤ mostTokens := by
  obtain ⟨htakes, hsum, _⟩ := h.tokens hb hm hrange hj p
  obtain ⟨h0, h2⟩ := sumAt_bounds hb hrange htakes
  rw [hsum]
  exact wrapped_nonneg_iff h0 h2

/-- A transition that has its tokens and passes the guard fires. -/
theorem exists_fires (hb : net.Built) (hm : net.Owns m) (hrange : net.InRange m)
    (hj : net.transitionIndex t = .ok j) (htakes : ∀ p, net.takes j p ≤ m.tokens p)
    (hfits : ∀ p, 0 < net.gives j p → wrapped (net.sumAt j m p) ≤ net.capacityAt p) :
    ∃ m', net.Fires t m m' := by
  have hen := (enabled_wordsOf_iff hrange.fitsWords j).mpr htakes
  exact ⟨_, (fires_iff hm hrange.fitsWords).mpr
    ⟨j, hj, hen, (fits_apply_iff hb hrange hen).mpr hfits, rfl⟩⟩

/-! ## Results of steps -/

theorem Fires.owns (hm : net.Owns m) (hfit : net.FitsWords m) (h : net.Fires t m m') :
    net.Owns m' ∧ net.FitsWords m' ∧ m'.places = net.places := by
  obtain ⟨j, _, _, _, rfl⟩ := (fires_iff hm hfit).mp h
  exact ⟨owns_markingOfWords _, fitsWords_markingOfWords _, places_markingOfWords _⟩

theorem Reverts.owns (hm : net.Owns m) (hfit : net.FitsWords m) (h : net.Reverts t m m') :
    net.Owns m' ∧ net.FitsWords m' ∧ m'.places = net.places := by
  obtain ⟨j, _, _, rfl⟩ := (reverts_iff hm hfit).mp h
  exact ⟨owns_markingOfWords _, fitsWords_markingOfWords _, places_markingOfWords _⟩

theorem FitsWords.inRange (hfit : net.FitsWords m) (h : net.Nonnegative m) : net.InRange m :=
  fun p => ⟨h p, (fitsWord_iff.mp (hfit p)).2⟩

/-- `m` is a marking of the net whose counts are numbers of tokens that a word can hold. -/
def Countable (net : Net) (m : Marking) : Prop := net.Owns m ∧ net.InRange m

theorem Valid.countable (h : net.Valid m) : net.Countable m := ⟨h.owns, h.inRange⟩

theorem FiresExactly.countable (hm : net.Countable m) (h : net.FiresExactly t m m') :
    net.Countable m' := by
  obtain ⟨howns, hfit, _⟩ := h.1.owns hm.1 hm.2.fitsWords
  exact ⟨howns, hfit.inRange h.2⟩

theorem RevertsExactly.countable (hm : net.Countable m) (h : net.RevertsExactly t m m') :
    net.Countable m' := by
  obtain ⟨howns, hfit, _⟩ := h.1.owns hm.1 hm.2.fitsWords
  exact ⟨howns, hfit.inRange h.2⟩

theorem run_fires_countable {ts : List Datum} (hm : net.Countable m)
    (h : Run net.FiresExactly ts m m') : net.Countable m' :=
  h.invariant (fun _ _ _ hm h => h.countable hm) hm

theorem run_reverts_countable {ts : List Datum} (hm : net.Countable m)
    (h : Run net.RevertsExactly ts m m') : net.Countable m' :=
  h.invariant (fun _ _ _ hm h => h.countable hm) hm

/-- Where no sum has wrapped, it is what the place holds. -/
theorem FiresExactly.tokens_eq (hb : net.Built) (hm : net.Countable m)
    (hj : net.transitionIndex t = .ok j) (h : net.FiresExactly t m m')
    (p : Fin net.places.length) : m'.tokens p = net.sumAt j m p := by
  obtain ⟨_, hsum, _⟩ := h.1.tokens hb hm.1 hm.2 hj p
  rw [hsum]
  exact wrapped_of_le ((h.1.nonneg_iff hb hm.1 hm.2 hj p).mp (h.2 p))

/-- **A step from a valid marking leads to a valid one exactly if no sum is too large for a word.** -/
theorem Fires.valid_iff (hb : net.Built) (hm : net.Valid m) (hj : net.transitionIndex t = .ok j)
    (h : net.Fires t m m') : net.Valid m' ↔ ∀ p, net.sumAt j m p ≤ mostTokens := by
  have hstep := h.tokens hb hm.owns hm.inRange hj
  obtain ⟨howns, _, hplaces⟩ := h.owns hm.owns hm.inRange.fitsWords
  constructor
  · intro hvalid p
    exact (h.nonneg_iff hb hm.owns hm.inRange hj p).mp (hvalid.within p).1
  · intro hle
    refine ⟨howns, hplaces, fun p => ⟨?_, ?_⟩⟩
    · exact (h.nonneg_iff hb hm.owns hm.inRange hj p).mpr (hle p)
    obtain ⟨_, hsum, hguard⟩ := hstep p
    rw [wrapped_of_le (hle p)] at hsum
    by_cases hgives : 0 < net.gives j p
    · exact hguard hgives
    · -- nothing is compared here, but nothing is added either
      have hcap := (hm.within p).2
      have htakes0 := takes_nonneg (j := j) hb p
      unfold sumAt at hsum
      omega

theorem FiresExactly.valid (hb : net.Built) (hm : net.Valid m) (h : net.FiresExactly t m m') :
    net.Valid m' := by
  obtain ⟨j, hj, _⟩ := (fires_iff hm.owns hm.inRange.fitsWords).mp h.1
  refine (h.1.valid_iff hb hm hj).mpr fun p => ?_
  rw [← h.tokens_eq hb hm.countable hj p]
  exact ((h.countable hm.countable).2 p).2

/-! ## A lamp -/

/-- A lamp is on or off. -/
def lamp : Net where
  places := [.str "on", .str "off"]
  transitions := [.str "switchOn", .str "switchOff"]
  capacity := #v[1, 1]
  weights := #v[⟨#v[0, 1], #v[1, 0]⟩, ⟨#v[1, 0], #v[0, 1]⟩]

theorem lamp_built : lamp.Built :=
  ⟨.list [.str "on", .str "off"], .list [.str "switchOn", .str "switchOff"],
    [⟨.str "off", .str "switchOn", 1, .pre, by decide⟩, ⟨.str "on", .str "switchOn", 1, .post, by decide⟩,
      ⟨.str "on", .str "switchOff", 1, .pre, by decide⟩,
      ⟨.str "off", .str "switchOff", 1, .post, by decide⟩],
    .null, .int 1, by with_unfolding_all rfl⟩

def lampAt (on off : Int) : Marking := ⟨[(.str "on", .int on), (.str "off", .int off)]⟩

theorem lampAt_owns (on off : Int) : lamp.Owns (lampAt on off) := by
  refine ⟨by rfl, ?_⟩
  intro c hc
  rcases List.mem_cons.mp hc with rfl | hc
  · exact ⟨on, rfl⟩
  · exact ⟨off, List.mem_singleton.mp hc⟩

end Net

end Petri
