import Petri.Proofs.Runs

/-!
# Capacities along runs

Firing is refused if a place would hold more than its capacity. The sum is a word, however: where a label next
to the capacity is so large that the sum wraps, a negative count stands to be compared and passes.
`Net.Overflows` is the exact condition on the weights and capacities of a transition for this to happen from
some accepted marking. **Boundedness** (`bounded_iff`) says that all runs of a net stay within capacity
exactly if none of its transitions overflows.

The witness that a transition overflows is `brimming`: as many tokens as possible where the sum then wraps,
and as few as possible elsewhere, so that the guard passes at every place.
-/

namespace Petri

namespace Net

/-- Transition `j` can be enabled within capacity, its sum can be too large for a word at some place, and at
every other place that it gives to there is room for what it gives. -/
structure Overflows (net : Net) (j : Fin net.transitions.length) : Prop where
  takes_le : ∀ p, net.takes j p ≤ net.capacityAt p
  exceeds : ∃ p, mostTokens < net.capacityAt p - net.takes j p + net.gives j p
  room : ∀ p, 0 < net.gives j p →
    net.gives j p ≤ net.capacityAt p ∨ mostTokens < net.capacityAt p - net.takes j p + net.gives j p

/-- Some declared transition overflows. -/
def Overflowable (net : Net) : Prop :=
  ∃ t j, net.transitionIndex t = .ok j ∧ net.Overflows j

variable {net : Net} {t : Datum} {j : Fin net.transitions.length} {m m' : Marking}

/-! ## One step -/

/-- A sum that is too large shows that the transition overflows. -/
theorem Fires.overflows (hb : net.Built) (hm : net.Valid m) (hj : net.transitionIndex t = .ok j)
    (h : net.Fires t m m') {p : Fin net.places.length} (hp : mostTokens < net.sumAt j m p) :
    net.Overflows j := by
  have hstep := h.tokens hb hm.owns hm.inRange hj
  refine ⟨fun q => ?_, ⟨p, ?_⟩, fun q hgives => ?_⟩
  · exact Int.le_trans (hstep q).1 (hm.within q).2
  · have hcap := (hm.within p).2
    unfold sumAt at hp
    omega
  · obtain ⟨htakes, hsum, hguard⟩ := hstep q
    have hcap := (hm.within q).2
    have hroom := hguard hgives
    by_cases hle : net.sumAt j m q ≤ mostTokens
    · left
      rw [hsum, wrapped_of_le hle] at hroom
      unfold sumAt at hroom
      omega
    · right
      unfold sumAt at hle
      omega

/-! ## The marking from which a transition overflows -/

/-- The capacity where this is too much for a word in the end, and otherwise just what `j` takes. -/
def brimming (net : Net) (j : Fin net.transitions.length) : Marking :=
  net.markingOfWords <| Vector.ofFn fun p =>
    if mostTokens < net.capacityAt p - net.takes j p + net.gives j p then net.capacity.get p
    else (net.weights.get j).pre.get p

theorem tokens_brimming (p : Fin net.places.length) :
    (net.brimming j).tokens p
      = if mostTokens < net.capacityAt p - net.takes j p + net.gives j p then net.capacityAt p
        else net.takes j p := by
  rw [brimming, tokens_markingOfWords, Weights.get_ofFn]
  split <;> rfl

theorem valid_brimming (hb : net.Built) (h : net.Overflows j) : net.Valid (net.brimming j) := by
  refine ⟨owns_markingOfWords _, places_markingOfWords _, fun p => ?_⟩
  have h0 := takes_nonneg (j := j) hb p
  have h1 := h.takes_le p
  rw [tokens_brimming]
  split <;> omega

/-- From the brimming marking the transition fires, with a sum that is too large. -/
theorem fires_brimming (hb : net.Built) (hj : net.transitionIndex t = .ok j) (h : net.Overflows j) :
    (∃ m', net.Fires t (net.brimming j) m') ∧ ∃ p, mostTokens < net.sumAt j (net.brimming j) p := by
  have hvalid := valid_brimming hb h
  refine ⟨exists_fires hb hvalid.owns hvalid.inRange hj (fun p => ?_) (fun p hgives => ?_), ?_⟩
  · have h1 := h.takes_le p
    rw [tokens_brimming]
    split <;> omega
  · have h1 := h.takes_le p
    have h2 := takes_nonneg (j := j) hb p
    have h3 : net.gives j p ≤ mostTokens := Weights.toInt_le_most _
    have h4 : net.capacityAt p ≤ mostTokens := Weights.toInt_le_most _
    have h5 := h.room p hgives
    -- where the sum wraps it is negative, and elsewhere it is what is given
    unfold wrapped sumAt
    rw [tokens_brimming]
    rw [mostTokens_eq] at h3 h4 h5 ⊢
    split <;> split <;> omega
  · obtain ⟨p, hp⟩ := h.exceeds
    refine ⟨p, ?_⟩
    rw [sumAt, tokens_brimming, if_pos hp]
    exact hp

/-! ## Whole runs -/

/-- If no transition overflows, steps lead from valid markings to valid ones. -/
theorem Fires.valid (hb : net.Built) (hsafe : ¬ net.Overflowable) (hm : net.Valid m)
    (h : net.Fires t m m') : net.Valid m' := by
  obtain ⟨j, hj, _⟩ := (fires_iff hm.owns hm.inRange.fitsWords).mp h
  refine (h.valid_iff hb hm hj).mpr fun p => ?_
  by_cases hp : mostTokens < net.sumAt j m p
  · exact absurd ⟨t, j, hj, h.overflows hb hm hj hp⟩ hsafe
  · omega

/-- Every marking that a run returns from an accepted one is within capacity, and is accepted again. -/
def Bounded (net : Net) : Prop :=
  ∀ (x : Datum) (m : Marking) (ts : List Datum) (m' : Marking), net.marking x = .ok m →
    Run net.Fires ts m m' → net.Within m' ∧ net.marking m'.toDatum = .ok m'

/-- **Boundedness.** All runs of a net from accepted markings stay within capacity exactly if no transition
overflows; and a single step from an accepted marking stays within capacity exactly if no sum is too large
for a word. -/
theorem bounded_iff (hb : net.Built) :
    (net.Bounded ↔ ¬ net.Overflowable) ∧
      ∀ x m t j m', net.marking x = .ok m → net.transitionIndex t = .ok j → net.Fires t m m' →
        ((net.Within m' ∧ net.marking m'.toDatum = .ok m') ↔ ∀ p, net.sumAt j m p ≤ mostTokens) := by
  have haccepted : ∀ m', (net.Within m' ∧ net.marking m'.toDatum = .ok m') ↔ net.Valid m' := by
    intro m'
    rw [valid_iff_accepted hb]
    exact ⟨fun h => h.2, fun h => ⟨(valid_of_marking h).within, h⟩⟩
  refine ⟨⟨?_, ?_⟩, ?_⟩
  · -- a net with an overflowing transition leaves its capacity in one step
    intro hbounded hover
    rcases hover with ⟨t, j, hj, hover⟩
    obtain ⟨⟨m', hfires⟩, p, hp⟩ := fires_brimming hb hj hover
    have hvalid := valid_brimming hb hover
    have hresult := hbounded _ _ [t] m' (marking_of_valid hb hvalid) (Run.singleton_iff.mpr hfires)
    have hle := (hfires.valid_iff hb hvalid hj).mp ((haccepted m').mp hresult) p
    omega
  · -- without such a transition every step of the run stays among the valid markings
    intro hsafe x m ts m' hx hrun
    rw [haccepted]
    exact hrun.invariant (fun _ _ _ hm h => h.valid hb hsafe hm) (valid_of_marking hx)
  · intro x m t j m' hx hj hfires
    rw [haccepted]
    exact hfires.valid_iff hb (valid_of_marking hx) hj

/-! ## A lamp and a tank -/

/-- One place with room for twenty tokens, and one transition that gives as many as a word holds. -/
def reservoir : Net where
  places := [.str "tank"]
  transitions := [.str "fill"]
  capacity := #v[20]
  weights := #v[⟨#v[0], #v[9223372036854775807]⟩]

theorem reservoir_built : reservoir.Built :=
  ⟨.list [.str "tank"], .list [.str "fill"],
    [⟨.str "tank", .str "fill", 9223372036854775807, .post, by decide⟩],
    .null, .int 20, by with_unfolding_all rfl⟩

def tankAt (tokens : Int) : Marking := ⟨[(.str "tank", .int tokens)]⟩

/-- From one token in the tank, filling returns a negative count, which the net does not accept. -/
theorem reservoir_overflows :
    reservoir.Built ∧ reservoir.marking (.dict [(.str "tank", .int 1)]) = .ok (tankAt 1) ∧
      Run reservoir.Fires [.str "fill"] (tankAt 1) (tankAt (-9223372036854775808)) ∧
      ¬ reservoir.Within (tankAt (-9223372036854775808)) ∧
      reservoir.marking (tankAt (-9223372036854775808)).toDatum
        = .error (.countOutOfRange (-9223372036854775808) (.str "tank") 20) := by
  have hstep : reservoir.Fires (.str "fill") (tankAt 1) (tankAt (-9223372036854775808)) := rfl
  refine ⟨reservoir_built, rfl, Run.singleton_iff.mpr hstep, fun hwithin => ?_, rfl⟩
  exact absurd (hwithin ⟨0, by decide⟩).1 (by decide)

/-- The lamp stays within capacity, the reservoir does not. -/
theorem bounded_lamp_not_reservoir : lamp.Bounded ∧ ¬ reservoir.Bounded := by
  constructor
  · refine (bounded_iff lamp_built).1.mpr ?_
    intro h
    rcases h with ⟨t, j, _, hover⟩
    have hsmall : ∀ j p, lamp.capacityAt p - lamp.takes j p + lamp.gives j p ≤ mostTokens := by decide
    obtain ⟨p, hp⟩ := hover.exceeds
    exact Int.not_lt.mpr (hsmall j p) hp
  · intro hbounded
    refine (bounded_iff reservoir_built).1.mp hbounded ?_
    refine ⟨.str "fill", ⟨0, by decide⟩, rfl, ?_⟩
    exact ⟨by decide, ⟨⟨0, by decide⟩, by decide⟩, by decide⟩

end Net

end Petri
