import Petri.Proofs.StateEquation

/-!
# Independent transitions

Transitions that share no place do not get in each other's way, although both guards of firing look at all places: where
one transition has arcs, the other changes nothing, and where it has none, it neither takes tokens nor asks for room.

> `FiresExactly.after`: what fires still fires after an independent transition;
> `diamond`: either of two may go first, and both orders meet in one marking;
> `Concurrent.exists_run`, `Concurrent.run_perm`: so do all orders of any number of transitions, by induction;
> `concurrent_firings`: **all orders end in one marking**, with all the changes added up.
-/

namespace Petri

namespace Net

/-- Some arc joins transition `j` and the place `p`. -/
def Touches (net : Net) (j : Fin net.transitions.length) (p : Fin net.places.length) : Prop :=
  0 < net.takes j p ∨ 0 < net.gives j p

/-- No place has arcs of both transitions. -/
def Independent (net : Net) (t u : Datum) : Prop :=
  ∀ i j, net.transitionIndex t = .ok i → net.transitionIndex u = .ok j → ∀ p, net.Touches i p → ¬ net.Touches j p

/-- Each of the transitions fires from `m` without wrapped sums, and no two of them share a place. -/
structure Concurrent (net : Net) (ts : List Datum) (m : Marking) : Prop where
  fires : ∀ t ∈ ts, ∃ m', net.FiresExactly t m m'
  independent : ts.Pairwise net.Independent

variable {net : Net} {t u : Datum} {ts us : List Datum} {j : Fin net.transitions.length} {m a b q : Marking}
  {p : Fin net.places.length}

instance (j : Fin net.transitions.length) (p : Fin net.places.length) : Decidable (net.Touches j p) :=
  inferInstanceAs (Decidable (_ ∨ _))

/-! ## Two transitions -/

theorem Fires.unique (h : net.Fires t m a) (h' : net.Fires t m b) : a = b :=
  Option.some.inj (Except.ok.inj (h.symm.trans h'))

theorem Independent.symm (h : net.Independent t u) : net.Independent u t :=
  fun i j hi hj p hp hq => h j i hj hi p hq hp

theorem independent_of_index {i j : Fin net.transitions.length} (hi : net.transitionIndex t = .ok i)
    (hj : net.transitionIndex u = .ok j) (h : ∀ p, net.Touches i p → ¬ net.Touches j p) : net.Independent t u := by
  intro i' j' hi' hj'
  obtain rfl := Except.ok.inj (hi'.symm.trans hi)
  obtain rfl := Except.ok.inj (hj'.symm.trans hj)
  exact h

theorem untouched (hb : net.Built) (h : ¬ net.Touches j p) : net.takes j p = 0 ∧ net.gives j p = 0 := by
  have htakes := takes_nonneg (j := j) hb p
  have hgives := gives_nonneg (j := j) hb p
  unfold Touches at h
  omega

/-- Firing changes nothing where the transition has no arcs. -/
theorem FiresExactly.tokens_of_untouched (hb : net.Built) (hm : net.Countable m)
    (hj : net.transitionIndex t = .ok j) (h : net.FiresExactly t m a) (hp : ¬ net.Touches j p) :
    a.tokens p = m.tokens p := by
  obtain ⟨htakes, hgives⟩ := untouched hb hp
  rw [h.tokens_eq hb hm hj p, sumAt, htakes, hgives]
  omega

/-- **What fires still fires after an independent transition.** -/
theorem FiresExactly.after (hb : net.Built) (hm : net.Countable m) (hind : net.Independent t u)
    (ht : net.FiresExactly t m a) (hu : net.FiresExactly u m b) : ∃ c, net.FiresExactly u a c := by
  have ha := ht.countable hm
  obtain ⟨i, hi, _⟩ := (fires_iff hm.1 hm.2.fitsWords).mp ht.1
  obtain ⟨j, hj, _⟩ := (fires_iff hm.1 hm.2.fitsWords).mp hu.1
  have hbefore := hu.1.tokens hb hm.1 hm.2 hj
  have hkept : ∀ p, net.Touches j p → a.tokens p = m.tokens p := fun p hp =>
    ht.tokens_of_untouched hb hm hi fun hp' => hind i j hi hj p hp' hp
  -- where `u` has arcs it finds what it found in `m`, and elsewhere it asks for nothing
  have htakes : ∀ p : Fin net.places.length, net.takes j p ≤ a.tokens p := by
    intro p
    by_cases hp : net.Touches j p
    · rw [hkept p hp]
      exact (hbefore p).1
    · rw [(untouched hb hp).1]
      exact (ha.2 p).1
  have hwords : ∀ p, net.sumAt j a p ≤ mostTokens := by
    intro p
    by_cases hp : net.Touches j p
    · rw [sumAt, hkept p hp]
      exact (hu.1.nonneg_iff hb hm.1 hm.2 hj p).mp (hu.2 p)
    · have hmost := (ha.2 p).2
      obtain ⟨htakes, hgives⟩ := untouched hb hp
      unfold sumAt
      omega
  obtain ⟨c, hc⟩ := exists_fires hb ha.1 ha.2 hj htakes fun p hgives => by
    obtain ⟨_, hsum, hguard⟩ := hbefore p
    rw [sumAt, hkept p (.inr hgives), ← sumAt, ← hsum]
    exact hguard hgives
  exact ⟨c, hc, fun p => (hc.nonneg_iff hb ha.1 ha.2 hj p).mpr (hwords p)⟩

/-- **The diamond.** Two independent transitions that both fire may fire in either order, to the same marking. -/
theorem diamond (hb : net.Built) (hm : net.Countable m) (hind : net.Independent t u)
    (ht : net.FiresExactly t m a) (hu : net.FiresExactly u m b) :
    ∃ c, net.FiresExactly u a c ∧ net.FiresExactly t b c := by
  have ha := ht.countable hm
  have hb' := hu.countable hm
  obtain ⟨c, hc⟩ := ht.after hb hm hind hu
  obtain ⟨d, hd⟩ := hu.after hb hm hind.symm ht
  obtain ⟨howns, _, hplaces⟩ := hc.1.owns ha.1 ha.2.fitsWords
  obtain ⟨howns', _, hplaces'⟩ := hd.1.owns hb'.1 hb'.2.fitsWords
  have hsame : c = d := by
    refine howns.eq_of_tokens howns' (hplaces.trans hplaces'.symm) fun p => ?_
    rw [hc.tokens_incidence hb ha, hd.tokens_incidence hb hb', ht.tokens_incidence hb hm,
      hu.tokens_incidence hb hm]
    omega
  exact ⟨c, hc, hsame ▸ hd⟩

/-! ## Any number of transitions -/

namespace Concurrent

/-- When the first transition has fired, the others are concurrent still. -/
theorem after (hb : net.Built) (hm : net.Countable m) (h : net.Concurrent (t :: ts) m)
    (ht : net.FiresExactly t m a) : net.Concurrent ts a := by
  obtain ⟨hind, hrest⟩ := List.pairwise_cons.mp h.independent
  refine ⟨fun u hu => ?_, hrest⟩
  obtain ⟨b, hb'⟩ := h.fires u (List.mem_cons_of_mem t hu)
  exact ht.after hb hm (hind u hu) hb'

theorem perm (hperm : ts.Perm us) (h : net.Concurrent ts m) : net.Concurrent us m :=
  ⟨fun t ht => h.fires t (hperm.mem_iff.mpr ht),
    (hperm.pairwise_iff fun hind => hind.symm).mp h.independent⟩

theorem exists_run (hb : net.Built) (hm : net.Countable m) (h : net.Concurrent ts m) :
    ∃ q, Run net.FiresExactly ts m q := by
  induction ts generalizing m with
  | nil => exact ⟨m, .nil m⟩
  | cons t ts ih =>
    obtain ⟨a, ht⟩ := h.fires t List.mem_cons_self
    obtain ⟨q, hrun⟩ := ih (ht.countable hm) (h.after hb hm ht)
    exact ⟨q, .cons ht hrun⟩

/-- All orders lead to the same marking, since any two neighbours may be exchanged. -/
theorem run_perm (hb : net.Built) (hperm : ts.Perm us) (hm : net.Countable m) (h : net.Concurrent ts m)
    (hrun : Run net.FiresExactly ts m q) : Run net.FiresExactly us m q := by
  induction hperm generalizing m with
  | nil => exact hrun
  | cons t _ ih =>
    obtain ⟨a, ht, hrest⟩ := Run.cons_iff.mp hrun
    exact .cons ht (ih (ht.countable hm) (h.after hb hm ht) hrest)
  | swap u t l =>
    obtain ⟨a, ht, hrest⟩ := Run.cons_iff.mp hrun
    obtain ⟨c, hu, hrest⟩ := Run.cons_iff.mp hrest
    obtain ⟨b, hu'⟩ := h.fires u (List.mem_cons_of_mem t List.mem_cons_self)
    have hind := (List.pairwise_cons.mp h.independent).1 u List.mem_cons_self
    obtain ⟨c', hc, ht'⟩ := diamond hb hm hind ht hu'
    obtain rfl := hc.1.unique hu.1
    exact .cons hu' (.cons ht' hrest)
  | trans hfirst _ ih ih' => exact ih' hm (h.perm hfirst) (ih hm h hrun)

end Concurrent

/-- What the transitions change at a place when each of them fires alone from `m`, added up. -/
def totalChange (result : Datum → Marking) (m : Marking) (ts : List Datum) (p : Nat) : Int :=
  ts.foldr (fun t sum => ((result t).tokens p - m.tokens p) + sum) 0

theorem totalIncidence_eq_totalChange (hb : net.Built) (hm : net.Countable m) {result : Datum → Marking}
    (hfires : ∀ t ∈ ts, net.FiresExactly t m (result t)) (p : Fin net.places.length) :
    net.totalIncidence ts p = totalChange result m ts p := by
  induction ts with
  | nil => rfl
  | cons t ts ih =>
    have hchange := (hfires t List.mem_cons_self).tokens_incidence hb hm p
    rw [totalIncidence_cons, ih fun u hu => hfires u (List.mem_cons_of_mem t hu), totalChange, totalChange,
      List.foldr_cons, hchange]
    omega

/-- **Independent transitions fire in every order.** Let each of some transitions fire from `m` without wrapped sums,
and let no two of them share a place. Then they fire one after another in every order, without wrapped sums, and all
orders end in the same marking, which holds what `m` holds and the sum of what each transition changes alone. -/
theorem concurrent_firings (hb : net.Built) (hm : net.Owns m) (hrange : net.InRange m)
    {result : Datum → Marking} (hfires : ∀ t ∈ ts, net.FiresExactly t m (result t))
    (hindependent : ts.Pairwise net.Independent) :
    ∃ q, (∀ us, us.Perm ts →
        Run net.FiresExactly us m q ∧ ∀ q', Run net.Fires us m q' → q' = q) ∧
      ∀ p : Fin net.places.length, q.tokens p = m.tokens p + totalChange result m ts p := by
  have hm' : net.Countable m := ⟨hm, hrange⟩
  have hconcurrent : net.Concurrent ts m := ⟨fun t ht => ⟨result t, hfires t ht⟩, hindependent⟩
  obtain ⟨q, hrun⟩ := hconcurrent.exists_run hb hm'
  refine ⟨q, fun us hperm => ?_, fun p => ?_⟩
  · have hrun' := hconcurrent.run_perm hb hperm.symm hm' hrun
    have hunique : ∀ t m a b, net.Fires t m a → net.Fires t m b → a = b := fun _ _ _ _ => Fires.unique
    exact ⟨hrun', fun q' h => h.unique hunique (hrun'.imp fun _ _ _ hstep => hstep.1)⟩
  · rw [run_tokens_exactly hb hm' hrun, totalIncidence_eq_totalChange hb hm' hfires]

/-! ## A bath -/

/-- A bath with hot and cold water and a drain, each with room for twenty buckets. -/
def bath : Net where
  places := [.str "hot", .str "cold", .str "drain"]
  transitions := [.str "heat", .str "cool", .str "empty"]
  capacity := .replicate 3 20
  weights := #v[⟨#v[0, 0, 0], #v[3, 0, 0]⟩, ⟨#v[0, 1, 0], #v[0, 2, 0]⟩, ⟨#v[0, 0, 4], #v[0, 0, 0]⟩]

theorem bath_built : bath.Built :=
  ⟨.list [.str "hot", .str "cold", .str "drain"], .list [.str "heat", .str "cool", .str "empty"],
    [⟨.str "hot", .str "heat", 3, .post, by decide⟩, ⟨.str "cold", .str "cool", 1, .pre, by decide⟩,
      ⟨.str "cold", .str "cool", 2, .post, by decide⟩, ⟨.str "drain", .str "empty", 4, .pre, by decide⟩],
    .null, .int 20, by with_unfolding_all rfl⟩

def bathAt (hot cold drain : Int) : Marking :=
  ⟨[(.str "hot", .int hot), (.str "cold", .int cold), (.str "drain", .int drain)]⟩

theorem bathAt_owns (hot cold drain : Int) : bath.Owns (bathAt hot cold drain) := by
  refine ⟨by rfl, ?_⟩
  intro c hc
  simp only [bathAt, Marking.counts, List.map_cons, List.map_nil, List.mem_cons, List.not_mem_nil, or_false] at hc
  rcases hc with rfl | rfl | rfl <;> exact ⟨_, rfl⟩

/-- Heated, cooled and emptied in any order, the bath ends the same. -/
theorem concurrent_firings_bath :
    ∃ q, Run bath.FiresExactly [.str "heat", .str "cool", .str "empty"] (bathAt 17 1 9) q ∧
      Run bath.FiresExactly [.str "empty", .str "cool", .str "heat"] (bathAt 17 1 9) q ∧
      q.tokens 0 = 20 ∧ q.tokens 1 = 2 ∧ q.tokens 2 = 5 := by
  let result (t : Datum) : Marking :=
    if t == .str "heat" then bathAt 20 1 9 else if t == .str "cool" then bathAt 17 2 9 else bathAt 17 1 5
  have hfires : ∀ t ∈ [.str "heat", .str "cool", .str "empty"], bath.FiresExactly t (bathAt 17 1 9) (result t) := by
    intro t ht
    simp only [List.mem_cons, List.not_mem_nil, or_false] at ht
    rcases ht with rfl | rfl | rfl <;> exact ⟨rfl, by decide⟩
  have hheat : bath.transitionIndex (.str "heat") = .ok ⟨0, by decide⟩ := rfl
  have hcool : bath.transitionIndex (.str "cool") = .ok ⟨1, by decide⟩ := rfl
  have hempty : bath.transitionIndex (.str "empty") = .ok ⟨2, by decide⟩ := rfl
  have hindependent : [.str "heat", .str "cool", .str "empty"].Pairwise bath.Independent := by
    simp only [List.pairwise_cons, List.mem_cons, List.not_mem_nil, or_false, forall_eq_or_imp, forall_eq]
    exact ⟨⟨independent_of_index hheat hcool (by decide), independent_of_index hheat hempty (by decide)⟩,
      independent_of_index hcool hempty (by decide), by simp⟩
  obtain ⟨q, hrun, htokens⟩ :=
    concurrent_firings bath_built (bathAt_owns 17 1 9) (by decide) hfires hindependent
  have hreverse : [.str "empty", .str "cool", .str "heat"].Perm [Datum.str "heat", .str "cool", .str "empty"] :=
    List.reverse_perm [Datum.str "heat", .str "cool", .str "empty"]
  exact ⟨q, (hrun _ (.refl _)).1, (hrun _ hreverse).1, htokens ⟨0, by decide⟩, htokens ⟨1, by decide⟩,
    htokens ⟨2, by decide⟩⟩

end Net

end Petri
