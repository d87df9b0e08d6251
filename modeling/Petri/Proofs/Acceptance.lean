import Petri.Proofs.Arcs
import Petri.Proofs.Capacities
import Petri.Proofs.Runs

/-!
# Which descriptions are accepted

`Description.verdict` says what building a net from a description has to end with, in the order in which the
stages look for faults and without the way in which they look. `build_outcome` says that building ends so, for
every description of which the parts that serve as keys can be keys:

> where two faults come together, that of the earlier stage is reported, with its class, as long as what the fault
> shows can be written (`build_tooLong` is a case in which it cannot);
> without a fault there is a net, and reading its tables back as arcs gives the arcs of the description, from
> which the same net is built again.
-/

namespace Petri

/-- What a net is to be. `capacities` are the entries of a mapping; without entries every place has the
capacity `default`. -/
structure Description where
  places : List Datum
  transitions : List Datum
  arcs : List Arc
  capacities : List (Datum × Datum)
  default : Int

/-- What building a net can end with. -/
inductive Verdict where
  | refused (c : FaultClass)
  | tooLarge
  | accepted
  deriving DecidableEq

namespace Description

variable (D : Description)

/-- No identifier is declared twice. -/
def Separate : Prop :=
  Distinct D.places ∧ Distinct D.transitions ∧ ∀ p ∈ D.places, ∀ t ∈ D.transitions, (p == t) = false

instance : Decidable D.Separate :=
  inferInstanceAs (Decidable (_ ∧ _))

/-- The first stage with a fault decides. Capacities are only looked at if there are entries. -/
def verdict : Verdict :=
  if ¬ D.Separate then .refused .domain
  else if ¬ Net.NoneParallel D.arcs then .refused .duplicateArc
  else if ∃ a ∈ D.arcs, ¬ a.Declared D.places D.transitions then .refused .undeclaredEntity
  else if ∃ a ∈ D.arcs, mostTokens < a.label then .tooLarge
  else if D.capacities ≠ [] ∧ Capacity.Mismatches D.places D.capacities then .refused .capacityMismatch
  else if D.capacities ≠ [] ∧ Capacity.Exceeds D.places D.capacities then .tooLarge
  else .accepted

/-- The values stand for the description. What is declared and what the arcs join can be identifiers, and the
default is a word. -/
structure GivenBy (places transitions capacity default : Datum) : Prop where
  places : Domain.sequence places = .ok D.places
  transitions : Domain.sequence transitions = .ok D.transitions
  places_hashable : ∀ p ∈ D.places, p.hashable = true
  transitions_hashable : ∀ t ∈ D.transitions, t.hashable = true
  arcs_hashable : ∀ a ∈ D.arcs, a.hashable = true
  capacity : Capacity.Describes capacity D.capacities
  default : default.toInt = .ok D.default
  default_fits : Datum.fitsWord D.default = true

/-- The net is what the description says. Its arcs come in another order, and their ends in the spelling of
the declared identifiers. -/
structure Realizes (net : Net) : Prop where
  places : net.places = D.places
  transitions : net.transitions = D.transitions
  arcs : ∃ read spelled, net.readBack = .ok read ∧ spelled.Perm D.arcs ∧ (read == spelled) = true
  default : D.capacities = [] → ∀ p, net.capacityAt p = D.default
  capacities : D.capacities ≠ [] →
    ∀ p, Capacity.numberUnder? D.capacities (net.places.get p) = some (net.capacityAt p)

/-- The value is one that a fault in the description can show. -/
def Gives (x : Datum) : Prop :=
  x ∈ D.transitions ∨ (∃ a ∈ D.arcs, x = a.place ∨ x = a.transition) ∨
    Capacity.Involves D.places D.capacities x

variable {D} in
theorem Gives.writable {x : Datum} (h : D.Gives x) (hplaces : ∀ p ∈ D.places, p.Writable)
    (htransitions : ∀ t ∈ D.transitions, t.Writable)
    (harcs : ∀ a ∈ D.arcs, a.place.Writable ∧ a.transition.Writable)
    (hcapacities : ∀ e ∈ D.capacities, e.1.Writable ∧ e.2.Writable) : x.Writable := by
  rcases h with ht | ⟨a, ha, rfl | rfl⟩ | hx
  · exact htransitions x ht
  · exact (harcs a ha).1
  · exact (harcs a ha).2
  · exact hx.writable hplaces hcapacities

/-- The result `r` is what the verdict says. -/
def EndsWith (r : Except Fault Net) : Verdict → Prop
  | .refused c => Refused r c D.Gives
  | .tooLarge => r = .error (.value .tooLarge)
  | .accepted => ∃ net, r = .ok net ∧ D.Realizes net

end Description

namespace Net

variable {D : Description} {places transitions capacity default : Datum}

/-- Identifiers that are all different are kept, and the rest of the stages decide. -/
theorem build_of_separate (h : D.GivenBy places transitions capacity default) (hsep : D.Separate)
    (arcs : List Arc) : (build places transitions arcs capacity default).result
      = assemble D.places D.transitions arcs capacity default := by
  show (Domain.normalize places "place" >>= fun ps => Domain.normalize transitions "transition" >>= fun ts =>
    assemble ps ts arcs capacity default) = _
  rw [Domain.normalize_distinct h.places h.places_hashable hsep.1, ok_bind,
    Domain.normalize_distinct h.transitions h.transitions_hashable hsep.2.1, ok_bind]

theorem build_not_separate (h : D.GivenBy places transitions capacity default) (hsep : ¬ D.Separate) :
    Refused (build places transitions D.arcs capacity default).result .domain D.Gives := by
  show Refused (Domain.normalize places "place" >>= fun ps =>
    Domain.normalize transitions "transition" >>= fun ts => assemble ps ts D.arcs capacity default) .domain D.Gives
  have hplaces : ∀ x ∈ D.places, D.Gives x := fun x hx => .inr (.inr (.inl hx))
  by_cases hp : Distinct D.places
  · rw [Domain.normalize_distinct h.places h.places_hashable hp, ok_bind]
    by_cases ht : Distinct D.transitions
    · rw [Domain.normalize_distinct h.transitions h.transitions_hashable ht, ok_bind, assemble]
      refine ((checkDisjoint_refused fun hok => hsep ⟨hp, ht, ?_⟩).mono fun x hx => ?_).bind _
      · exact checkDisjoint_eq_ok.mp hok
      · exact (List.mem_append.mp hx).elim (hplaces x) .inl
    · exact ((Domain.normalize_refused h.transitions h.transitions_hashable ht).mono fun _ => .inl).bind _
  · exact ((Domain.normalize_refused h.places h.places_hashable hp).mono hplaces).bind _

/-! ## Stage by stage -/

/-- Nothing is wrong with the arcs of the description. -/
structure ArcsAccepted (D : Description) : Prop where
  distinct : NoneParallel D.arcs
  declared : ∀ a ∈ D.arcs, a.Declared D.places D.transitions
  words : ∀ a ∈ D.arcs, (a.label : Int) ≤ mostTokens

/-- If nothing is wrong with identifiers and arcs, the capacities decide. -/
theorem assemble_of_arcs (h : D.GivenBy places transitions capacity default) (hsep : D.Separate)
    (harcs : ArcsAccepted D) : assemble D.places D.transitions D.arcs capacity default
      = (Capacity.resolve D.places capacity default).map fun words => ⟨D.places, D.transitions, words,
          Vector.ofFn fun t => weightsOf D.places D.arcs (D.transitions.get t)⟩ := by
  rw [assemble, checkDisjoint_eq_ok.mpr hsep.2.2, (checkArcs_eq_ok h.arcs_hashable).mpr harcs.distinct,
    checkDeclared_eq_ok.mpr harcs.declared, checkLabels_eq_ok.mpr harcs.words]
  cases Capacity.resolve D.places capacity default <;> rfl

/-- With the capacities resolved there is a net as described. -/
theorem realizes_of_resolve (h : D.GivenBy places transitions capacity default) (hsep : D.Separate)
    (harcs : ArcsAccepted D) {words : Vector Int64 D.places.length}
    (hwords : Capacity.resolve D.places capacity default = .ok words)
    (hdefault : D.capacities = [] → ∀ p, (words.get p).toInt = D.default)
    (hcapacities : D.capacities ≠ [] →
      ∀ p, Capacity.numberUnder? D.capacities (D.places.get p) = some (words.get p).toInt) :
    ∃ net, assemble D.places D.transitions D.arcs capacity default = .ok net ∧ D.Realizes net := by
  have hok : assemble D.places D.transitions D.arcs capacity default = .ok ⟨D.places, D.transitions, words,
      Vector.ofFn fun t => weightsOf D.places D.arcs (D.transitions.get t)⟩ := by
    rw [assemble_of_arcs h hsep harcs, hwords]
    rfl
  have hbuilt : Built _ := ⟨_, _, _, _, _, (build_of_separate h hsep _).trans hok⟩
  obtain ⟨spelled, hperm, hsame⟩ := hbuilt.arcs_perm hok harcs.distinct harcs.declared
  exact ⟨_, hok, rfl, rfl, ⟨_, spelled, readBack_eq, hperm, hsame⟩, hdefault, hcapacities⟩

theorem capacities_endsWith (h : D.GivenBy places transitions capacity default) (hsep : D.Separate)
    (harcs : ArcsAccepted D) :
    D.EndsWith (assemble D.places D.transitions D.arcs capacity default)
      (if D.capacities ≠ [] ∧ Capacity.Mismatches D.places D.capacities then .refused .capacityMismatch
        else if D.capacities ≠ [] ∧ Capacity.Exceeds D.places D.capacities then .tooLarge
        else .accepted) := by
  have hcapacity := h.capacity
  by_cases hsome : D.capacities = []
  · -- without entries there is nothing to be wrong with them
    rw [if_neg fun hbad => hbad.1 hsome, if_neg fun hbad => hbad.1 hsome]
    rw [hsome] at hcapacity
    have hwords : Capacity.resolve D.places capacity default = _ :=
      Capacity.resolve_default hcapacity h.default h.default_fits
    exact realizes_of_resolve h hsep harcs hwords (fun _ p => Capacity.toInt_replicate h.default_fits p) (absurd hsome)
  by_cases hmatch : Capacity.Mismatches D.places D.capacities
  · rw [if_pos ⟨hsome, hmatch⟩, assemble_of_arcs h hsep harcs]
    exact ((Capacity.resolve_refused hcapacity hsome h.places_hashable hmatch).mono fun _ => .inr ∘ .inr).map _
  rw [if_neg fun hbad => hmatch hbad.2]
  by_cases hlarge : Capacity.Exceeds D.places D.capacities
  · rw [if_pos ⟨hsome, hlarge⟩, assemble_of_arcs h hsep harcs,
      Capacity.resolve_too_large hcapacity hsome h.places_hashable hmatch hlarge]
    rfl
  rw [if_neg fun hbad => hlarge hbad.2]
  obtain ⟨words, hwords, hnumbers⟩ : ∃ words, Capacity.resolve D.places capacity default = .ok words ∧ _ :=
    Capacity.resolve_explicit hcapacity hsome h.places_hashable hmatch hlarge
  exact realizes_of_resolve h hsep harcs hwords (absurd · hsome) fun _ p => hnumbers p

theorem assemble_endsWith (h : D.GivenBy places transitions capacity default) (hsep : D.Separate) :
    D.EndsWith (assemble D.places D.transitions D.arcs capacity default) D.verdict := by
  unfold Description.verdict
  rw [if_neg fun hno => hno hsep]
  have hdisjoint := checkDisjoint_eq_ok.mpr hsep.2.2
  by_cases hparallel : ¬ NoneParallel D.arcs
  · rw [if_pos hparallel, assemble, hdisjoint, ok_bind]
    refine ((checkArcs_refused h.arcs_hashable fun hok => hparallel ?_).mono fun _ => .inr ∘ .inl).bind _
    exact (checkArcs_eq_ok h.arcs_hashable).mp hok
  rw [if_neg hparallel]
  have hnone := Decidable.not_not.mp hparallel
  have hdistinct := (checkArcs_eq_ok h.arcs_hashable).mpr hnone
  by_cases hundeclared : ∃ a ∈ D.arcs, ¬ a.Declared D.places D.transitions
  · rw [if_pos hundeclared, assemble, hdisjoint, ok_bind, hdistinct, ok_bind]
    obtain ⟨a, ha, hno⟩ := hundeclared
    have hrefused := checkDeclared_refused fun hok => hno (checkDeclared_eq_ok.mp hok a ha)
    exact (hrefused.mono fun _ => .inr ∘ .inl).bind _
  rw [if_neg hundeclared]
  have hdeclared : ∀ a ∈ D.arcs, a.Declared D.places D.transitions := by simpa using hundeclared
  by_cases hlarge : ∃ a ∈ D.arcs, mostTokens < a.label
  · obtain ⟨a, ha, hmost⟩ := hlarge
    have hlabels : checkLabels D.arcs = .error (.value .tooLarge) := checkLabels_eq_error fun hok => by
      have hle := checkLabels_eq_ok.mp hok a ha
      omega
    rw [if_pos ⟨a, ha, hmost⟩, assemble, hdisjoint, ok_bind, hdistinct, ok_bind,
      checkDeclared_eq_ok.mpr hdeclared, ok_bind, hlabels]
    rfl
  rw [if_neg hlarge]
  have hwords : ∀ a ∈ D.arcs, (a.label : Int) ≤ mostTokens := by simpa using hlarge
  exact capacities_endsWith h hsep ⟨hnone, hdeclared, hwords⟩

theorem build_endsWith (h : D.GivenBy places transitions capacity default) :
    D.EndsWith (build places transitions D.arcs capacity default).result D.verdict := by
  by_cases hsep : D.Separate
  · rw [build_of_separate h hsep]
    exact assemble_endsWith h hsep
  · unfold Description.verdict
    rw [if_pos hsep]
    exact build_not_separate h hsep

/-- Building ends with a net exactly if the verdict says so. -/
theorem exists_ok_iff {r : Except Fault Net} {v : Verdict} (h : D.EndsWith r v) :
    (∃ net, r = .ok net) ↔ v = .accepted := by
  cases v with
  | refused c =>
    simp only [reduceCtorEq, iff_false, not_exists]
    exact Refused.ne_ok h
  | tooLarge => simp [show r = .error (.value .tooLarge) from h]
  | accepted =>
    obtain ⟨net, hok, _⟩ := h
    simp [hok]

theorem verdict_eq_accepted : D.verdict = .accepted ↔ D.Separate ∧ ArcsAccepted D ∧
    (D.capacities ≠ [] →
      ¬ Capacity.Mismatches D.places D.capacities ∧ ¬ Capacity.Exceeds D.places D.capacities) := by
  have hstage : ∀ {c : Prop} [Decidable c] {v w : Verdict}, v ≠ .accepted →
      ((if c then v else w) = .accepted ↔ ¬ c ∧ w = .accepted) := by
    intro c _ v w hv
    split
    next hc => simp [hc, hv]
    next hc => simp [hc]
  have harcs : ArcsAccepted D ↔ NoneParallel D.arcs ∧ (∀ a ∈ D.arcs, a.Declared D.places D.transitions) ∧
      ∀ a ∈ D.arcs, (a.label : Int) ≤ mostTokens :=
    ⟨fun h => ⟨h.distinct, h.declared, h.words⟩, fun h => ⟨h.1, h.2.1, h.2.2⟩⟩
  have hdeclared : (¬ ∃ a ∈ D.arcs, ¬ a.Declared D.places D.transitions) ↔
      ∀ a ∈ D.arcs, a.Declared D.places D.transitions := by simp
  have hwords : (¬ ∃ a ∈ D.arcs, mostTokens < (a.label : Int)) ↔
      ∀ a ∈ D.arcs, (a.label : Int) ≤ mostTokens := by simp
  rw [harcs, Description.verdict, hstage (by simp), hstage (by simp), hstage (by simp), hstage (by simp),
    hstage (by simp), hstage (by simp), Classical.not_not, Classical.not_not, hdeclared, hwords, not_and,
    not_and]
  constructor
  · intro h
    obtain ⟨hsep, hnone, hall, hmost, hmatch, hfits, _⟩ := h
    exact ⟨hsep, ⟨hnone, hall, hmost⟩, fun hsome => ⟨hmatch hsome, hfits hsome⟩⟩
  · intro h
    obtain ⟨hsep, ⟨hnone, hall, hmost⟩, hcapacities⟩ := h
    exact ⟨hsep, hnone, hall, hmost, fun hsome => (hcapacities hsome).1, fun hsome => (hcapacities hsome).2, rfl⟩

/-- **Building ends with the verdict on the description**, and a refused description with a fault of the class that
the verdict names if what it gives can be written. An accepted net is built again from its own arcs. -/
theorem build_outcome (h : D.GivenBy places transitions capacity default) :
    D.EndsWith (build places transitions D.arcs capacity default).result D.verdict ∧
      ((∀ x, D.Gives x → x.Writable) → ∀ c, D.verdict = .refused c →
        FailsWith (build places transitions D.arcs capacity default).result c) ∧
      ∀ net read, (build places transitions D.arcs capacity default).result = .ok net →
        net.readBack = .ok read → (build places transitions read capacity default).result = .ok net := by
  have hends := build_endsWith h
  refine ⟨hends, fun hwritable c hc => ?_, fun net read hok hread => ?_⟩
  · rw [hc] at hends
    exact Refused.failsWith hends hwritable
  · have hbuilt : net.Built := ⟨_, _, _, _, _, hok⟩
    have hsep : D.Separate := (verdict_eq_accepted.mp ((exists_ok_iff hends).mp ⟨net, hok⟩)).1
    rw [build_of_separate h hsep] at hok ⊢
    have hread : net.arcs = read := Except.ok.inj (readBack_eq.symm.trans hread)
    subst hread
    obtain ⟨_, _, _, _, words, hwords, rfl⟩ := assemble_eq_ok.mp hok
    rw [hbuilt.assemble_arcs (List.Perm.refl _), hwords]
    rfl

/-- A box that is to hold so many tokens. -/
def boxDescription (n : Int) : Description :=
  ⟨[.str "box"], [], [], [(.str "box", .int n)], 1⟩

theorem boxDescription_given (n : Int) : (boxDescription n).GivenBy (.list [.str "box"]) (.list [])
    (.dict [(.str "box", .int n)]) (.int 1) :=
  ⟨rfl, rfl, by simp [boxDescription, Datum.hashable], nofun, nofun, .dict (by simp [Datum.hashable]), rfl,
    (by decide : Datum.fitsWord 1 = true)⟩

theorem boxDescription_separate (n : Int) : (boxDescription n).Separate :=
  ⟨List.pairwise_singleton .., .nil, nofun⟩

theorem boxDescription_verdict {n : Int} (hneg : n < 0) :
    (boxDescription n).verdict = .refused .capacityMismatch := by
  have hmismatch : Capacity.Mismatches [.str "box"] [(.str "box", .int n)] :=
    .inr ⟨.str "box", List.mem_cons_self, fun k hk => Option.some.inj hk ▸ hneg⟩
  unfold Description.verdict
  rw [if_neg fun hno => hno (boxDescription_separate n), if_neg fun hno => hno .nil, if_neg nofun, if_neg nofun,
    if_pos ⟨List.cons_ne_nil _ _, hmismatch⟩]

theorem build_box {n : Int} (hneg : n < 0) (hlong : ¬ (Datum.int n).Writable) :
    (build (.list [.str "box"]) (.list []) [] (.dict [(.str "box", .int n)]) (.int 1)).result
      = .error (.value .noNumeral) := by
  have hdescribes : Capacity.Describes (.dict [(.str "box", .int n)]) [(.str "box", .int n)] :=
    (boxDescription_given n).capacity
  have hkeys : Capacity.checkKeys [.str "box"] (.dict [(.str "box", .int n)]) = .ok () :=
    (Capacity.checkKeys_eq hdescribes (List.cons_ne_nil _ _)).1 ⟨by simp, by simp⟩
  have hvalue : Capacity.valueFor (.dict [(.str "box", .int n)]) (.str "box") = .error (.value .noNumeral) := by
    show (if 0 ≤ n then _ else (Fault.badCapacity (.str "box") (.int n)).raise) = _
    rw [if_neg (Int.not_le.mpr hneg)]
    exact Fault.raise_of_not_worded rfl fun hworded => hlong (hworded _ (by simp [Fault.shown]))
  have hresolve : Capacity.resolve [.str "box"] (.dict [(.str "box", .int n)]) (.int 1)
      = .error (.value .noNumeral) := by
    rw [Capacity.resolve, if_pos (hdescribes.truthy_iff.mpr (List.cons_ne_nil _ _)), Capacity.explicit, hkeys,
      ok_bind, List.mapM_cons, hvalue]
    rfl
  rw [build_of_separate (boxDescription_given n) (boxDescription_separate n)]
  have harcs : ArcsAccepted (boxDescription n) :=
    ⟨.nil, fun _ ha => absurd ha List.not_mem_nil, fun _ ha => absurd ha List.not_mem_nil⟩
  refine (assemble_of_arcs (boxDescription_given n) (boxDescription_separate n) harcs).trans ?_
  exact congrArg (Except.map _) hresolve

/-- No box can be built whose capacity is so far below zero that the number cannot be written, but it is not refused
as a capacity that does not match: what fails is the message. -/
theorem build_tooLong :
    (boxDescription (-Text.tooLong)).GivenBy (.list [.str "box"]) (.list [])
        (.dict [(.str "box", .int (-Text.tooLong))]) (.int 1) ∧
      (boxDescription (-Text.tooLong)).verdict = .refused .capacityMismatch ∧
      ¬ FailsWith (build (.list [.str "box"]) (.list []) [] (.dict [(.str "box", .int (-Text.tooLong))])
        (.int 1)).result .capacityMismatch := by
  have hneg : -Text.tooLong < 0 := Int.neg_neg_of_pos Text.tooLong_pos
  refine ⟨boxDescription_given _, boxDescription_verdict hneg, ?_⟩
  rw [build_box hneg Datum.not_writable_neg_tooLong]
  exact not_failsWith_value

/-- A lamp that is described by other arcs or capacities. -/
def lampDescription (arcs : List Arc) (capacities : List (Datum × Datum)) : Description :=
  ⟨lamp.places, lamp.transitions, arcs, capacities, 1⟩

theorem lampDescription_given {arcs : List Arc} {capacities : List (Datum × Datum)}
    (harcs : ∀ a ∈ arcs, a.hashable = true) (hkeys : ∀ e ∈ capacities, e.1.hashable = true) :
    (lampDescription arcs capacities).GivenBy (.list lamp.places) (.list lamp.transitions)
      (.dict capacities) (.int 1) := by
  have hplaces : ∀ p ∈ lamp.places, p.hashable = true := by decide
  have htransitions : ∀ t ∈ lamp.transitions, t.hashable = true := by decide
  have hfits : Datum.fitsWord 1 = true := by decide
  exact ⟨rfl, rfl, hplaces, htransitions, harcs, .dict hkeys, rfl, hfits⟩

/-- Room for more tokens than one. -/
def roomier : List (Datum × Datum) := [(.str "off", .int 2), (.str "on", .int 3)]

/-- The lamp breaks twice, at a transition that it does not have. -/
def breaks : List Arc :=
  [⟨.str "on", .str "break", 1, .pre, by decide⟩, ⟨.str "on", .str "break", 2, .pre, by decide⟩]

/-- With its own arcs and more room the lamp is accepted. Arcs that break it are refused because one repeats the
other, although they name no transition of the lamp and the capacities are wrong as well. -/
theorem build_outcome_lamp :
    (∃ net, (build (.list lamp.places) (.list lamp.transitions) lamp.arcs (.dict roomier) (.int 1)).result
        = .ok net ∧ ∀ p, Capacity.numberUnder? roomier (net.places.get p) = some (net.capacityAt p)) ∧
    FailsWith (build (.list lamp.places) (.list lamp.transitions) breaks
      (.dict [(.str "off", .int (-1))]) (.int 1)).result .duplicateArc := by
  constructor
  · have hverdict : (lampDescription lamp.arcs roomier).verdict = .accepted := by decide
    have harcs : ∀ a ∈ lamp.arcs, a.hashable = true := fun a ha => (lamp_built.arcs_checked ha).1
    have hends := (build_outcome (lampDescription_given harcs (by decide : ∀ e ∈ roomier, _))).1
    rw [hverdict] at hends
    obtain ⟨net, hok, hnet⟩ := hends
    exact ⟨net, hok, hnet.capacities (List.cons_ne_nil _ _)⟩
  · have hverdict : (lampDescription breaks [(.str "off", .int (-1))]).verdict
        = .refused .duplicateArc := by decide
    have hkeys : ∀ e ∈ [(Datum.str "off", Datum.int (-1))], e.1.hashable = true := by decide
    refine (build_outcome (lampDescription_given (by decide : ∀ a ∈ breaks, _) hkeys)).2.1 (fun x hx => ?_) _ hverdict
    exact hx.writable (by decide) (by decide) (by decide) (by decide)

end Net

end Petri
