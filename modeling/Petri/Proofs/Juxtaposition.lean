import Petri.Proofs.Acceptance
import Petri.Proofs.Correspondence
import Petri.Proofs.Export
import Petri.Proofs.Locality

/-!
# Nets side by side

Two nets without a common identifier are put side by side by declaring the places and transitions of both, with all
arcs and all capacities. What comes out is accepted, and each half goes on as if it were alone:

> `build_beside`: the description of both is accepted, and the net that it gives is `Net.beside`;
> `mem_successorWords_beside`, `mem_predecessorWords_beside`: a step of the whole is a step of one half;
> `juxtaposed`: **nets side by side do what each of them does.**
-/

namespace Petri

/-! ## Markings side by side -/

namespace Marking

variable {m₁ m₂ q₁ q₂ : Marking}

instance : Append Marking := ⟨fun m₁ m₂ => ⟨m₁.entries ++ m₂.entries⟩⟩

theorem places_append : (m₁ ++ m₂).places = m₁.places ++ m₂.places := List.map_append

theorem counts_append : (m₁ ++ m₂).counts = m₁.counts ++ m₂.counts := List.map_append

theorem beq_append (h₁ : (m₁ == q₁) = true) (h₂ : (m₂ == q₂) = true) : (m₁ ++ m₂ == q₁ ++ q₂) = true := by
  obtain ⟨hcounts₁, hplaces₁⟩ := beq_iff.mp h₁
  obtain ⟨hcounts₂, hplaces₂⟩ := beq_iff.mp h₂
  rw [beq_iff, places_append, places_append, counts_append, counts_append]
  exact ⟨list_beq_append hcounts₁ hcounts₂, list_beq_append hplaces₁ hplaces₂⟩

theorem tokens_append_left {i : Nat} (hi : i < m₁.counts.length) : (m₁ ++ m₂).tokens i = m₁.tokens i := by
  rw [tokens, tokens, counts_append, List.getElem?_append_left hi]

theorem tokens_append_right (i : Nat) : (m₁ ++ m₂).tokens (m₁.counts.length + i) = m₂.tokens i := by
  rw [tokens, tokens, counts_append, List.getElem?_append_right (by omega), Nat.add_sub_cancel_left]

end Marking

namespace Net

/-! ## Two nets as one -/

/-- No identifier of one net is the same as one of the other. -/
def Apart (a b : Net) : Prop :=
  ∀ x ∈ a.places ++ a.transitions, ∀ y ∈ b.places ++ b.transitions, (x == y) = false

instance (a b : Net) : Decidable (a.Apart b) :=
  inferInstanceAs (Decidable (∀ x ∈ a.places ++ a.transitions, ∀ y ∈ b.places ++ b.transitions, (x == y) = false))

/-- The net with the places and transitions of both. No transition of one has arcs in the other. -/
@[reducible] def beside (a b : Net) : Net where
  places := a.places ++ b.places
  transitions := a.transitions ++ b.transitions
  capacity := joined (position a.places b.places) a.capacity b.capacity
  weights := joined (position a.transitions b.transitions)
    (a.weights.map fun w => Weights.beside (position a.places b.places) w (Weights.idle _))
    (b.weights.map fun w => Weights.beside (position a.places b.places) (Weights.idle _) w)

/-- The entries describe the capacities of both nets, under all of their places and nothing else. -/
structure Unites (a b : Net) (es : List (Datum × Datum)) : Prop where
  keys : Capacity.KeysMatch (a.places ++ b.places) es
  left : ∀ i, Capacity.numberUnder? es (a.places.get i) = some (a.capacityAt i)
  right : ∀ i, Capacity.numberUnder? es (b.places.get i) = some (b.capacityAt i)

/-- The values declare the places and transitions of both nets, one after the other, and describe the capacities of
both. The default is a word, which matters only where there are no places. -/
structure DescribedTogether (a b : Net) (places transitions capacity default : Datum) : Prop where
  places : Domain.sequence places = .ok (a.places ++ b.places)
  transitions : Domain.sequence transitions = .ok (a.transitions ++ b.transitions)
  capacity : ∃ es, Capacity.Describes capacity es ∧ a.Unites b es
  default : ∃ k, default.toInt = .ok k ∧ Datum.fitsWord k = true

/-! ## Arcs of one net -/

/-- The net was assembled from these arcs. -/
structure MadeFrom (net : Net) (arcs : List Arc) : Prop where
  hashable : ∀ x ∈ arcs, x.hashable = true
  noneParallel : NoneParallel arcs
  declared : ∀ x ∈ arcs, x.Declared net.places net.transitions
  words : ∀ x ∈ arcs, (x.label : Int) ≤ mostTokens
  weights : ∀ d t p, net.weightAt d t p = weightIn arcs d (net.transitions.get t) (net.places.get p)

variable {a b net : Net} {arcs arcs₁ arcs₂ : List Arc} {d : Direction} {t p : Datum}

theorem madeFrom_of_assemble {capacity default : Datum}
    (h : assemble net.places net.transitions arcs capacity default = .ok net) : net.MadeFrom arcs := by
  obtain ⟨_, hchecked, hdeclared, hlabels, _⟩ := assemble_eq_ok.mp h
  have hhash := hashable_of_checkArcs hchecked
  exact ⟨hhash, (checkArcs_eq_ok hhash).mp hchecked, checkDeclared_eq_ok.mp hdeclared,
    checkLabels_eq_ok.mp hlabels, fun _ _ _ => weightAt_of_assemble h⟩

/-- An arc between declared ends joins nothing else. -/
theorem joins_eq_false {x : Arc} (hx : x.Declared net.places net.transitions)
    (h : net.places.any (· == p) = false ∨ net.transitions.any (· == t) = false) : x.joins d t p = false := by
  cases hjoins : x.joins d t p with
  | false => rfl
  | true =>
    obtain ⟨_, ht, hp⟩ := Arc.joins_iff.mp hjoins
    rcases h with hno | hno
    · rw [← any_beq_congr hp, hx.1] at hno
      cases hno
    · rw [← any_beq_congr ht, hx.2] at hno
      cases hno

theorem find?_joins_eq_none (h : ∀ x ∈ arcs, x.joins d t p = false) : arcs.find? (·.joins d t p) = none :=
  List.find?_eq_none.mpr fun x hx => by simp [h x hx]

theorem weightIn_append_left (h : ∀ x ∈ arcs₂, x.joins d t p = false) :
    weightIn (arcs₁ ++ arcs₂) d t p = weightIn arcs₁ d t p := by
  rw [weightIn, List.find?_append, find?_joins_eq_none h, Option.or_none, weightIn]

theorem weightIn_append_right (h : ∀ x ∈ arcs₁, x.joins d t p = false) :
    weightIn (arcs₁ ++ arcs₂) d t p = weightIn arcs₂ d t p := by
  rw [weightIn, List.find?_append, find?_joins_eq_none h, Option.none_or, weightIn]

theorem weightIn_eq_zero (h : ∀ x ∈ arcs, x.joins d t p = false) : weightIn arcs d t p = 0 := by
  rw [weightIn, find?_joins_eq_none h]
  rfl

namespace Apart

theorem symm (h : a.Apart b) : b.Apart a := fun y hy x hx => by rw [BEq.comm]; exact h x hx y hy

theorem place (h : a.Apart b) (i : Fin a.places.length) : b.places.any (· == a.places.get i) = false :=
  List.any_eq_false.mpr fun y hy => by
    rw [BEq.comm, h _ (List.mem_append_left _ (List.get_mem _ i)) y (List.mem_append_left _ hy)]
    exact Bool.false_ne_true

theorem transition (h : a.Apart b) (j : Fin a.transitions.length) :
    b.transitions.any (· == a.transitions.get j) = false :=
  List.any_eq_false.mpr fun y hy => by
    rw [BEq.comm, h _ (List.mem_append_right _ (List.get_mem _ j)) y (List.mem_append_right _ hy)]
    exact Bool.false_ne_true

end Apart

/-! ## The weights of both -/

theorem inDirection_beside {n k N : Nat} (e : Fin n ⊕ Fin k ≃ Fin N) (v : Weights n) (w : Weights k)
    (d : Direction) : (Weights.beside e v w).inDirection d = joined e (v.inDirection d) (w.inDirection d) := by
  cases d <;> rfl

theorem get_inDirection_idle {n : Nat} (d : Direction) (i : Fin n) :
    ((Weights.idle n).inDirection d).get i = 0 := by
  cases d with
  | pre => exact Weights.get_pre_idle i
  | post => exact Weights.get_post_idle i

theorem weights_beside_inl (j : Fin a.transitions.length) :
    (a.beside b).weights.get (position a.transitions b.transitions (.inl j))
      = Weights.beside (position a.places b.places) (a.weights.get j) (Weights.idle _) :=
  (get_joined_inl _ _ _ j).trans (Vector.getElem_map ..)

theorem weights_beside_inr (j : Fin b.transitions.length) :
    (a.beside b).weights.get (position a.transitions b.transitions (.inr j))
      = Weights.beside (position a.places b.places) (Weights.idle _) (b.weights.get j) :=
  (get_joined_inr _ _ _ j).trans (Vector.getElem_map ..)

/-- The arcs of both give a transition of the first net the weights that it has there. -/
theorem weightsOf_inl (ha : a.MadeFrom arcs₁) (hb : b.MadeFrom arcs₂) (hapart : a.Apart b)
    (j : Fin a.transitions.length) :
    weightsOf (a.places ++ b.places) (arcs₁ ++ arcs₂) (a.transitions.get j)
      = Weights.beside (position a.places b.places) (a.weights.get j) (Weights.idle _) := by
  have hlabels := List.forall_mem_append.mpr ⟨ha.words, hb.words⟩
  have hforeign : ∀ d p, ∀ x ∈ arcs₂, x.joins d (a.transitions.get j) p = false := fun _ _ x hx =>
    joins_eq_false (hb.declared x hx) (.inr (hapart.transition j))
  refine weights_ext fun d => (forall_positions (position a.places b.places)).mpr ⟨fun i => ?_, fun i => ?_⟩
  · rw [toInt_weightsOf _ hlabels, get_position_inl, weightIn_append_left (hforeign d _), ← ha.weights d j i,
      inDirection_beside, get_joined_inl]
    rfl
  · have hnone : ∀ x ∈ arcs₁, x.joins d (a.transitions.get j) (b.places.get i) = false := fun x hx =>
      joins_eq_false (ha.declared x hx) (.inl (hapart.symm.place i))
    rw [toInt_weightsOf _ hlabels, get_position_inr, weightIn_append_left (hforeign d _), weightIn_eq_zero hnone,
      inDirection_beside, get_joined_inr, get_inDirection_idle]
    rfl

theorem weightsOf_inr (ha : a.MadeFrom arcs₁) (hb : b.MadeFrom arcs₂) (hapart : a.Apart b)
    (j : Fin b.transitions.length) :
    weightsOf (a.places ++ b.places) (arcs₁ ++ arcs₂) (b.transitions.get j)
      = Weights.beside (position a.places b.places) (Weights.idle _) (b.weights.get j) := by
  have hlabels := List.forall_mem_append.mpr ⟨ha.words, hb.words⟩
  have hforeign : ∀ d p, ∀ x ∈ arcs₁, x.joins d (b.transitions.get j) p = false := fun _ _ x hx =>
    joins_eq_false (ha.declared x hx) (.inr (hapart.symm.transition j))
  refine weights_ext fun d => (forall_positions (position a.places b.places)).mpr ⟨fun i => ?_, fun i => ?_⟩
  · have hnone : ∀ x ∈ arcs₂, x.joins d (b.transitions.get j) (a.places.get i) = false := fun x hx =>
      joins_eq_false (hb.declared x hx) (.inl (hapart.place i))
    rw [toInt_weightsOf _ hlabels, get_position_inl, weightIn_append_right (hforeign d _), weightIn_eq_zero hnone,
      inDirection_beside, get_joined_inl, get_inDirection_idle]
    rfl
  · rw [toInt_weightsOf _ hlabels, get_position_inr, weightIn_append_right (hforeign d _), ← hb.weights d j i,
      inDirection_beside, get_joined_inr]
    rfl

/-! ## Building both -/

variable {places transitions capacity default places₁ transitions₁ capacity₁ default₁ places₂ transitions₂
  capacity₂ default₂ : Datum} {es : List (Datum × Datum)} {k : Int}

theorem separate_beside (ha : a.Built) (hb : b.Built) (hapart : a.Apart b) : Description.Separate
    ⟨a.places ++ b.places, a.transitions ++ b.transitions, arcs, es, k⟩ := by
  refine ⟨List.pairwise_append.mpr ⟨ha.distinct, hb.distinct, fun x hx y hy => ?_⟩,
    List.pairwise_append.mpr ⟨ha.distinct_transitions, hb.distinct_transitions, fun x hx y hy => ?_⟩,
    fun x hx y hy => ?_⟩
  · exact hapart x (List.mem_append_left _ hx) y (List.mem_append_left _ hy)
  · exact hapart x (List.mem_append_right _ hx) y (List.mem_append_right _ hy)
  · rcases List.mem_append.mp hx with hx | hx <;> rcases List.mem_append.mp hy with hy | hy
    · exact ha.disjoint x hx y hy
    · exact hapart x (List.mem_append_left _ hx) y (List.mem_append_right _ hy)
    · exact hapart.symm x (List.mem_append_left _ hx) y (List.mem_append_right _ hy)
    · exact hb.disjoint x hx y hy

theorem declared_append {ps qs ts us : List Datum} {x : Arc} (h : x.Declared ps ts ∨ x.Declared qs us) :
    x.Declared (ps ++ qs) (ts ++ us) := by
  rw [Arc.Declared, List.any_append, List.any_append, Bool.or_eq_true, Bool.or_eq_true]
  rcases h with h | h
  · exact ⟨.inl h.1, .inl h.2⟩
  · exact ⟨.inr h.1, .inr h.2⟩

theorem arcsAccepted_beside (ha : a.MadeFrom arcs₁) (hb : b.MadeFrom arcs₂) (hapart : a.Apart b) :
    ArcsAccepted ⟨a.places ++ b.places, a.transitions ++ b.transitions, arcs₁ ++ arcs₂, es, k⟩ := by
  refine ⟨List.pairwise_append.mpr ⟨ha.noneParallel, hb.noneParallel, fun x hx y hy => ?_⟩,
    List.forall_mem_append.mpr ⟨fun x hx => declared_append (.inl (ha.declared x hx)),
      fun y hy => declared_append (.inr (hb.declared y hy))⟩,
    List.forall_mem_append.mpr ⟨ha.words, hb.words⟩⟩
  -- parallel arcs would have a transition in common
  cases hpar : x.parallel y with
  | false => rfl
  | true =>
    obtain ⟨t, ht, hsame⟩ := List.any_eq_true.mp (ha.declared x hx).2
    obtain ⟨u, hu, hsame'⟩ := List.any_eq_true.mp (hb.declared y hy).2
    have hboth : (t == u) = true :=
      BEq.trans (BEq.trans hsame (Arc.parallel_iff.mp hpar).2.1) (BEq.symm hsame')
    rw [hapart t (List.mem_append_right _ ht) u (List.mem_append_right _ hu)] at hboth
    cases hboth

/-- **Nets without a common identifier are accepted together.** -/
theorem build_beside (ha : (build places₁ transitions₁ arcs₁ capacity₁ default₁).result = .ok a)
    (hb : (build places₂ transitions₂ arcs₂ capacity₂ default₂).result = .ok b) (hapart : a.Apart b)
    (hnonneg : ∀ i, 0 ≤ a.capacityAt i) (hnonneg' : ∀ i, 0 ≤ b.capacityAt i)
    (h : a.DescribedTogether b places transitions capacity default) :
    (build places transitions (arcs₁ ++ arcs₂) capacity default).result = .ok (a.beside b) := by
  have hbuilt : a.Built := ⟨_, _, _, _, _, ha⟩
  have hbuilt' : b.Built := ⟨_, _, _, _, _, hb⟩
  have hmade := madeFrom_of_assemble (build_eq_ok.mp ha).2.2
  have hmade' := madeFrom_of_assemble (build_eq_ok.mp hb).2.2
  obtain ⟨es, hdescribes, hunites⟩ := h.capacity
  obtain ⟨k, hdefault, hfits⟩ := h.default
  have hgiven : Description.GivenBy
      ⟨a.places ++ b.places, a.transitions ++ b.transitions, arcs₁ ++ arcs₂, es, k⟩
      places transitions capacity default :=
    { places := h.places
      transitions := h.transitions
      places_hashable := List.forall_mem_append.mpr ⟨hbuilt.hashable, hbuilt'.hashable⟩
      transitions_hashable := List.forall_mem_append.mpr
        ⟨fun t ht => hbuilt.hashable_identifiers t (List.mem_append_right _ ht),
          fun t ht => hbuilt'.hashable_identifiers t (List.mem_append_right _ ht)⟩
      arcs_hashable := List.forall_mem_append.mpr ⟨hmade.hashable, hmade'.hashable⟩
      capacity := hdescribes
      default := hdefault
      default_fits := hfits }
  have hresolve : Capacity.resolve (a.places ++ b.places) capacity default
      = .ok (joined (position a.places b.places) a.capacity b.capacity) := by
    refine Capacity.resolve_of_numbers hdescribes hdefault hfits hgiven.places_hashable hunites.keys
      ((forall_positions (position a.places b.places)).mpr ⟨fun i => ?_, fun i => ?_⟩)
      ((forall_positions (position a.places b.places)).mpr ⟨fun i => ?_, fun i => ?_⟩)
    · rw [get_joined_inl]
      exact hnonneg i
    · rw [get_joined_inr]
      exact hnonneg' i
    · rw [get_joined_inl, get_position_inl]
      exact hunites.left i
    · rw [get_joined_inr, get_position_inr]
      exact hunites.right i
  have hweights : (Vector.ofFn fun t => weightsOf (a.places ++ b.places) (arcs₁ ++ arcs₂)
      ((a.transitions ++ b.transitions).get t)) = (a.beside b).weights := by
    have hget : ∀ t, (Vector.ofFn fun t => weightsOf (a.places ++ b.places) (arcs₁ ++ arcs₂)
        ((a.transitions ++ b.transitions).get t)).get t = weightsOf (a.places ++ b.places) (arcs₁ ++ arcs₂)
          ((a.transitions ++ b.transitions).get t) := fun t => Vector.getElem_ofFn t.isLt
    refine Weights.vector_ext ((forall_positions (position a.transitions b.transitions)).mpr
      ⟨fun j => ?_, fun j => ?_⟩)
    · rw [hget, get_position_inl, weightsOf_inl hmade hmade' hapart]
      exact (weights_beside_inl j).symm
    · rw [hget, get_position_inr, weightsOf_inr hmade hmade' hapart]
      exact (weights_beside_inr j).symm
  rw [build_of_separate hgiven (separate_beside hbuilt hbuilt' hapart)]
  refine (assemble_of_arcs hgiven (separate_beside hbuilt hbuilt' hapart)
    (arcsAccepted_beside hmade hmade' hapart)).trans ?_
  rw [hresolve]
  exact congrArg Except.ok (Net.mk.injEq .. |>.mpr ⟨rfl, rfl, HEq.rfl, heq_of_eq hweights⟩)

/-! ## Words of both -/

variable {m₁ m₂ : Marking} {u x : Vector Int64 a.places.length} {v y : Vector Int64 b.places.length}
  {z : Vector Int64 (a.beside b).places.length}

/-- The words of both nets, one after the other. -/
def both (u : Vector Int64 a.places.length) (v : Vector Int64 b.places.length) :
    Vector Int64 (a.beside b).places.length :=
  joined (position a.places b.places) u v

theorem owns_append (h₁ : a.Owns m₁) (h₂ : b.Owns m₂) : (a.beside b).Owns (m₁ ++ m₂) := by
  refine ⟨?_, ?_⟩
  · rw [Marking.places_append]
    exact list_beq_append h₁.places h₂.places
  · rw [Marking.counts_append]
    exact List.forall_mem_append.mpr ⟨h₁.whole, h₂.whole⟩

theorem tokens_append_inl (h₁ : a.Owns m₁) (i : Fin a.places.length) :
    (m₁ ++ m₂).tokens (position a.places b.places (.inl i)) = m₁.tokens i := by
  rw [position_inl_val]
  exact Marking.tokens_append_left (by rw [h₁.length_counts]; exact i.isLt)

theorem tokens_append_inr (h₁ : a.Owns m₁) (i : Fin b.places.length) :
    (m₁ ++ m₂).tokens (position a.places b.places (.inr i)) = m₂.tokens i := by
  rw [position_inr_val, ← h₁.length_counts]
  exact Marking.tokens_append_right i

theorem inRange_append (h₁ : a.Countable m₁) (h₂ : b.Countable m₂) : (a.beside b).InRange (m₁ ++ m₂) := by
  refine (forall_positions (position a.places b.places)).mpr ⟨fun i => ?_, fun i => ?_⟩
  · rw [tokens_append_inl h₁.1]
    exact h₁.2 i
  · rw [tokens_append_inr h₁.1]
    exact h₂.2 i

theorem wordsOf_append (h₁ : a.Owns m₁) :
    (a.beside b).wordsOf (m₁ ++ m₂) = both (a.wordsOf m₁) (b.wordsOf m₂) := by
  refine (eq_joined_iff _ _ _).mpr ⟨fun i => ?_, fun i => ?_⟩
  · rw [wordsOf, wordsOf, Weights.get_ofFn, Weights.get_ofFn]
    exact congrArg Int64.ofInt (tokens_append_inl h₁ i)
  · rw [wordsOf, wordsOf, Weights.get_ofFn, Weights.get_ofFn]
    exact congrArg Int64.ofInt (tokens_append_inr h₁ i)

theorem markingOfWords_both (u : Vector Int64 a.places.length) (v : Vector Int64 b.places.length) :
    (a.beside b).markingOfWords (both u v) = a.markingOfWords u ++ b.markingOfWords v := by
  refine Marking.ext_parts ?_ ?_
  · rw [places_markingOfWords, Marking.places_append, places_markingOfWords, places_markingOfWords]
  · have hwords : (both u v).toList = u.toList ++ v.toList := toList_joined a.places b.places u v
    rw [counts_markingOfWords, Marking.counts_append, counts_markingOfWords, counts_markingOfWords, hwords,
      List.map_append]

/-! ## Steps of both -/

theorem fire?_inl (hv : Weights.Natural v) (j : Fin a.transitions.length) :
    ((a.beside b).weights.get (position a.transitions b.transitions (.inl j))).fire? (a.beside b).capacity
        (both u v) = ((a.weights.get j).fire? a.capacity u).map (both · v) := by
  rw [weights_beside_inl]
  exact Weights.fire?_beside_idle _ _ hv

theorem fire?_inr (hu : Weights.Natural u) (j : Fin b.transitions.length) :
    ((a.beside b).weights.get (position a.transitions b.transitions (.inr j))).fire? (a.beside b).capacity
        (both u v) = ((b.weights.get j).fire? b.capacity v).map (both u) := by
  rw [weights_beside_inr]
  exact Weights.fire?_idle_beside _ _ hu

theorem revert?_inl (j : Fin a.transitions.length) :
    ((a.beside b).weights.get (position a.transitions b.transitions (.inl j))).revert? (a.beside b).capacity
        (both u v) = ((a.weights.get j).revert? a.capacity u).map (both · v) := by
  rw [weights_beside_inl]
  exact Weights.revert?_beside_idle _ _

theorem revert?_inr (j : Fin b.transitions.length) :
    ((a.beside b).weights.get (position a.transitions b.transitions (.inr j))).revert? (a.beside b).capacity
        (both u v) = ((b.weights.get j).revert? b.capacity v).map (both u) := by
  rw [weights_beside_inr]
  exact Weights.revert?_idle_beside _ _

/-- What some transition of the whole leads to, with the other half as it was, a transition of one half does. -/
theorem exists_step_beside
    {step : Fin (a.beside b).transitions.length → Option (Vector Int64 (a.beside b).places.length)}
    {stepLeft : Fin a.transitions.length → Option (Vector Int64 a.places.length)}
    {stepRight : Fin b.transitions.length → Option (Vector Int64 b.places.length)}
    (hleft : ∀ j, step (position a.transitions b.transitions (.inl j)) = (stepLeft j).map (both · v))
    (hright : ∀ j, step (position a.transitions b.transitions (.inr j)) = (stepRight j).map (both u)) :
    (∃ j, step j = some z) ↔
      (∃ x, (∃ j, stepLeft j = some x) ∧ z = both x v) ∨ ∃ y, (∃ j, stepRight j = some y) ∧ z = both u y := by
  refine (exists_positions (position a.transitions b.transitions)).trans (or_congr ?_ ?_)
  · simp only [hleft, Option.map_eq_some_iff, eq_comm (a := z)]
    exact ⟨fun ⟨j, x, hx, hz⟩ => ⟨x, ⟨j, hx⟩, hz⟩, fun ⟨x, ⟨j, hx⟩, hz⟩ => ⟨j, x, hx, hz⟩⟩
  · simp only [hright, Option.map_eq_some_iff, eq_comm (a := z)]
    exact ⟨fun ⟨j, y, hy, hz⟩ => ⟨y, ⟨j, hy⟩, hz⟩, fun ⟨y, ⟨j, hy⟩, hz⟩ => ⟨j, y, hy, hz⟩⟩

/-- `zs` are the words that come of `xs` in the first half and of `ys` in the second one, while the other half
stays at `v` or `u`. -/
def HalvesMoved (u : Vector Int64 a.places.length) (v : Vector Int64 b.places.length)
    (xs : List (Vector Int64 a.places.length)) (ys : List (Vector Int64 b.places.length))
    (zs : List (Vector Int64 (a.beside b).places.length)) : Prop :=
  ∀ z, z ∈ zs ↔ (∃ x ∈ xs, z = both x v) ∨ ∃ y ∈ ys, z = both u y

/-- **Firing in both nets is firing in one of them.** -/
theorem mem_successorWords_beside (hu : Weights.Natural u) (hv : Weights.Natural v) : HalvesMoved u v
    (a.successorWords u) (b.successorWords v) ((a.beside b).successorWords (both u v)) := by
  intro z
  rw [mem_successorWords_iff]
  simp only [mem_successorWords_iff]
  exact exists_step_beside (fire?_inl hv) (fire?_inr hu)

/-- **Reverting in both nets is reverting in one of them.** -/
theorem mem_predecessorWords_beside : HalvesMoved u v
    (a.predecessorWords u) (b.predecessorWords v) ((a.beside b).predecessorWords (both u v)) := by
  intro z
  rw [mem_predecessorWords_iff]
  simp only [mem_predecessorWords_iff, ← Weights.revert?_eq_some_iff]
  exact exists_step_beside revert?_inl revert?_inr

/-- The transitions that fire, in index order, are those of the first net and then those of the second one. -/
theorem firing_beside (hu : Weights.Natural u) (hv : Weights.Natural v) :
    (a.beside b).firingFrom (both u v) = a.firingFrom u ++ b.firingFrom v := by
  have hget : (a.transitions ++ b.transitions).get ∘ (fun j => position a.transitions b.transitions (.inl j))
      = a.transitions.get := funext (get_position_inl _ _)
  have hget' : (a.transitions ++ b.transitions).get ∘ (fun j => position a.transitions b.transitions (.inr j))
      = b.transitions.get := funext (get_position_inr _ _)
  have hfires : (a.beside b).firesAt (both u v) ∘ (fun j => position a.transitions b.transitions (.inl j))
      = a.firesAt u := by
    funext j
    rw [Function.comp_apply, firesAt, fire?_inl hv, Option.isSome_map, firesAt]
  have hfires' : (a.beside b).firesAt (both u v) ∘ (fun j => position a.transitions b.transitions (.inr j))
      = b.firesAt v := by
    funext j
    rw [Function.comp_apply, firesAt, fire?_inr hu, Option.isSome_map, firesAt]
  have hpositions : List.finRange (a.beside b).transitions.length = _ :=
    finRange_append a.transitions b.transitions
  unfold firingFrom
  rw [hpositions, List.filter_append, List.map_append, List.filter_map, List.filter_map, List.map_map,
    List.map_map, hget, hget', hfires, hfires']

/-! ## Nets side by side -/

/-- From the markings `m₁` and `m₂` together, `net` does what `a` does from `m₁`, which leaves `m₂`, and what `b`
does from `m₂`, which leaves `m₁`. -/
structure ActsApart (net a b : Net) (m₁ m₂ : Marking) : Prop where
  successors : ∃ xs ys found, (a.successors m₁.toDatum).result = .ok xs ∧
    (b.successors m₂.toDatum).result = .ok ys ∧ (net.successors (m₁ ++ m₂).toDatum).result = .ok found ∧
    SameMembers found (xs.map (· ++ m₂) ++ ys.map (m₁ ++ ·))
  enabledTransitions : ∃ ts us, a.enabledTransitions m₁.toDatum = .ok ts ∧
    b.enabledTransitions m₂.toDatum = .ok us ∧ net.enabledTransitions (m₁ ++ m₂).toDatum = .ok (ts ++ us)
  revertAll : ∃ xs ys found, a.revertAll m₁.toDatum = .ok xs ∧ b.revertAll m₂.toDatum = .ok ys ∧
    net.revertAll (m₁ ++ m₂).toDatum = .ok found ∧ SameMembers found (xs.map (· ++ m₂) ++ ys.map (m₁ ++ ·))

/-- Where the words have moved by halves, the markings have. -/
theorem sameMembers_of_moved (h₁ : a.Countable m₁) (h₂ : b.Countable m₂)
    {xs : List (Vector Int64 a.places.length)} {ys : List (Vector Int64 b.places.length)}
    {zs : List (Vector Int64 (a.beside b).places.length)}
    (h : HalvesMoved (a.wordsOf m₁) (b.wordsOf m₂) xs ys zs) :
    SameMembers (zs.map (a.beside b).markingOfWords)
      ((xs.map a.markingOfWords).map (· ++ m₂) ++ (ys.map b.markingOfWords).map (m₁ ++ ·)) := by
  have hleft : ∀ x, ((a.beside b).markingOfWords (both x (b.wordsOf m₂)) == a.markingOfWords x ++ m₂) = true := by
    intro x
    rw [markingOfWords_both]
    exact Marking.beq_append BEq.rfl
      (markingOfWords_wordsOf_beq h₂.1 h₂.2.fitsWords)
  have hright : ∀ y, ((a.beside b).markingOfWords (both (a.wordsOf m₁) y) == m₁ ++ b.markingOfWords y) = true := by
    intro y
    rw [markingOfWords_both]
    exact Marking.beq_append (markingOfWords_wordsOf_beq h₁.1 h₁.2.fitsWords)
      BEq.rfl
  constructor
  · intro q hq
    obtain ⟨z, hz, rfl⟩ := List.mem_map.mp hq
    rcases (h z).mp hz with ⟨x, hx, rfl⟩ | ⟨y, hy, rfl⟩
    · exact ⟨_, List.mem_append_left _ (List.mem_map_of_mem (List.mem_map_of_mem hx)), hleft x⟩
    · exact ⟨_, List.mem_append_right _ (List.mem_map_of_mem (List.mem_map_of_mem hy)), hright y⟩
  · intro q hq
    rcases List.mem_append.mp hq with hq | hq
    · obtain ⟨half, hhalf, rfl⟩ := List.mem_map.mp hq
      obtain ⟨x, hx, rfl⟩ := List.mem_map.mp hhalf
      exact ⟨_, List.mem_map_of_mem ((h _).mpr (.inl ⟨x, hx, rfl⟩)), BEq.symm (hleft x)⟩
    · obtain ⟨half, hhalf, rfl⟩ := List.mem_map.mp hq
      obtain ⟨y, hy, rfl⟩ := List.mem_map.mp hhalf
      exact ⟨_, List.mem_map_of_mem ((h _).mpr (.inr ⟨y, hy, rfl⟩)), BEq.symm (hright y)⟩

theorem actsApart_beside (h₁ : a.Countable m₁) (h₂ : b.Countable m₂) : (a.beside b).ActsApart a b m₁ m₂ := by
  have hown := owns_append h₁.1 h₂.1
  have hfit := (inRange_append h₁ h₂).fitsWords
  have hu := natural_wordsOf h₁.2
  have hv := natural_wordsOf h₂.2
  refine ⟨⟨_, _, _, successors_eq h₁.1 h₁.2.fitsWords, successors_eq h₂.1 h₂.2.fitsWords,
      successors_eq hown hfit, ?_⟩,
    ⟨_, _, enabledTransitions_eq h₁.1 h₁.2.fitsWords, enabledTransitions_eq h₂.1 h₂.2.fitsWords, ?_⟩,
    ⟨_, _, _, revertAll_eq h₁.1 h₁.2.fitsWords, revertAll_eq h₂.1 h₂.2.fitsWords, revertAll_eq hown hfit, ?_⟩⟩
  · rw [wordsOf_append h₁.1]
    exact sameMembers_of_moved h₁ h₂ (mem_successorWords_beside hu hv)
  · rw [enabledTransitions_eq hown hfit, wordsOf_append h₁.1, firing_beside hu hv]
  · rw [wordsOf_append h₁.1]
    exact sameMembers_of_moved h₁ h₂ mem_predecessorWords_beside

/-- **Nets side by side do what each of them does.** Two nets without a common identifier and without negative
capacities are accepted as one, with all places, transitions and arcs in this order and the capacities of both.
From a marking of each, with counts from zero to the greatest word, the whole fires and reverts as the one or the
other net, whose half of the marking changes while the other half stays. -/
theorem juxtaposed (ha : (build places₁ transitions₁ arcs₁ capacity₁ default₁).result = .ok a)
    (hb : (build places₂ transitions₂ arcs₂ capacity₂ default₂).result = .ok b) (hapart : a.Apart b)
    (hnonneg : ∀ i, 0 ≤ a.capacityAt i) (hnonneg' : ∀ i, 0 ≤ b.capacityAt i)
    (h : a.DescribedTogether b places transitions capacity default) :
    (build places transitions (arcs₁ ++ arcs₂) capacity default).result = .ok (a.beside b) ∧
      ∀ m₁ m₂, a.Countable m₁ → b.Countable m₂ → (a.beside b).ActsApart a b m₁ m₂ :=
  ⟨build_beside ha hb hapart hnonneg hnonneg' h, fun _ _ => actsApart_beside⟩

/-- A basin into which two pitchers are poured at a time. -/
def basin : Net where
  places := [.str "basin"]
  transitions := [.str "pour"]
  capacity := .replicate 1 5
  weights := #v[⟨.replicate 1 0, .replicate 1 2⟩]

def basinAt (pitchers : Int) : Marking := ⟨[(.str "basin", .int pitchers)]⟩

/-- A lamp and a basin are accepted together, and while the lamp is off it can be switched on or the basin can be
filled. Once the basin has no room, only the lamp is left. -/
theorem juxtaposed_lamp_basin :
    let places := Datum.list (lamp.places ++ basin.places)
    let transitions := Datum.list (lamp.transitions ++ basin.transitions)
    let capacity := Datum.dict [(.str "basin", .int 5), (.str "on", .int 1), (.str "off", .int 1)]
    lamp.Apart basin ∧ lamp.DescribedTogether basin places transitions capacity (.int 20) ∧
      (build places transitions (lamp.arcs ++ basin.arcs) capacity (.int 20)).result = .ok (lamp.beside basin) ∧
      (lamp.beside basin).enabledTransitions (lampAt 0 1 ++ basinAt 3).toDatum
        = .ok [.str "switchOn", .str "pour"] ∧
      (lamp.beside basin).enabledTransitions (lampAt 0 1 ++ basinAt 4).toDatum = .ok [.str "switchOn"] := by
  intro places transitions capacity
  have hapart : lamp.Apart basin := by decide
  have hunites : lamp.Unites basin [(.str "basin", .int 5), (.str "on", .int 1), (.str "off", .int 1)] :=
    ⟨⟨by decide, by decide⟩, by decide, by decide⟩
  have htogether : lamp.DescribedTogether basin places transitions capacity (.int 20) :=
    ⟨rfl, rfl, ⟨_, .dict (by decide), hunites⟩, ⟨20, rfl, by decide⟩⟩
  have hlamp : (build (.list lamp.places) (.list lamp.transitions) lamp.arcs .null (.int 1)).result
      = .ok lamp := by with_unfolding_all rfl
  have hbasin : (build (.list basin.places) (.list basin.transitions) basin.arcs .null (.int 5)).result
      = .ok basin := by with_unfolding_all rfl
  obtain ⟨hbuild, hacts⟩ := juxtaposed hlamp hbasin hapart (by decide) (by decide) htogether
  have hoff : lamp.Countable (lampAt 0 1) := ⟨lampAt_owns 0 1, by decide⟩
  have howns : ∀ k, basin.Owns (basinAt k) := fun k => ⟨rfl, fun c hc => ⟨k, List.mem_singleton.mp hc⟩⟩
  have hswitch : lamp.enabledTransitions (lampAt 0 1).toDatum = .ok [.str "switchOn"] := rfl
  have hpour : basin.enabledTransitions (basinAt 3).toDatum = .ok [.str "pour"] := rfl
  have hfull : basin.enabledTransitions (basinAt 4).toDatum = .ok [] := rfl
  refine ⟨hapart, htogether, hbuild, ?_, ?_⟩
  · obtain ⟨_, _, hts, hus, hboth⟩ := (hacts _ _ hoff ⟨howns 3, by decide⟩).enabledTransitions
    obtain rfl := Except.ok.inj (hswitch.symm.trans hts)
    obtain rfl := Except.ok.inj (hpour.symm.trans hus)
    exact hboth
  · obtain ⟨_, _, hts, hus, hboth⟩ := (hacts _ _ hoff ⟨howns 4, by decide⟩).enabledTransitions
    obtain rfl := Except.ok.inj (hswitch.symm.trans hts)
    obtain rfl := Except.ok.inj (hfull.symm.trans hus)
    exact hboth

end Net

end Petri
