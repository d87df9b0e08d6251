import Petri.Proofs.Outcomes

/-!
# Faults in words

A value that shows a number with more digits than a numeral may have cannot be written. Most operations never notice,
but a fault of the library's own is worded as soon as it is raised, from the values that it shows (`Fault.shown`):

> `raise_of_worded`, `raise_of_not_worded`: it is raised as it is if all of them can be written, and gives way to
> the fault of a number without a numeral otherwise.

`Refused` is what this makes of a refusal of a class. It is a failure of the class (`Refused.failsWith`) where all that
is given can be written.
-/

namespace Petri

/-! ## What can be written -/

theorem Text.digitsWithin_iff {limit n : Nat} : digitsWithin limit n = true ↔ n < Nat.pow 10 limit := by
  induction limit generalizing n with
  | zero => simp [digitsWithin]
  | succ limit ih =>
    have hpos : 0 < Nat.pow 10 limit := Nat.pow_pos (by decide)
    have hstep : n / 10 < Nat.pow 10 limit ↔ n < Nat.pow 10 limit * 10 := Nat.div_lt_iff_lt_mul (by decide)
    rw [digitsWithin, Bool.or_eq_true, ih, hstep, beq_iff_eq]
    constructor
    · rintro (rfl | h)
      · exact Nat.mul_pos hpos (by decide)
      · exact h
    · exact .inr

/-- The least number that has more digits than a numeral may have. -/
def Text.tooLong : Int :=
  (Nat.pow 10 numeralLimit : Nat)

theorem Text.tooLong_pos : 0 < tooLong := by
  have hpos : ∀ limit, 0 < Nat.pow 10 limit := fun _ => Nat.pow_pos (by decide)
  exact Int.natCast_pos.mpr (hpos numeralLimit)

theorem Text.digitsWithin_of_le {k limit n : Nat} (hle : k ≤ limit) (h : digitsWithin k n = true) :
    digitsWithin limit n = true :=
  digitsWithin_iff.mpr (Nat.lt_of_lt_of_le (digitsWithin_iff.mp h) (Nat.pow_le_pow_right (by decide) hle))

namespace Datum

/-- The value has a text. -/
def Writable (x : Datum) : Prop :=
  x.render?.isSome = true

instance (x : Datum) : Decidable x.Writable :=
  inferInstanceAs (Decidable (x.render?.isSome = true))

theorem writable_str (s : String) : (str s).Writable := rfl

theorem writable_int_iff {n : Int} : (int n).Writable ↔ Text.hasNumeral n = true := by
  unfold Writable render? Text.numeral?
  split <;> simp_all

/-- Words are short. -/
theorem writable_int_of_word {n : Int} (hleast : -9223372036854775808 ≤ n) (hmost : n ≤ 9223372036854775807) :
    (int n).Writable := by
  have hfew : n.natAbs < 10000000000000000000 := by omega
  rw [writable_int_iff, Text.hasNumeral]
  exact Text.digitsWithin_of_le (k := 19) (by decide) (Text.digitsWithin_iff.mpr hfew)

theorem not_writable_tooLong : ¬ (int Text.tooLong).Writable := by
  rw [writable_int_iff, Text.hasNumeral, Text.digitsWithin_iff, Text.tooLong, Int.natAbs_natCast]
  exact Nat.lt_irrefl _

theorem not_writable_neg_tooLong : ¬ (int (-Text.tooLong)).Writable := by
  rw [writable_int_iff, Text.hasNumeral, Text.digitsWithin_iff, Int.natAbs_neg, Text.tooLong,
    Int.natAbs_natCast]
  exact Nat.lt_irrefl _

theorem exists_not_writable {xs : List Datum} (h : ¬ ∀ x ∈ xs, x.Writable) : ∃ x ∈ xs, ¬ x.Writable := by
  simpa only [Classical.not_forall, exists_prop] using h

theorem isSome_renderAll?_iff {xs : List Datum} : (renderAll? xs).isSome = true ↔ ∀ x ∈ xs, x.Writable := by
  induction xs with
  | nil => simp [renderAll?]
  | cons x xs ih =>
    rw [renderAll?, List.forall_mem_cons, ← ih, Writable]
    cases x.render? <;> cases renderAll? xs <;> simp

theorem isSome_renderList?_iff {xs : List Datum} : (renderList? xs).isSome = true ↔ ∀ x ∈ xs, x.Writable := by
  rw [← isSome_renderAll?_iff, renderList?, render?]
  cases renderAll? xs <;> simp

theorem writable_tuple_iff {xs : List Datum} : (tuple xs).Writable ↔ ∀ x ∈ xs, x.Writable := by
  rw [← isSome_renderAll?_iff, Writable]
  match xs with
  | [] => simp [render?, renderAll?]
  | [x] => cases hx : x.render? <;> simp [render?, renderAll?, hx]
  | x :: y :: xs =>
    rw [render?]
    · cases renderAll? (x :: y :: xs) <;> simp
    · simp

theorem writable_dict_iff {es : List (Datum × Datum)} :
    (dict es).Writable ↔ ∀ e ∈ es, e.1.Writable ∧ e.2.Writable := by
  have hentries : (renderEntries? es).isSome = true ↔ ∀ e ∈ es, e.1.Writable ∧ e.2.Writable := by
    induction es with
    | nil => simp [renderEntries?]
    | cons e es ih =>
      obtain ⟨k, v⟩ := e
      rw [renderEntries?, List.forall_mem_cons, ← ih, Writable, Writable]
      cases k.render? <;> cases v.render? <;> cases renderEntries? es <;> simp
  rw [← hentries, Writable, render?]
  cases renderEntries? es <;> simp

/-- A label is there if the value can be written, for every text can. -/
theorem isSome_label?_iff {x : Datum} : x.label?.isSome = true ↔ x.Writable := by
  unfold label? labelOr
  split
  next => simp [Writable, render?]
  next => rfl

theorem label_eq_ok {x : Datum} {s : String} : x.label = .ok s ↔ x.label? = some s := by
  unfold label
  split <;> simp_all

theorem label_of_not_writable {x : Datum} (h : ¬ x.Writable) : x.label = .error .noNumeral := by
  rw [← isSome_label?_iff, Option.not_isSome_iff_eq_none] at h
  rw [label, h]

end Datum

/-! ## Raising -/

namespace Fault

/-- The values that the wording of the fault shows. -/
def shown : Fault → List Datum
  | value _ | countMismatch .. => []
  | unknownDirection d => [d]
  | badLabel l p t => [l, p, t]
  | repeatedIdentifier _ x => [x]
  | sharedIdentifiers xs => xs
  | duplicateArc _ p t => [p, t]
  | undeclaredArcTransition _ x | undeclaredArcPlace _ x | undeclaredPlace x | undeclaredTransition x
  | unclassifiedNode x => [x]
  | capacityKeys missing extra | markingKeys missing extra => missing ++ extra
  | badCapacity p c => [p, c]
  | fractionalCount p v => [p, v]
  | countOutOfRange v p c => [.int v, p, .int c]
  | foreignMarking m places => [m, .tuple places]
  | misjoinedEdge u v => [u, v]

/-- All that the fault shows can be written. -/
def Worded (fault : Fault) : Prop :=
  ∀ x ∈ fault.shown, x.Writable

instance (fault : Fault) : Decidable fault.Worded :=
  inferInstanceAs (Decidable (∀ x ∈ fault.shown, x.Writable))

theorem isSome_mismatch?_iff {missing extra : List Datum} :
    (mismatch? missing extra).isSome = true ↔ ∀ x ∈ missing ++ extra, x.Writable := by
  rw [List.forall_mem_append, ← Datum.isSome_renderList?_iff, ← Datum.isSome_renderList?_iff, mismatch?]
  cases Datum.renderList? missing <;> cases Datum.renderList? extra <;> simp

/-- A fault of the library's own has a wording if all that it shows can be written. -/
theorem isSome_message?_iff {fault : Fault} {c : FaultClass} (hc : fault.class? = some c) :
    fault.message?.isSome = true ↔ fault.Worded := by
  cases fault with
  | value => cases hc
  | countMismatch => simp [Worded, shown, message?]
  | unknownDirection x | repeatedIdentifier _ x | undeclaredArcTransition _ x | undeclaredArcPlace _ x
  | undeclaredPlace x | undeclaredTransition x | unclassifiedNode x =>
    simp only [Worded, shown, List.forall_mem_cons, Datum.Writable, message?]
    cases x.render? <;> simp
  | duplicateArc _ x y | badCapacity x y | fractionalCount x y | misjoinedEdge x y =>
    simp only [Worded, shown, List.forall_mem_cons, Datum.Writable, message?]
    cases x.render? <;> cases y.render? <;> simp
  | foreignMarking m places =>
    simp only [Worded, shown, List.forall_mem_cons, Datum.Writable, message?]
    cases m.render? <;> cases (Datum.tuple places).render? <;> simp
  | badLabel l p t =>
    simp only [Worded, shown, List.forall_mem_cons, Datum.Writable, message?]
    cases l.render? <;> cases p.render? <;> cases t.render? <;> simp
  | countOutOfRange v p c =>
    simp only [Worded, shown, List.forall_mem_cons, Datum.Writable, Datum.render?, message?]
    cases Text.numeral? v <;> cases p.render? <;> cases Text.numeral? c <;> simp
  | sharedIdentifiers xs =>
    rw [Worded, shown, ← Datum.isSome_renderList?_iff, message?]
    cases Datum.renderList? xs <;> simp
  | capacityKeys missing extra | markingKeys missing extra =>
    rw [Worded, shown, ← isSome_mismatch?_iff, message?]
    cases mismatch? missing extra <;> simp

variable {α β : Type} {fault : Fault} {c : FaultClass}

theorem raise_of_worded (hc : fault.class? = some c) (h : fault.Worded) :
    (fault.raise : Except Fault α) = .error fault := by
  obtain ⟨text, htext⟩ := Option.isSome_iff_exists.mp ((isSome_message?_iff hc).mpr h)
  unfold raise
  split
  next => rfl
  next => rw [htext]

theorem raise_of_not_worded (hc : fault.class? = some c) (h : ¬ fault.Worded) :
    (fault.raise : Except Fault α) = .error (.value .noNumeral) := by
  have hnone : fault.message? = none := by
    rwa [← isSome_message?_iff hc, Option.not_isSome_iff_eq_none] at h
  unfold raise
  split
  next => cases hc
  next => rw [hnone]

/-- What is raised ends an operation. -/
theorem raise_bind (fault : Fault) (f : α → Except Fault β) : (fault.raise >>= f) = fault.raise := by
  unfold raise
  split
  next => rfl
  next => split <;> rfl

end Fault

/-! ## Refusals -/

section Refusals

variable {α β : Type} {r : Except Fault α} {c : FaultClass} {given given' : Datum → Prop}

/-- The operation is refused with a fault of class `c` that shows only what is `given`. If not all of this can be
written, then that is what fails in the end. -/
def Refused (r : Except Fault α) (c : FaultClass) (given : Datum → Prop) : Prop :=
  ∃ fault : Fault, fault.class? = some c ∧ (∀ x ∈ fault.shown, given x) ∧
    (fault.Worded → r = .error fault) ∧ (¬ fault.Worded → r = .error (.value .noNumeral))

theorem Fault.refused {fault : Fault} (hc : fault.class? = some c) (hgiven : ∀ x ∈ fault.shown, given x) :
    Refused (fault.raise : Except Fault α) c given :=
  ⟨fault, hc, hgiven, raise_of_worded hc, raise_of_not_worded hc⟩

theorem Refused.bind (h : Refused r c given) (f : α → Except Fault β) : Refused (r >>= f) c given := by
  obtain ⟨fault, hc, hgiven, hworded, hnot⟩ := h
  exact ⟨fault, hc, hgiven, fun h => by rw [hworded h]; rfl, fun h => by rw [hnot h]; rfl⟩

theorem Refused.map (h : Refused r c given) (f : α → β) : Refused (r.map f) c given := by
  obtain ⟨fault, hc, hgiven, hworded, hnot⟩ := h
  exact ⟨fault, hc, hgiven, fun h => by rw [hworded h]; rfl, fun h => by rw [hnot h]; rfl⟩

/-- A refusal is known by its fault, whatever the operation would have returned. -/
theorem Refused.of_error {e : Fault} (h : Refused r c given) (he : r = .error e) :
    Refused (.error e : Except Fault β) c given := by
  subst he
  exact h.bind fun _ => .error e

theorem Refused.mono (h : Refused r c given) (hsub : ∀ x, given x → given' x) : Refused r c given' := by
  obtain ⟨fault, hc, hgiven, hr⟩ := h
  exact ⟨fault, hc, fun x hx => hsub x (hgiven x hx), hr⟩

theorem Refused.ne_ok (h : Refused r c given) (a : α) : r ≠ .ok a := by
  obtain ⟨fault, _, _, hworded, hnot⟩ := h
  by_cases h : fault.Worded
  · rw [hworded h]
    simp
  · rw [hnot h]
    simp

/-- Where all that is given can be written, a refusal ends with its own fault. -/
theorem Refused.failsWith (h : Refused r c given) (hgiven : ∀ x, given x → x.Writable) : FailsWith r c := by
  obtain ⟨fault, hc, hshown, hworded, _⟩ := h
  exact ⟨fault, hworded fun x hx => hgiven x (hshown x hx), hc⟩

end Refusals

end Petri
