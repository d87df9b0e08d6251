import Petri.Fault

/-!
# Outcomes of sequenced checks

Building a net, checking a marking and every step are sequences of checks, each of which may end the whole
with a fault. This file says what the success of such a sequence tells about its parts: `bind_eq_ok` takes a
sequence apart, `liftM_eq_ok` looks through the change from faults of values to faults of operations, and
`mapM_eq_ok` reads a check of every item as one equation between lists, by which the results are known item by
item and pair by pair (`mem_of_mapM_eq_ok`, `pairwise_of_mapM_eq_ok`). If an item does not pass its check, the
first such item decides (`mapM_eq_error`, `mapM_eq_error_of_first`). A loop that only ever adds to what it has
so far ends with everything added (`foldlM_appends`).
-/

namespace Petri

variable {ε α β : Type}

/-- A sequence succeeds exactly if both parts do. -/
theorem bind_eq_ok {x : Except ε α} {f : α → Except ε β} {b : β} :
    (x >>= f) = .ok b ↔ ∃ a, x = .ok a ∧ f a = .ok b := by
  cases x with
  | ok a => simp [bind, Except.bind]
  | error e => simp [bind, Except.bind]

theorem ok_bind (a : α) (f : α → Except ε β) : (Except.ok a >>= f) = f a := rfl

theorem error_bind (e : ε) (f : α → Except ε β) : (Except.error e >>= f) = .error e := rfl

theorem pure_eq_ok {a b : α} : (pure a : Except ε α) = .ok b ↔ a = b := by
  simp [pure, Except.pure]

/-- A fault that is passed on as another one is no success. -/
theorem mapError_eq_ok {ε' : Type} {x : Except ε α} {f : ε → ε'} {a : α} :
    x.mapError f = .ok a ↔ x = .ok a := by
  cases x with
  | ok b =>
    show (Except.ok b : Except ε' α) = .ok a ↔ _
    simp
  | error e =>
    show (Except.error (f e) : Except ε' α) = .ok a ↔ _
    simp

theorem liftM_eq_ok {x : Except Datum.Fault α} {a : α} :
    (liftM x : Except Fault α) = .ok a ↔ x = .ok a :=
  mapError_eq_ok

theorem liftM_inj {x y : Except Datum.Fault α} (h : (liftM x : Except Fault α) = liftM y) : x = y := by
  cases x with
  | ok a =>
    cases y with
    | ok b => exact congrArg Except.ok (Except.ok.inj h)
    | error e => cases (show (Except.ok a : Except Fault α) = .error (.value e) from h)
  | error e =>
    cases y with
    | ok b => cases (show (Except.error (.value e) : Except Fault α) = .ok b from h)
    | error e' => exact congrArg Except.error (Fault.value.inj (Except.error.inj h))

theorem liftM_ok (a : α) : (liftM (.ok a : Except Datum.Fault α) : Except Fault α) = .ok a := rfl

/-- A check of every item succeeds exactly if each item has its result. -/
theorem mapM_eq_ok (f : α → Except ε β) :
    ∀ (xs : List α) (ys : List β), xs.mapM f = .ok ys ↔ xs.map f = ys.map .ok := by
  intro xs
  induction xs with
  | nil =>
    intro ys
    cases ys <;> simp [pure, Except.pure]
  | cons x xs ih =>
    intro ys
    rw [List.mapM_cons, bind_eq_ok]
    constructor
    · intro h
      rcases h with ⟨y, hy, h⟩
      obtain ⟨rest, hrest, h⟩ := bind_eq_ok.mp h
      rw [← pure_eq_ok.mp h, List.map_cons, List.map_cons, hy, (ih rest).mp hrest]
    · intro h
      cases ys with
      | nil => simp at h
      | cons y ys =>
        rw [List.map_cons, List.map_cons, List.cons.injEq] at h
        exact ⟨y, h.1, bind_eq_ok.mpr ⟨ys, (ih ys).mpr h.2, rfl⟩⟩

/-- If some item does not pass its check, the whole ends with the fault of an item. -/
theorem mapM_eq_error {f : α → Except ε β} {xs : List α} (h : ∃ x ∈ xs, ∀ y, f x ≠ .ok y) :
    ∃ x ∈ xs, ∃ e, f x = .error e ∧ xs.mapM f = .error e := by
  induction xs with
  | nil => simp at h
  | cons x xs ih =>
    cases hx : f x with
    | error e =>
      refine ⟨x, List.mem_cons_self, e, hx, ?_⟩
      rw [List.mapM_cons, hx, error_bind]
    | ok y =>
      -- the first item passes, so that the fault is that of a later one
      have hrest : ∃ x ∈ xs, ∀ y, f x ≠ .ok y := by
        obtain ⟨z, hz, hno⟩ := h
        rcases List.mem_cons.mp hz with rfl | hz
        · exact absurd hx (hno y)
        · exact ⟨z, hz, hno⟩
      obtain ⟨z, hz, e, hze, herror⟩ := ih hrest
      refine ⟨z, List.mem_cons_of_mem _ hz, e, hze, ?_⟩
      rw [List.mapM_cons, hx, ok_bind, herror, error_bind]

/-- A check of every item has a result exactly if each item passes. -/
theorem exists_mapM_eq_ok {f : α → Except ε β} {xs : List α} :
    (∃ ys, xs.mapM f = .ok ys) ↔ ∀ x ∈ xs, ∃ y, f x = .ok y := by
  induction xs with
  | nil => simp [pure, Except.pure]
  | cons x xs ih =>
    rw [List.forall_mem_cons, ← ih]
    constructor
    · intro h
      obtain ⟨_, h⟩ := h
      rw [List.mapM_cons, bind_eq_ok] at h
      obtain ⟨y, hy, h⟩ := h
      obtain ⟨ys, hys, _⟩ := bind_eq_ok.mp h
      exact ⟨⟨y, hy⟩, ys, hys⟩
    · intro h
      obtain ⟨⟨y, hy⟩, ys, hys⟩ := h
      exact ⟨y :: ys, by rw [List.mapM_cons, hy, ok_bind, hys, ok_bind]; rfl⟩

/-- The whole ends with no other fault than that of an item. -/
theorem exists_of_mapM_eq_error {f : α → Except ε β} {xs : List α} {e : ε} (h : xs.mapM f = .error e) :
    ∃ x ∈ xs, f x = .error e := by
  have hfails : ∃ x ∈ xs, ∀ y, f x ≠ .ok y := by
    refine Classical.byContradiction fun hnone => ?_
    simp only [ne_eq, not_exists, not_and, Classical.not_forall, Classical.not_not] at hnone
    obtain ⟨ys, hys⟩ := exists_mapM_eq_ok.mpr hnone
    rw [h] at hys
    cases hys
  obtain ⟨x, hx, e', hfault, herror⟩ := mapM_eq_error hfails
  rw [h] at herror
  cases herror
  exact ⟨x, hx, hfault⟩

/-- If all items before it pass, an item that fails decides. -/
theorem mapM_eq_error_of_first {f : α → Except ε β} {before after : List α} {x : α} {e : ε}
    (hbefore : ∀ z ∈ before, ∃ y, f z = .ok y) (hx : f x = .error e) :
    (before ++ x :: after).mapM f = .error e := by
  obtain ⟨ys, hys⟩ := exists_mapM_eq_ok.mpr hbefore
  rw [List.mapM_append, hys, ok_bind, List.mapM_cons, hx, error_bind]
  rfl

/-- The results are those of the items. -/
theorem mem_of_mapM_eq_ok {f : α → Except ε β} {xs : List α} {ys : List β} (h : xs.mapM f = .ok ys) {y : β} :
    y ∈ ys ↔ ∃ x ∈ xs, f x = .ok y := by
  have hmem : Except.ok y ∈ ys.map (.ok : β → Except ε β) ↔ y ∈ ys := by simp
  rw [← hmem, ← (mapM_eq_ok f xs ys).mp h, List.mem_map]

/-- What holds of the results pair by pair holds of the items that they come from. -/
theorem pairwise_of_mapM_eq_ok {f : α → Except ε β} {xs : List α} {ys : List β} (h : xs.mapM f = .ok ys)
    {R : β → β → Prop} :
    ys.Pairwise R ↔ xs.Pairwise fun x x' => ∀ y y', f x = .ok y → f x' = .ok y' → R y y' := by
  let both (r r' : Except ε β) : Prop := ∀ y y', r = .ok y → r' = .ok y' → R y y'
  have hys : ys.Pairwise R ↔ (ys.map (.ok : β → Except ε β)).Pairwise both := by
    rw [List.pairwise_map]
    refine List.Pairwise.iff ?_
    intro y y'
    exact ⟨fun hR _ _ hy hy' => Except.ok.inj hy ▸ Except.ok.inj hy' ▸ hR, fun hall => hall y y' rfl rfl⟩
  rw [hys, ← (mapM_eq_ok f xs ys).mp h, List.pairwise_map]

/-- A loop that adds its pieces to a list, and nothing else, ends with all of them. Each step may use that
no two pieces added so far are related otherwise than by `R`. -/
theorem foldlM_appends {γ : Type} (shape : List β → γ) {R : β → β → Prop} {step : γ → α → Except ε γ}
    {pieces : α → List β} {xs : List α} {done : List β}
    (hstep : ∀ done, ∀ x ∈ xs, (done ++ pieces x).Pairwise R →
      step (shape done) x = .ok (shape (done ++ pieces x)))
    (h : (done ++ xs.flatMap pieces).Pairwise R) :
    xs.foldlM step (shape done) = .ok (shape (done ++ xs.flatMap pieces)) := by
  induction xs generalizing done with
  | nil => rw [List.flatMap_nil, List.append_nil]; rfl
  | cons x xs ih =>
    rw [List.flatMap_cons, ← List.append_assoc] at h ⊢
    rw [List.foldlM_cons, hstep done x List.mem_cons_self (List.pairwise_append.mp h).1, ok_bind]
    exact ih (fun done y hy => hstep done y (List.mem_cons_of_mem _ hy)) h

theorem foldlM_maps {γ : Type} (shape : List β → γ) {R : β → β → Prop} {step : γ → α → Except ε γ}
    {piece : α → β} {xs : List α} {done : List β}
    (hstep : ∀ done, ∀ x ∈ xs, (done ++ [piece x]).Pairwise R →
      step (shape done) x = .ok (shape (done ++ [piece x])))
    (h : (done ++ xs.map piece).Pairwise R) :
    xs.foldlM step (shape done) = .ok (shape (done ++ xs.map piece)) := by
  rw [List.map_eq_flatMap] at h ⊢
  exact foldlM_appends shape hstep h

/-! ## Failures of a class -/

/-- The operation ends with a fault of class `c`. -/
def FailsWith (r : Except Fault α) (c : FaultClass) : Prop :=
  ∃ fault, r = .error fault ∧ fault.class? = some c

variable {r : Except Fault α} {c : FaultClass}

theorem FailsWith.map (h : FailsWith r c) (f : α → β) : FailsWith (r.map f) c := by
  obtain ⟨fault, rfl, hc⟩ := h
  exact ⟨fault, rfl, hc⟩

/-- What fails for a value is no failure of a class. -/
theorem not_failsWith_value {cause : Datum.Fault} : ¬ FailsWith (.error (.value cause) : Except Fault α) c := by
  rintro ⟨_, h, hc⟩
  cases h
  cases hc

theorem FailsWith.ne_ok (h : FailsWith r c) (a : α) : r ≠ .ok a := by
  obtain ⟨fault, rfl, _⟩ := h
  simp

end Petri
