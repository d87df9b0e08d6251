/-!
# Arc weights of one transition

Over `n` places, token counts, capacities and weights are vectors of signed 64-bit words, and sums of
words wrap. `Weights.fire?` moves the tokens of one transition forward, `Weights.revert?` finds a
predecessor of a vector under it. Both refuse by a condition on every place: firing needs the tokens
that the transition takes and room for those that it gives, reverting needs the places that it takes from
to hold no more than their capacity.
-/

namespace Petri

/-- What a transition takes from every place and what it gives to it; zero where there is no arc. -/
structure Weights (n : Nat) where
  pre : Vector Int64 n
  post : Vector Int64 n
  deriving DecidableEq

namespace Weights

variable {n : Nat} (w : Weights n)

/-- Every place holds what the transition takes from it. -/
def Enabled (m : Vector Int64 n) : Prop :=
  ∀ p : Fin n, w.pre.get p ≤ m.get p

instance (m : Vector Int64 n) : Decidable (w.Enabled m) :=
  inferInstanceAs (Decidable (∀ p : Fin n, w.pre.get p ≤ m.get p))

/-- The vector after taking and giving, word by word. -/
def apply (m : Vector Int64 n) : Vector Int64 n :=
  Vector.ofFn fun p => m.get p - w.pre.get p + w.post.get p

/-- No place that the transition gives to holds more than its capacity. -/
def Fits (capacity m : Vector Int64 n) : Prop :=
  ∀ p : Fin n, 0 < w.post.get p → m.get p ≤ capacity.get p

instance (capacity m : Vector Int64 n) : Decidable (w.Fits capacity m) :=
  inferInstanceAs (Decidable (∀ p : Fin n, 0 < w.post.get p → m.get p ≤ capacity.get p))

/-- The vector after firing from `m`, if the transition is enabled and its result fits. -/
def fire? (capacity m : Vector Int64 n) : Option (Vector Int64 n) :=
  if w.Enabled m ∧ w.Fits capacity (w.apply m) then some (w.apply m) else none

/-- The change at every place, given less taken. -/
def effect : Vector Int64 n :=
  Vector.ofFn fun p => w.post.get p - w.pre.get p

/-- No place that the transition takes from holds more than its capacity. -/
def Revertible (capacity m : Vector Int64 n) : Prop :=
  ∀ p : Fin n, 0 < w.pre.get p → m.get p ≤ capacity.get p

instance (capacity m : Vector Int64 n) : Decidable (w.Revertible capacity m) :=
  inferInstanceAs (Decidable (∀ p : Fin n, 0 < w.pre.get p → m.get p ≤ capacity.get p))

/-- The predecessor of a count `v` at a place with weights `pre` and `post`. What was given is taken
back as far as it is there, and what was taken is put back. -/
def predecessor (pre post v : Int64) : Int64 :=
  if 0 < pre then
    if 0 < post then if v ≤ post then pre else v + pre - post
    else v + pre
  else if 0 < post then if v ≤ post then 0 else v - post
  else v

/-- The vector of the predecessors at every place. -/
def unapply (m : Vector Int64 n) : Vector Int64 n :=
  Vector.ofFn fun p => predecessor (w.pre.get p) (w.post.get p) (m.get p)

/-- A predecessor of `m`, if `m` is within capacity where the transition takes tokens. -/
def revert? (capacity m : Vector Int64 n) : Option (Vector Int64 n) :=
  if w.Revertible capacity m then some (w.unapply m) else none

/-! ## Place by place -/

theorem get_ofFn (f : Fin n → Int64) (p : Fin n) : (Vector.ofFn f).get p = f p :=
  Vector.getElem_ofFn p.isLt

@[simp] theorem get_apply (m : Vector Int64 n) (p : Fin n) :
    (w.apply m).get p = m.get p - w.pre.get p + w.post.get p :=
  get_ofFn _ p

@[simp] theorem get_effect (p : Fin n) : w.effect.get p = w.post.get p - w.pre.get p :=
  get_ofFn _ p

@[simp] theorem get_unapply (m : Vector Int64 n) (p : Fin n) :
    (w.unapply m).get p = predecessor (w.pre.get p) (w.post.get p) (m.get p) :=
  get_ofFn _ p

theorem fire?_eq_some_iff {capacity m m' : Vector Int64 n} :
    w.fire? capacity m = some m' ↔
      w.Enabled m ∧ w.Fits capacity (w.apply m) ∧ m' = w.apply m := by
  unfold fire?
  split <;> rename_i h <;> simp_all [eq_comm]

theorem revert?_eq_some_iff {capacity m m' : Vector Int64 n} :
    w.revert? capacity m = some m' ↔ w.Revertible capacity m ∧ m' = w.unapply m := by
  unfold revert?
  split <;> rename_i h <;> simp_all [eq_comm]

end Weights

end Petri
