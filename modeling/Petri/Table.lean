/-!
# Tables in insertion order

A table pairs keys with values and remembers the order in which its keys first came. Writing to a
key that is there already keeps the place and the spelling of the first key and changes only the
value. Keys are told apart by `==`, which need not be equality: two spellings of one key are one
entry.

Main statements: `get?_put_of_beq` and `get?_put_of_ne` say what a write does to every look-up.
-/

namespace Petri

/-- Pairs of keys and values, in the order in which the keys first came. -/
structure Table (κ β : Type) where
  entries : List (κ × β) := []

namespace Table

variable {κ β : Type} [BEq κ]

/-- The entry list after a write: a new key goes to the end with `fresh`, a known one gets its value
changed by `change`. -/
def upsertEntries (key : κ) (fresh : β) (change : β → β) : List (κ × β) → List (κ × β)
  | [] => [(key, fresh)]
  | (k, b) :: rest =>
    if k == key then (k, change b) :: rest else (k, b) :: upsertEntries key fresh change rest

/-- Adds `key` with the value `fresh`, or changes the value it has. -/
def upsert (t : Table κ β) (key : κ) (fresh : β) (change : β → β) : Table κ β :=
  ⟨upsertEntries key fresh change t.entries⟩

/-- Writes `value` under `key`. -/
def put (t : Table κ β) (key : κ) (value : β) : Table κ β :=
  t.upsert key value fun _ => value

/-- The value under `key`. -/
def get? (t : Table κ β) (key : κ) : Option β :=
  (t.entries.find? fun e => e.1 == key).map (·.2)

/-- Whether `key` has an entry. -/
def contains (t : Table κ β) (key : κ) : Bool :=
  t.entries.any fun e => e.1 == key

/-- The table without the entry of `key`. -/
def erase (t : Table κ β) (key : κ) : Table κ β :=
  ⟨t.entries.filter fun e => !(e.1 == key)⟩

/-- The table that results from writing the pairs one after another. -/
def ofList (pairs : List (κ × β)) : Table κ β :=
  pairs.foldl (fun t e => t.put e.1 e.2) ⟨[]⟩

/-- Writes every entry of `u` into `t`, in the order of `u`. -/
def update (t u : Table κ β) : Table κ β :=
  u.entries.foldl (fun t e => t.put e.1 e.2) t

/-- The keys, in order. -/
def keys (t : Table κ β) : List κ :=
  t.entries.map (·.1)

theorem contains_eq_isSome (t : Table κ β) (key : κ) : t.contains key = (t.get? key).isSome := by
  simp [contains, get?, List.isSome_find?]

/-- After a write there is the new entry, or the changed one, and nothing else that was not there before. -/
theorem mem_upsertEntries {key : κ} {fresh : β} {change : β → β} {es : List (κ × β)} {e : κ × β}
    (h : e ∈ upsertEntries key fresh change es) :
    e = (key, fresh) ∨ e ∈ es ∨ ∃ f ∈ es, (f.1 == key) = true ∧ e = (f.1, change f.2) := by
  induction es with
  | nil => exact .inl (List.mem_singleton.mp h)
  | cons f es ih =>
    rw [upsertEntries] at h
    by_cases hsame : (f.1 == key) = true
    · rw [if_pos hsame] at h
      rcases List.mem_cons.mp h with rfl | h
      · exact .inr (.inr ⟨f, List.mem_cons_self, hsame, rfl⟩)
      · exact .inr (.inl (List.mem_cons_of_mem _ h))
    · rw [if_neg hsame] at h
      rcases List.mem_cons.mp h with rfl | h
      · exact .inr (.inl List.mem_cons_self)
      · rcases ih h with h | h | h
        · exact .inl h
        · exact .inr (.inl (List.mem_cons_of_mem _ h))
        · obtain ⟨f', hf', h⟩ := h
          exact .inr (.inr ⟨f', List.mem_cons_of_mem _ hf', h⟩)

/-- What was written under a key is found under all its spellings. -/
theorem get?_put_of_beq [PartialEquivBEq κ] {t : Table κ β} {key other : κ} {value : β}
    (h : (key == other) = true) : (t.put key value).get? other = some value := by
  obtain ⟨es⟩ := t
  show ((upsertEntries key value (fun _ => value) es).find? fun e => e.1 == other).map (·.2) = some value
  induction es with
  | nil =>
    rw [upsertEntries, List.find?_cons, h]
    rfl
  | cons e es ih =>
    rw [upsertEntries]
    by_cases hsame : (e.1 == key) = true
    · rw [if_pos hsame, List.find?_cons, BEq.trans hsame h]
      rfl
    · have hne : (e.1 == other) = false := Bool.eq_false_iff.mpr fun ho => hsame (BEq.trans ho (BEq.symm h))
      rw [if_neg hsame, List.find?_cons, hne]
      exact ih

theorem get?_put_of_ne [PartialEquivBEq κ] (t : Table κ β) {key other : κ} (value : β)
    (hne : (key == other) = false) : (t.put key value).get? other = t.get? other := by
  obtain ⟨es⟩ := t
  simp only [put, upsert, get?]
  induction es with
  | nil => simp [upsertEntries, hne]
  | cons e rest ih =>
    obtain ⟨k, b⟩ := e
    by_cases h : (k == key) = true
    · have hko : (k == other) = false := by
        cases hk : (k == other) with
        | false => rfl
        | true => simp [BEq.trans (BEq.symm h) hk] at hne
      simp [upsertEntries, h, hko]
    · cases hk : (k == other) with
      | true => simp [upsertEntries, h, hk]
      | false => simpa [upsertEntries, h, hk] using ih

end Table

end Petri
