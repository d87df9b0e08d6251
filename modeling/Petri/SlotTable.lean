/-!
# Slot tables

A slot table keeps items, each in a slot of its own. An item comes with a code, and the code says which slots
it may take: the one that its lowest bits name, the nine after that if the table goes on so far, and then the
same from a slot that the further bits decide, and so on. The item takes the first of them that is free. The
slots are a power of two, at least eight, and become more before three fifths of them are taken.

A table is listed in the order of its slots. Codes and the number of slots decide the order of a listing, and
only where two items want one slot it matters which came first.

Main statements: `perm_toList_resize` and `perm_toList_insert`. A table that grows keeps its items, and an
insertion adds the item that is new and nothing else.
-/

namespace Petri

/-- An item in its slot. -/
structure Slot (α : Type) where
  position : Nat
  code : UInt64
  item : α

/-- Items with codes in slots. -/
structure SlotTable (α : Type) where
  size : Nat := 8
  /-- The slots that are taken, in order. -/
  taken : List (Slot α) := []

namespace SlotTable

variable {α : Type}

/-- The items in the order of their slots. -/
def toList (t : SlotTable α) : List α :=
  t.taken.map (·.item)

/-- The slots that are tried in a row from `start` on. -/
def row (size start : Nat) : List Nat :=
  if start + 9 < size then (List.range 10).map (start + ·) else [start]

/-- The first free slot in the row from `start`, or in the rows to which the bits in `rest` lead from
there. -/
def search (free : Nat → Bool) (size : Nat) : (rows start rest : Nat) → Nat
  | 0, start, _ => start
  | rows + 1, start, rest =>
    match (row size start).find? free with
    | some position => position
    | none =>
      let rest := rest >>> 5
      search free size rows ((5 * start + 1 + rest) % size) rest

/-- The slot that an item with this code takes. Once the bits of the code are used up, the rows start at
every slot in turn. -/
def position (t : SlotTable α) (code : UInt64) : Nat :=
  let free (p : Nat) : Bool := t.taken.all (·.position != p)
  search free t.size (t.size + 16) (code.toNat % t.size) code.toNat

/-- Inserts a slot where it belongs in the order of the slots. -/
def insertSlot (s : Slot α) : List (Slot α) → List (Slot α)
  | [] => [s]
  | r :: rest => if s.position ≤ r.position then s :: r :: rest else r :: insertSlot s rest

/-- Puts an item that is not in the table into its slot. -/
def place (t : SlotTable α) (code : UInt64) (item : α) : SlotTable α :=
  { t with taken := insertSlot ⟨t.position code, code, item⟩ t.taken }

/-- Puts the items, in the order of the listing, into a table of the least size above `bound`. -/
def resize (t : SlotTable α) (bound : Nat) : SlotTable α :=
  t.taken.foldl (fun u s => u.place s.code s.item) { size := max 8 (1 <<< (bound.log2 + 1)) }

/-- Whether a table of this size is too small for so many items. -/
def crowded (size items : Nat) : Bool :=
  3 * (size - 1) ≤ 5 * items

/-- Adds an item, unless an equal one is in the table. A table that gets crowded grows to more than four
slots an item. -/
def insert [BEq α] (t : SlotTable α) (code : UInt64) (item : α) : SlotTable α :=
  if t.taken.any (·.item == item) then t
  else
    let t := t.place code item
    let n := t.taken.length
    if crowded t.size n then t.resize (4 * n) else t

/-- Adds the items of `u` in the order of its listing. If the table would be crowded with all of them, it
first grows to more than two slots an item. An empty table of the size of `u` becomes `u` as it is. -/
def merge [BEq α] (t u : SlotTable α) : SlotTable α :=
  if u.taken.isEmpty then t
  else
    let n := t.taken.length + u.taken.length
    let t := if crowded t.size n then t.resize (2 * n) else t
    if t.taken.isEmpty && t.size == u.size then u
    else u.taken.foldl (fun t s => t.insert s.code s.item) t

/-! ## Listings -/

theorem perm_insertSlot (s : Slot α) (slots : List (Slot α)) : (insertSlot s slots).Perm (s :: slots) := by
  induction slots with
  | nil => exact .refl _
  | cons r rest ih =>
    unfold insertSlot
    split
    · exact .refl _
    · exact (ih.cons r).trans (.swap s r rest)

theorem perm_toList_place (t : SlotTable α) (code : UInt64) (item : α) :
    (t.place code item).toList.Perm (item :: t.toList) :=
  (perm_insertSlot ⟨t.position code, code, item⟩ t.taken).map Slot.item

theorem perm_toList_resize (t : SlotTable α) (bound : Nat) : (t.resize bound).toList.Perm t.toList := by
  have placed (slots : List (Slot α)) : ∀ u : SlotTable α,
      (slots.foldl (fun u s => u.place s.code s.item) u).toList.Perm
        (slots.map (·.item) ++ u.toList) := by
    induction slots with
    | nil => exact fun u => .refl _
    | cons s rest ih =>
      intro u
      exact (ih _).trans ((perm_toList_place u s.code s.item).append_left _ |>.trans List.perm_middle)
  simpa [toList, resize] using placed t.taken { size := max 8 (1 <<< (bound.log2 + 1)) }

theorem toList_insert_of_mem [BEq α] {t : SlotTable α} {item : α} (code : UInt64)
    (old : t.toList.any (· == item)) : (t.insert code item).toList = t.toList := by
  have old : t.taken.any (·.item == item) = true := by simpa [toList, List.any_map] using old
  rw [insert, if_pos old]

theorem perm_toList_insert [BEq α] {t : SlotTable α} {item : α} (code : UInt64)
    (fresh : ¬ t.toList.any (· == item)) : (t.insert code item).toList.Perm (item :: t.toList) := by
  have fresh : t.taken.any (·.item == item) = false := by simpa [toList, List.any_map] using fresh
  simp only [insert, fresh, Bool.false_eq_true, if_false]
  split
  · exact (perm_toList_resize _ _).trans (perm_toList_place t code item)
  · exact perm_toList_place t code item

end SlotTable

end Petri
